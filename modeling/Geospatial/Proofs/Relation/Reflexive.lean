import Mathlib.Analysis.SpecialFunctions.Complex.Arg
import Geospatial.Proofs.Geometry.WellFormed
import Geospatial.Proofs.Position
import Geospatial.Proofs.Relation.Laws
import Geospatial.Proofs.Scalar.Double
import Geospatial.Proofs.Scalar.Real
import Geospatial.Proofs.Segment.Between

/-! Well-formed geometries without holes contain themselves, in exact arithmetic: each position
of a line ends one of its segments, and each position of a ring lies on its boundary. -/
namespace Geospatial

namespace Path

theorem exists_mem_pairs {l : List α} {x : α} (here : x ∈ l) (long : 2 ≤ l.length) :
    ∃ s ∈ pairs l, s.1 = x ∨ s.2 = x := by
  induction l with
  | nil => contradiction
  | cons a l ih =>
    cases l with
    | nil => simp at long
    | cons b l =>
      rcases List.mem_cons.mp here with rfl | later
      · exact ⟨(x, b), List.mem_cons_self, .inl rfl⟩
      · cases l with
        | nil => exact ⟨(a, b), List.mem_cons_self, .inr (List.mem_singleton.mp later).symm⟩
        | cons c l =>
          obtain ⟨s, hs, ends⟩ := ih later (by simp)
          exact ⟨s, List.mem_cons_of_mem _ hs, ends⟩

theorem exists_mem_cyclicPairs {l : List α} {x : α} (here : x ∈ l) :
    ∃ y, (x, y) ∈ cyclicPairs l := by
  have lengths : l.length ≤ (l.tail ++ l.head?.toList).length := by
    cases l <;> simp
  rw [← List.map_fst_zip lengths] at here
  obtain ⟨⟨_, y⟩, pair, rfl⟩ := List.mem_map.mp here
  exact ⟨y, pair⟩

end Path

variable {K : Type} [Euclidean K] {p a b : Position K}

namespace Segment

theorem tolerance_pos : 0 < (tolerance : K) := Euclidean.ofScientific_pos 0 10

theorem hasPoint_of_orientation (flat : orientation a b p = 0) (box : inBox p a b = true) :
    hasPoint p a b = true := by
  have scale : 0 ≤ Scalar.max (Scalar.max (Scalar.abs (b.x - a.x)) (Scalar.abs (b.y - a.y))) 1 :=
    zero_le_one.trans (Scalar.le_max_right le_rfl)
  have near : Scalar.abs (orientation a b p) ≤ tolerance *
      Scalar.max (Scalar.max (Scalar.abs (b.x - a.x)) (Scalar.abs (b.y - a.y))) 1 := by
    rw [flat, Euclidean.abs_eq, abs_zero]
    exact mul_nonneg tolerance_pos.le scale
  simp only [hasPoint, near, box, decide_true, Bool.and_self]

theorem hasPoint_of_end (ends : p.sameXY a = true ∨ p.sameXY b = true) :
    hasPoint p a b = true := by
  have slack (c : K) : c - tolerance ≤ c ∧ c ≤ c + tolerance :=
    ⟨sub_le_self c tolerance_pos.le, le_add_of_nonneg_right tolerance_pos.le⟩
  simp only [Position.sameXY_iff] at ends
  apply hasPoint_of_orientation
  · -- two of the three corners are the same
    rcases ends with ⟨x, y⟩ | ⟨x, y⟩ <;> rw [orientation, x, y] <;> ring
  · simp only [inBox, Bool.and_eq_true, decide_eq_true_eq, and_assoc]
    rcases ends with ⟨x, y⟩ | ⟨x, y⟩ <;> rw [x, y]
    · exact ⟨(slack _).1.trans (Scalar.min_le_left le_rfl),
        (Scalar.le_max_left le_rfl).trans (slack _).2,
        (slack _).1.trans (Scalar.min_le_left le_rfl),
        (Scalar.le_max_left le_rfl).trans (slack _).2⟩
    · exact ⟨(slack _).1.trans (Scalar.min_le_right le_rfl),
        (Scalar.le_max_right le_rfl).trans (slack _).2,
        (slack _).1.trans (Scalar.min_le_right le_rfl),
        (Scalar.le_max_right le_rfl).trans (slack _).2⟩

end Segment

namespace Path

variable {line ring : Path K}

theorem hasPoint_of_mem (long : 2 ≤ line.length) (here : p ∈ line) : line.hasPoint p = true := by
  obtain ⟨s, hs, ends⟩ := exists_mem_pairs here long
  have on : Segment.hasPoint p s.1 s.2 = true := by
    rcases ends with rfl | rfl
    · exact Segment.hasPoint_of_end (.inl (Position.sameXY_self _))
    · exact Segment.hasPoint_of_end (.inr (Position.sameXY_self _))
  match line, long, hs with
  | a :: b :: rest, _, hs => exact List.any_eq_true.mpr ⟨s, hs, on⟩

/-- The last position of a closed ring stands for the first one. -/
theorem exists_vertex (long : 2 ≤ ring.length) (closed : ring.endsMeet = true) (here : p ∈ ring) :
    ∃ v ∈ ring.dropLast, p.sameXY v = true := by
  match ring, long, closed, here with
  | a :: b :: rest, _, closed, here =>
    have meet : a.sameXY ((b :: rest).getLast (List.cons_ne_nil b rest)) = true := closed
    rw [← List.dropLast_append_getLast (List.cons_ne_nil a (b :: rest)), List.mem_append,
      List.mem_singleton, List.getLast_cons_cons] at here
    rcases here with inside | rfl
    · exact ⟨p, inside, Position.sameXY_self p⟩
    · refine ⟨a, List.mem_cons_self, ?_⟩
      rwa [Position.sameXY_comm]

theorem side_of_mem (long : 4 ≤ ring.length) (closed : ring.endsMeet = true) (here : p ∈ ring) :
    ring.side p = .boundary := by
  obtain ⟨v, hv, same⟩ := exists_vertex (by omega) closed here
  obtain ⟨w, hw⟩ := exists_mem_cyclicPairs hv
  have vertices : ring.opened = ring.dropLast := by
    rw [opened, closed, Bool.and_true, if_pos (decide_eq_true (by omega))]
  have enough : ¬ring.dropLast.length < 3 := by
    rw [List.length_dropLast]
    omega
  have on : (cyclicPairs ring.dropLast).any (fun e => Segment.hasPoint p e.2 e.1) = true :=
    List.any_eq_true.mpr ⟨(v, w), hw, Segment.hasPoint_of_end (.inr same)⟩
  unfold side
  simp only [vertices, enough, if_false, on, if_true]

end Path

namespace Geometry

/-- No polygon of the geometry has a ring beside its exterior one. -/
inductive WithoutHoles : Geometry K → Prop where
  | point (p : Position K) : WithoutHoles (.point p)
  | lineString (line : Path K) : WithoutHoles (.lineString line)
  | polygon : rings.length ≤ 1 → WithoutHoles (.polygon rings)
  | multiPoint (points : Path K) : WithoutHoles (.multiPoint points)
  | multiLineString (lines : List (Path K)) : WithoutHoles (.multiLineString lines)
  | multiPolygon : (∀ rings ∈ ps, rings.length ≤ 1) → WithoutHoles (.multiPolygon ps)
  | collection : (∀ g ∈ gs, WithoutHoles g) → WithoutHoles (.collection gs)

theorem polygonHasPoint_of_mem {rings : List (Path K)} (formed : RingsFormed rings)
    (solid : rings.length ≤ 1) (here : p ∈ rings.flatten) : polygonHasPoint rings p = true := by
  match rings, formed, solid, here with
  | [exterior], formed, _, here =>
    obtain ⟨long, closed⟩ := formed.2 exterior List.mem_cons_self
    rw [List.flatten_singleton] at here
    rw [polygonHasPoint, Path.side_of_mem long closed here]

mutual

theorem hasPoint_of_mem (g : Geometry K) (formed : g.WellFormed) (solid : g.WithoutHoles)
    (here : p ∈ g.positions) : g.hasPoint p = true := by
  cases formed with
  | point q =>
    rw [positions, List.mem_singleton] at here
    rw [hasPoint, here]
    exact Position.sameXY_self q
  | lineString long => exact Path.hasPoint_of_mem long here
  | polygon formed =>
    cases solid with
    | polygon solid => exact polygonHasPoint_of_mem formed solid here
  | multiPoint _ => exact List.any_eq_true.mpr ⟨p, here, Position.sameXY_self p⟩
  | multiLineString _ long =>
    obtain ⟨l, hl, here⟩ := List.mem_flatten.mp here
    exact List.any_eq_true.mpr ⟨l, hl, Path.hasPoint_of_mem (long l hl) here⟩
  | multiPolygon _ formed =>
    cases solid with
    | multiPolygon solid =>
      obtain ⟨ring, hring, here⟩ := List.mem_flatten.mp here
      obtain ⟨rings, hrings, hring⟩ := List.mem_flatten.mp hring
      exact List.any_eq_true.mpr ⟨rings, hrings, polygonHasPoint_of_mem (formed rings hrings)
        (solid rings hrings) (List.mem_flatten_of_mem hring here)⟩
  | collection formed =>
    cases solid with
    | collection solid => exact anyHasPoint_of_mem _ formed solid here

theorem anyHasPoint_of_mem (gs : List (Geometry K)) (formed : ∀ g ∈ gs, g.WellFormed)
    (solid : ∀ g ∈ gs, g.WithoutHoles) (here : p ∈ positionsOfAll gs) :
    anyHasPoint p gs = true := by
  cases gs with
  | nil => contradiction
  | cons g gs =>
    rw [positionsOfAll, List.mem_append] at here
    rw [anyHasPoint, Bool.or_eq_true]
    rw [List.forall_mem_cons] at formed solid
    rcases here with here | here
    · exact .inl (hasPoint_of_mem g formed.1 solid.1 here)
    · exact .inr (anyHasPoint_of_mem gs formed.2 solid.2 here)

end

theorem contains_self {g : Geometry K} (formed : g.WellFormed) (solid : g.WithoutHoles)
    (inhabited : g.positions ≠ []) : g.contains g = true := by
  obtain ⟨q, rest, listed⟩ := List.exists_cons_of_ne_nil inhabited
  obtain ⟨box, has⟩ : ∃ box, g.bounds? = some box := by
    rw [bounds?, listed]
    exact ⟨_, rfl⟩
  have within : box.contains box = true := Bounds.contains_iff.mpr ⟨le_rfl, le_rfl, le_rfl, le_rfl⟩
  exact contains_iff.mpr ⟨box, box, has, has, within,
    fun p here => hasPoint_of_mem g formed solid here⟩

/-- Intersection, disjointness, overlap, crossing and touch are symmetric, and containment is
being within from the other side. Two geometries are either disjoint or touch or overlap;
overlap is crossing; what is contained intersects and touches. A well-formed geometry without
holes that has a position contains and intersects itself in exact arithmetic. -/
theorem relations_cohere :
    (∀ (K : Type) [Scalar K] [Scalar.LawfulOrder K] (a b : Geometry K),
      (∀ r ∈ [Relation.intersects, .disjoint, .overlaps, .crosses, .touches],
        a.relate b r = b.relate a r) ∧
      a.relate b .within = b.relate a .contains ∧
      (∃! r, r ∈ [Relation.disjoint, .touches, .overlaps] ∧ a.relate b r = true) ∧
      a.relate b .overlaps = a.relate b .crosses ∧
      (a.relate b .contains = true →
        a.relate b .intersects = true ∧ a.relate b .touches = true)) ∧
    ∀ (K : Type) [Euclidean K] (g : Geometry K), g.positions ≠ [] → g.WithoutHoles →
      g.check = .ok () → g.relate g .contains = true ∧ g.relate g .intersects = true := by
  constructor
  · intro K _ _ a b
    exact ⟨fun r symmetric => relate_comm a b symmetric, rfl, existsUnique_relation a b,
      overlaps_eq_crosses a b, fun inside => ⟨intersects_of_contains inside,
        touches_of_contains inside⟩⟩
  · intro K _ g inhabited solid formed
    have inside := contains_self ((check_eq_ok g).mp formed) solid inhabited
    exact ⟨inside, intersects_of_contains inside⟩

/-- A square with a point in it, in doubles, and a triangle beside a line, in real numbers. -/
theorem relations_cohere_triangle :
    (let square : Geometry Float := .polygon [[⟨0, 0, none⟩, ⟨4, 0, none⟩, ⟨4, 4, none⟩,
      ⟨0, 4, none⟩, ⟨0, 0, none⟩]]
    let inner : Geometry Float := .point ⟨1, 1, none⟩
    square.relate inner .contains = true ∧ square.relate inner .touches = true) ∧
    let mixed : Geometry ℝ := .collection [
      .polygon [[⟨0, 0, none⟩, ⟨2, 0, none⟩, ⟨1, 3, none⟩, ⟨0, 0, none⟩]],
      .lineString [⟨5, 5, none⟩, ⟨7, 5, some 1⟩]]
    mixed.positions ≠ [] ∧ mixed.WithoutHoles ∧ mixed.check = .ok () ∧
      mixed.relate mixed .contains = true := by
  constructor
  · intro square inner
    have inside : square.relate inner .contains = true := by decide +kernel
    exact ⟨inside, ((relations_cohere.1 Float square inner).2.2.2.2 inside).2⟩
  · intro mixed
    have inhabited : mixed.positions ≠ [] := nofun
    have solid : mixed.WithoutHoles := by
      refine .collection fun g hg => ?_
      simp only [List.mem_cons, List.not_mem_nil, or_false] at hg
      rcases hg with rfl | rfl
      · exact .polygon le_rfl
      · exact .lineString _
    have formed : mixed.check = .ok () := by
      refine (check_eq_ok mixed).mpr (.collection fun g hg => ?_)
      simp only [List.mem_cons, List.not_mem_nil, or_false] at hg
      rcases hg with rfl | rfl
      · refine .polygon ⟨nofun, fun r hr => ?_⟩
        obtain rfl := List.mem_singleton.mp hr
        exact ⟨le_rfl, Position.sameXY_self _⟩
      · exact .lineString le_rfl
    exact ⟨inhabited, solid, formed, (relations_cohere.2 ℝ mixed inhabited solid formed).1⟩

end Geometry
end Geospatial
