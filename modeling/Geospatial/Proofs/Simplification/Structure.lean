import Mathlib.Data.List.Forall2
import Geospatial.Proofs.Geometry.WellFormed
import Geospatial.Proofs.Simplification.Kept
import Geospatial.Simplification

/-! What simplification keeps of a geometry: the kind, the nesting and every part and ring, each
with some of its vertices in their order and both of its ends. So rings stay closed, and a
well-formed geometry stays one. -/
namespace Geospatial

variable {K : Type}

namespace Path

variable {points kept rest : Path K} {tolerance : K}

/-- Some of the vertices in their order, with both ends. -/
structure Thinned (points kept : Path K) : Prop where
  sublist : kept.Sublist points
  head : kept.head? = points.head?
  last : kept.getLast? = points.getLast?

theorem Thinned.refl (points : Path K) : points.Thinned points := ⟨List.Sublist.refl _, rfl, rfl⟩

theorem Thinned.trans (first : points.Thinned kept) (second : kept.Thinned rest) :
    points.Thinned rest :=
  ⟨second.sublist.trans first.sublist, second.head.trans first.head, second.last.trans first.last⟩

theorem ends?_eq_some {a b : Position K} {middle : Path K}
    (ends : ends? points = some (a, middle, b)) :
    points = a :: middle ++ [b] := by
  match points with
  | p :: q :: rest =>
    cases ends
    rw [List.cons_append, List.dropLast_append_getLast]

variable [Scalar K]

theorem Thinned.endsMeet_eq (thinned : points.Thinned kept) : kept.endsMeet = points.endsMeet := by
  rw [endsMeet, endsMeet, thinned.head, thinned.last]

theorem thinFrom_sublist (tolerance : K) (last : Position K) (points : Path K) :
    (thinFrom tolerance last points).Sublist points := by
  induction points generalizing last with
  | nil => exact List.Sublist.refl _
  | cons p ps ih =>
    rw [thinFrom]
    split
    · exact (ih p).cons_cons p
    · exact (ih last).cons p

theorem thinned_simplifyByDistance (points : Path K) (tolerance : K) :
    points.Thinned (points.simplifyByDistance tolerance) := by
  rw [simplifyByDistance]
  split
  · exact .refl points
  · rename_i a middle b ends
    rw [ends?_eq_some ends]
    exact ⟨((thinFrom_sublist tolerance a middle).append_right [b]).cons_cons a, rfl, by
      rw [List.getLast?_concat, List.getLast?_concat]⟩

theorem two_le_simplifyByDistance (tolerance : K) (long : 2 ≤ points.length) :
    2 ≤ (points.simplifyByDistance tolerance).length := by
  rw [simplifyByDistance]
  split
  · exact long
  · simp

variable [Scalar.LawfulOrder K]

theorem thinned_simplifyByChord (points : Path K) (valid : ¬tolerance < 0) :
    points.Thinned (points.simplifyByChord tolerance) := by
  cases points with
  | nil => exact .refl []
  | cons p rest =>
    have filled : 0 < (p :: rest).length := Nat.succ_pos _
    have stays_iff {j : ℕ} := stays_chordSearch (j := j) valid filled
    rw [simplifyByChord_eq_select _ valid]
    exact ⟨select_sublist _ _, head?_select filled (stays_iff.mpr ⟨filled, .inl rfl⟩),
      getLast?_select filled (stays_iff.mpr ⟨Nat.sub_lt filled Nat.one_pos, .inr (.inl rfl)⟩)⟩

/-- The two ends are two vertices, even where they are in the same place. -/
theorem two_le_simplifyByChord (valid : ¬tolerance < 0) (long : 2 ≤ points.length) :
    2 ≤ (points.simplifyByChord tolerance).length := by
  have filled : 0 < points.length := by omega
  have stays_iff {j : ℕ} := stays_chordSearch (j := j) valid filled
  rw [simplifyByChord_eq_select _ valid]
  obtain ⟨i, hi, first⟩ := exists_place filled (stays_iff.mpr ⟨filled, .inl rfl⟩)
  obtain ⟨j, hj, last⟩ := exists_place (Nat.sub_lt filled Nat.one_pos)
    (stays_iff.mpr ⟨Nat.sub_lt filled Nat.one_pos, .inr (.inl rfl)⟩)
  have differ : i ≠ j := by
    rintro rfl
    omega
  omega

end Path

namespace Geometry

variable {g : Geometry K} {tolerance : K}

/-- The same kind, nesting and number of parts and rings; points as they were, and each line and
ring thinned. -/
inductive Thinned : Geometry K → Geometry K → Prop where
  | point (p : Position K) : Thinned (.point p) (.point p)
  | lineString : line.Thinned line' → Thinned (.lineString line) (.lineString line')
  | polygon : List.Forall₂ Path.Thinned rings rings' → Thinned (.polygon rings) (.polygon rings')
  | multiPoint (points : Path K) : Thinned (.multiPoint points) (.multiPoint points)
  | multiLineString : List.Forall₂ Path.Thinned lines lines' →
      Thinned (.multiLineString lines) (.multiLineString lines')
  | multiPolygon : List.Forall₂ (List.Forall₂ Path.Thinned) ps ps' →
      Thinned (.multiPolygon ps) (.multiPolygon ps')
  | collection : List.Forall₂ Thinned gs gs' → Thinned (.collection gs) (.collection gs')

theorem forall₂_map {α : Type} {R : α → α → Prop} {f : α → α} (related : ∀ x, R x (f x))
    (xs : List α) : List.Forall₂ R xs (xs.map f) :=
  List.forall₂_map_right_iff.mpr (List.forall₂_same.mpr fun x _ => related x)

mutual

theorem thinned_mapParts {onLine onRing : Path K → Path K}
    (line : ∀ l : Path K, l.Thinned (onLine l))
    (ring : ∀ r : Path K, r.Thinned (onRing r)) (g : Geometry K) :
    g.Thinned (g.mapParts onLine fun rings => rings.map onRing) := by
  cases g with
  | point p => exact .point p
  | lineString l => exact .lineString (line l)
  | polygon rings => exact .polygon (forall₂_map ring rings)
  | multiPoint points => exact .multiPoint points
  | multiLineString lines => exact .multiLineString (forall₂_map line lines)
  | multiPolygon ps => exact .multiPolygon (forall₂_map (forall₂_map ring) ps)
  | collection gs => exact .collection (thinned_mapPartsAll line ring gs)

theorem thinned_mapPartsAll {onLine onRing : Path K → Path K}
    (line : ∀ l : Path K, l.Thinned (onLine l))
    (ring : ∀ r : Path K, r.Thinned (onRing r)) (gs : List (Geometry K)) :
    List.Forall₂ Thinned gs (mapPartsAll onLine (fun rings => rings.map onRing) gs) := by
  cases gs with
  | nil => exact .nil
  | cons g gs => exact .cons (thinned_mapParts line ring g) (thinned_mapPartsAll line ring gs)

end

section

variable [Scalar K] {onLine : Path K → Path K} {onRings : List (Path K) → List (Path K)}

mutual

/-- A geometry whose lines and polygons are changed to well-formed ones stays well-formed. -/
theorem WellFormed.mapParts (line : ∀ l, 2 ≤ l.length → 2 ≤ (onLine l).length)
    (rings : ∀ rs, RingsFormed rs → RingsFormed (onRings rs)) :
    ∀ g : Geometry K, g.WellFormed → (g.mapParts onLine onRings).WellFormed
  | .point p, _ => .point p
  | .lineString l, .lineString long => .lineString (line l long)
  | .polygon rs, .polygon formed => .polygon (rings rs formed)
  | .multiPoint _, .multiPoint filled => .multiPoint filled
  | .multiLineString _, .multiLineString filled long =>
    .multiLineString (fun empty => filled (List.map_eq_nil_iff.mp empty))
      (List.forall_mem_map.mpr fun l mem => line l (long l mem))
  | .multiPolygon _, .multiPolygon filled formed =>
    .multiPolygon (fun empty => filled (List.map_eq_nil_iff.mp empty))
      (List.forall_mem_map.mpr fun rs mem => rings rs (formed rs mem))
  | .collection gs, .collection formed => .collection (wellFormed_mapPartsAll line rings gs formed)

theorem wellFormed_mapPartsAll (line : ∀ l, 2 ≤ l.length → 2 ≤ (onLine l).length)
    (rings : ∀ rs, RingsFormed rs → RingsFormed (onRings rs)) :
    ∀ gs : List (Geometry K), (∀ g ∈ gs, g.WellFormed) →
      ∀ g ∈ mapPartsAll onLine onRings gs, g.WellFormed
  | [], _ => nofun
  | g :: gs, formed => List.forall_mem_cons.mpr
    ⟨WellFormed.mapParts line rings g (formed g List.mem_cons_self),
      wellFormed_mapPartsAll line rings gs fun m mem => formed m (List.mem_cons_of_mem g mem)⟩

end

end

variable [Scalar K]

theorem four_le_simplifyRing (tolerance : K) (highQuality : Bool) {ring : Path K}
    (long : 4 ≤ ring.length) : 4 ≤ (simplifyRing tolerance highQuality ring).length := by
  rw [simplifyRing]
  split
  · exact long
  · rename_i enough
    exact Nat.not_lt.mp enough

variable [Scalar.LawfulOrder K]

theorem thinned_simplifyLine (valid : ¬tolerance < 0) (highQuality : Bool) (line : Path K) :
    line.Thinned (simplifyLine tolerance highQuality line) := by
  rw [simplifyLine]
  split
  · exact Path.thinned_simplifyByChord line valid
  · exact (Path.thinned_simplifyByDistance line tolerance).trans
      (Path.thinned_simplifyByChord _ valid)

theorem two_le_simplifyLine (valid : ¬tolerance < 0) (highQuality : Bool) (line : Path K)
    (long : 2 ≤ line.length) : 2 ≤ (simplifyLine tolerance highQuality line).length := by
  rw [simplifyLine]
  split
  · exact Path.two_le_simplifyByChord valid long
  · exact Path.two_le_simplifyByChord valid (Path.two_le_simplifyByDistance tolerance long)

theorem thinned_simplifyRing (valid : ¬tolerance < 0) (highQuality : Bool) (ring : Path K) :
    ring.Thinned (simplifyRing tolerance highQuality ring) := by
  rw [simplifyRing]
  split
  · exact .refl ring
  · exact thinned_simplifyLine valid highQuality ring

theorem ringsFormed_simplifyRing (valid : ¬tolerance < 0) (highQuality : Bool)
    (rings : List (Path K)) (formed : RingsFormed rings) :
    RingsFormed (rings.map (simplifyRing tolerance highQuality)) := by
  refine ⟨fun empty => formed.1 (List.map_eq_nil_iff.mp empty), List.forall_mem_map.mpr ?_⟩
  intro ring mem
  obtain ⟨long, closed⟩ := formed.2 ring mem
  exact ⟨four_le_simplifyRing tolerance highQuality long,
    (thinned_simplifyRing valid highQuality ring).endsMeet_eq.trans closed⟩

/-- A well-formed geometry is simplified to one of the same shape with thinned lines and rings,
which is well-formed again; a tolerance that is negative or not finite is refused as invalid input.
-/
theorem simplify_keeps_structure (formed : g.check = .ok ()) (tolerance : K) (highQuality : Bool) :
    (Scalar.isFinite tolerance = true ∧ 0 ≤ tolerance →
      ∃ g', g.simplify tolerance highQuality = .ok g' ∧ g'.check = .ok () ∧ g.Thinned g') ∧
    (¬(Scalar.isFinite tolerance = true ∧ 0 ≤ tolerance) →
      ∃ f, g.simplify tolerance highQuality = .error f ∧ f.kind = .invalidInput) := by
  constructor
  · rintro ⟨finite, nonneg⟩
    have valid : ¬tolerance < 0 := Scalar.not_lt_of_le nonneg
    refine ⟨_, ?_, ?_, thinned_mapParts (thinned_simplifyLine valid highQuality)
      (thinned_simplifyRing valid highQuality) g⟩
    · simp [simplify, finite, nonneg]
    · rw [check_eq_ok]
      exact WellFormed.mapParts (two_le_simplifyLine valid highQuality)
        (ringsFormed_simplifyRing valid highQuality) g ((check_eq_ok g).mp formed)
  · intro invalid
    refine ⟨.input (.simplifyTolerance tolerance), ?_, rfl⟩
    rw [simplify, if_pos (by simpa [-not_le] using not_and_or.mp invalid)]
    rfl

/-- A line and a ring in a collection, with a tolerance for them and one that is refused. -/
theorem simplify_keeps_structure_collection :
    let g : Geometry Float := .collection [.lineString [⟨0, 0, none⟩, ⟨1, 0, none⟩, ⟨3, 0, none⟩],
      .polygon [[⟨0, 0, none⟩, ⟨4, 0, none⟩, ⟨4, 4, none⟩, ⟨0, 4, none⟩, ⟨0, 0, none⟩]]]
    g.check = .ok () ∧
      (∃ g', g.simplify 1 false = .ok g' ∧ g'.check = .ok () ∧ g.Thinned g') ∧
      ∃ f, g.simplify (-1) true = .error f ∧ f.kind = .invalidInput := by
  intro g
  have formed : g.check = .ok () := by rfl
  exact ⟨formed, (simplify_keeps_structure formed 1 false).1 (by decide +kernel),
    (simplify_keeps_structure formed (-1) true).2 (by decide +kernel)⟩

end Geometry
end Geospatial
