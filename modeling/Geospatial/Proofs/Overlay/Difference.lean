import Geospatial.Proofs.Hull.Cover
import Geospatial.Proofs.Geometry.Nearness
import Geospatial.Proofs.Relation.BoxTest
import Geospatial.Overlay

/-! The difference of polygonal geometries, in exact arithmetic. When the second operand is one
convex ring, the hull of the vertices outside of it and of the edge crossings covers what is left
of the first one. A line that cut a point of it off from the hull would have edges of the first
operand beyond it on both sides of the point; these would be in the convex ring, and so would be
the point. -/
namespace Geospatial

variable {K : Type} [Euclidean K] {p q x : Position K}

namespace Geometry

/-- The points that the hull of a difference is made of. -/
def remains (a b : Geometry K) : List (Position K) :=
  a.positions.filter (fun p => !b.hasPoint p) ++ edgeCrossings a b

theorem difference_eq {a b : Geometry K} (ha : a.isPolygonal = true) (hb : b.isPolygonal = true) :
    a.difference b = .ok (if !a.intersects b then some a
      else if b.contains a then none else Hull.polygon? (remains a b)) := by
  simp only [difference, requirePolygonal, ha, hb, if_true]
  cases a.intersects b <;> cases b.contains a <;> rfl

/-- The second operand is one convex ring, and the tolerance decides nothing: the vertices of the
first operand that count as points of the second one are in the ring, and edges that are not
parallel are far enough from it to cross. -/
structure ConvexCut (a b : Geometry K) (turn : K) (ring : Path K) : Prop where
  polygonal : a.isPolygonal = true
  formed : a.check = .ok ()
  formed' : b.check = .ok ()
  single : b.polygons = [[ring]]
  convex : Path.Convex turn ring.opened
  exact : ∀ v ∈ a.positions, b.hasPoint v = true → Path.Within turn ring.opened v
  steep : ∀ s ∈ a.segments, ∀ t ∈ b.segments, Segment.slant s.1 s.2 t.1 t.2 ≠ 0 →
    Segment.tolerance ≤ |Segment.slant s.1 s.2 t.1 t.2|

namespace ConvexCut

open Segment

variable {a b : Geometry K} {turn : K} {ring : Path K} (cut : ConvexCut a b turn ring)
include cut

theorem polygonal' : b.isPolygonal = true := by
  have single := cut.single
  cases b <;> simp_all [polygons, isPolygonal, kind, GeometryKind.isPolygonal]

theorem hasPoint_of_within (inside : Path.Within turn ring.opened p) : b.hasPoint p = true := by
  have reached := cut.convex.side_ne_outside inside
  rw [hasPoint_polygonal cut.polygonal', cut.single]
  cases side : ring.side p <;> simp_all [polygonHasPoint]

/-- A crossing of an edge of the first operand with one of the ring is among the remains. -/
theorem crossing_remains {s : Position K × Position K} (hs : s ∈ a.segments)
    {e : Position K × Position K} (he : e ∈ Path.cyclicPairs ring.opened) (onS : On x s.1 s.2)
    (onE : On x e.1 e.2) (apart : orientation e.1 e.2 s.1 ≠ orientation e.1 e.2 s.2) :
    ∃ c ∈ remains a b, x.sameXY c = true := by
  have ringsFormed := ringsFormed_polygonal cut.polygonal' cut.formed' [ring] (by simp [cut.single])
  obtain ⟨long, closed⟩ := ringsFormed.2 ring List.mem_cons_self
  obtain ⟨t, ht, first, second⟩ := Path.exists_segment_of_edge long closed he
  have mem : t ∈ b.segments := by
    rw [segments_polygonal cut.polygonal', cut.single]
    simpa using ht
  rw [Position.sameXY_comm] at first second
  have same : orientation e.1 e.2 = orientation t.1 t.2 := by
    obtain ⟨x₁, y₁⟩ := Position.sameXY_iff.mp first
    obtain ⟨x₂, y₂⟩ := Position.sameXY_iff.mp second
    funext z
    rw [orientation, orientation, x₁, y₁, x₂, y₂]
  rw [same, ← sub_ne_zero, ← slant_eq] at apart
  obtain ⟨c, found, there⟩ := crossing?_of_on onS (onE.congr first second)
    (cut.steep s hs t mem apart)
  refine ⟨c, List.mem_append_right _ ?_, there⟩
  exact List.mem_flatMap.mpr ⟨s, hs, List.mem_filterMap.mpr ⟨t, mem, found⟩⟩

/-- What an edge of the first operand has beyond all the remains is in the ring. -/
theorem within_of_beyond {f : Position K → K} (affine : Affine f)
    (behind : ∀ q ∈ remains a b, f q ≤ 0) {s : Position K × Position K} (hs : s ∈ a.segments)
    (on : On x s.1 s.2) (beyond : 0 < f x) : Path.Within turn ring.opened x := by
  by_contra outside
  -- an end beyond the remains is a vertex that was dropped
  have dropped {v : Position K} (mem : v ∈ a.positions) (hv : 0 < f v) :
      Path.Within turn ring.opened v := by
    refine cut.exact v mem ?_
    by_contra kept
    exact hv.not_ge (behind v (List.mem_append_left _ (List.mem_filter.mpr ⟨mem, by simp [kept]⟩)))
  have leaves {v : Position K} (onS : On v s.1 s.2) (inside : Path.Within turn ring.opened v)
      (hv : 0 < f v) : False := by
    obtain ⟨e, he, out, c, onWay, onEdge⟩ := cut.convex.exists_exit inside outside
    have apart : orientation e.1 e.2 s.1 ≠ orientation e.1 e.2 s.2 := by
      intro level
      have high := (affine_orientation e.1 e.2).le_of_on onS le_rfl level.le
      have low := (affine_orientation e.1 e.2).ge_of_on onS le_rfl level.ge
      have high' := (affine_orientation e.1 e.2).le_of_on on le_rfl level.le
      have low' := (affine_orientation e.1 e.2).ge_of_on on le_rfl level.ge
      have equal : orientation e.1 e.2 v = orientation e.1 e.2 x := by linarith
      have start := inside e he
      rw [equal] at start
      exact out.not_ge start
    obtain ⟨c', mem, same⟩ := cut.crossing_remains hs he (onS.trans on onWay) onEdge apart
    have low := affine.le_of_on onWay (min_le_left (f v) (f x)) (min_le_right (f v) (f x))
    have met := behind c' mem
    rw [← affine.congr same] at met
    exact (lt_min hv beyond).not_ge (low.trans met)
  obtain ⟨first, second⟩ := ends_of_segment a hs
  rcases lt_or_ge 0 (f s.1) with hv | hv
  · exact leaves (On.left _ _) (dropped first hv) hv
  · rcases lt_or_ge 0 (f s.2) with hw | hw
    · exact leaves (On.right _ _) (dropped second hw) hw
    · exact beyond.not_ge (affine.ge_of_on on hv hw)

/-- A point is in the ring when a line through it has edges in the ring on both sides of it. -/
theorem within_of_chord (here : a.hasPoint p = true)
    (clear : ∀ s ∈ a.segments, Segment.hasPoint p s.1 s.2 = false) (dx dy : K)
    (direction : dx ≠ 0 ∨ dy ≠ 0)
    (reach : ∀ s ∈ a.segments, ∀ x, On x s.1 s.2 → ∀ k, k ≠ 0 → x.x = p.x + k * dx →
      x.y = p.y + k * dy → Path.Within turn ring.opened x) : Path.Within turn ring.opened p := by
  have ahead (r : K) (hr : r ≠ 0) : ∃ x k, 0 < k ∧ x.x = p.x + k * (r * dx) ∧
      x.y = p.y + k * (r * dy) ∧ Path.Within turn ring.opened x := by
    have apart : p.sameXY ⟨p.x + r * dx, p.y + r * dy, none⟩ = false := by
      rw [← Bool.not_eq_true, Position.sameXY_iff]
      rintro ⟨hx, hy⟩
      simp only [left_eq_add, mul_eq_zero, hr, false_or] at hx hy
      exact direction.elim (· hx) (· hy)
    obtain ⟨s, hs, x, on, k, low, hx, hy⟩ :=
      exists_segment_ahead cut.polygonal cut.formed here clear apart
    simp only [add_sub_cancel_left] at hx hy
    have off : k ≠ 0 := by
      rintro rfl
      have same : x.sameXY p = true := Position.sameXY_iff.mpr ⟨by simpa using hx, by simpa using hy⟩
      have near := hasPoint_of_on on
      have moved : Segment.hasPoint x s.1 s.2 = Segment.hasPoint p s.1 s.2 := by
        obtain ⟨_, _, _⟩ := x
        obtain ⟨_, _, _⟩ := p
        obtain ⟨rfl, rfl⟩ := Position.sameXY_iff.mp same
        rfl
      rw [moved, clear s hs] at near
      contradiction
    exact ⟨x, k, low.lt_of_ne' off, hx, hy, reach s hs x on (k * r) (mul_ne_zero off hr)
      (by rw [hx, mul_assoc]) (by rw [hy, mul_assoc])⟩
  obtain ⟨x, k, hk, hx, hy, insideX⟩ := ahead 1 one_ne_zero
  obtain ⟨y, l, hl, hx', hy', insideY⟩ := ahead (-1) (neg_ne_zero.mpr one_ne_zero)
  have total : k + l ≠ 0 := (add_pos hk hl).ne'
  refine insideX.of_on insideY ⟨k / (k + l), div_nonneg hk.le (add_pos hk hl).le,
    (div_le_one (add_pos hk hl)).mpr (by linarith), ?_, ?_⟩
  · rw [hx, hx']
    field_simp
    ring
  · rw [hy, hy']
    field_simp
    ring

/-- No line separates a point of what is left from the remains. -/
theorem not_separated (here : a.hasPoint p = true) (away : b.hasPoint p = false)
    (clear : ∀ s ∈ a.segments, Segment.hasPoint p s.1 s.2 = false) {u v w : K}
    (direction : u ≠ 0 ∨ v ≠ 0) : ¬((∀ q ∈ remains a b, u * q.x + v * q.y ≤ w) ∧
      w < u * p.x + v * p.y ∨
        (∀ q ∈ remains a b, u * q.x + v * q.y = w) ∧ u * p.x + v * p.y = w) := by
  intro separated
  have out : ¬Path.Within turn ring.opened p := by
    intro inside
    rw [cut.hasPoint_of_within inside] at away
    contradiction
  have affine (r : K) : Affine fun z : Position K => r * (u * z.x + v * z.y - w) :=
    ⟨r * u, r * v, -r * w, fun z => by ring⟩
  rcases separated with ⟨behind, beyond⟩ | ⟨level, on⟩
  · -- along the separating line
    refine out (cut.within_of_chord here clear (-v) u
      (direction.symm.imp_left neg_ne_zero.mpr) fun s hs x onS k _ hx hy => ?_)
    refine cut.within_of_beyond (affine 1) (fun q mem => by linarith [behind q mem]) hs onS ?_
    rw [hx, hy]
    linarith
  · -- across the line that has all the remains and the point
    refine out (cut.within_of_chord here clear u v direction fun s hs x onS k off hx hy => ?_)
    have norm : 0 < u * u + v * v := by
      rcases direction with hu | hv
      · exact add_pos_of_pos_of_nonneg (mul_self_pos.mpr hu) (mul_self_nonneg v)
      · exact add_pos_of_nonneg_of_pos (mul_self_nonneg u) (mul_self_pos.mpr hv)
    refine cut.within_of_beyond (affine k) (fun q mem => by simp [level q mem]) hs onS ?_
    have height : k * (u * x.x + v * x.y - w) = k * k * (u * u + v * v) := by
      rw [hx, hy, ← on]
      ring
    rw [height]
    exact mul_pos (mul_self_pos.mpr off) norm

theorem not_contains (here : a.hasPoint p = true) (away : b.hasPoint p = false)
    (clear : ∀ s ∈ a.segments, Segment.hasPoint p s.1 s.2 = false) : b.contains a = false := by
  rw [← Bool.not_eq_true]
  intro inside
  obtain ⟨_, _, _, _, _, every⟩ := contains_iff.mp inside
  have within : Path.Within turn ring.opened p := by
    refine cut.within_of_chord here clear 1 0 (.inl one_ne_zero)
      fun s hs x on _ _ _ _ => ?_
    obtain ⟨first, second⟩ := ends_of_segment a hs
    exact (cut.exact s.1 first (every s.1 first)).of_on (cut.exact s.2 second (every s.2 second)) on
  rw [cut.hasPoint_of_within within] at away
  contradiction

end ConvexCut

/-- The difference from one convex ring covers what the first operand has outside of the ring: each
such point away from its edges is in the result, which is there; and so is each such point on an
edge, if there is a result. -/
theorem difference_covers {a b : Geometry K} {turn : K} {ring : Path K}
    (cut : ConvexCut a b turn ring) {p : Position K} (here : a.hasPoint p = true)
    (away : b.hasPoint p = false) :
    ((∀ s ∈ a.segments, Segment.hasPoint p s.1 s.2 = false) →
      ∃ g, a.difference b = .ok (some g) ∧ g.hasPoint p = true) ∧
    ((∃ s ∈ a.segments, Segment.On p s.1 s.2) →
      ∀ g, a.difference b = .ok (some g) → g.hasPoint p = true) := by
  rw [difference_eq cut.polygonal cut.polygonal']
  constructor
  · intro clear
    rw [cut.not_contains here away clear]
    cases a.intersects b with
    | false => exact ⟨a, rfl, here⟩
    | true =>
      by_contra uncovered
      obtain ⟨u, v, w, direction, separated⟩ := Hull.separated_of_uncovered (remains a b) p
        fun g found => by
          rw [← Bool.not_eq_true]
          exact fun inside => uncovered ⟨g, congrArg Except.ok found, inside⟩
      exact cut.not_separated here away clear direction (separated.imp_right And.right)
  · rintro ⟨s, hs, on⟩ g result
    cases meet : a.intersects b with
    | false =>
      rw [meet] at result
      obtain rfl : a = g := by simpa using result
      exact here
    | true =>
      rw [meet] at result
      cases inside : b.contains a with
      | true => simp [inside] at result
      | false =>
        have found : Hull.polygon? (remains a b) = some g := by simpa [inside] using result
        rw [← Bool.not_eq_false]
        intro uncovered
        obtain ⟨u, v, w, _, ⟨behind, beyond⟩ | ⟨hullless, _⟩⟩ :=
          Hull.separated_of_uncovered (remains a b) p fun g' found' => by
            obtain rfl := Option.some.inj (found.symm.trans found')
            exact uncovered
        · have within := cut.within_of_beyond (f := fun z => u * z.x + v * z.y - w)
            ⟨u, v, -w, fun z => by ring⟩ (fun q mem => by linarith [behind q mem]) hs on
            (by linarith)
          rw [cut.hasPoint_of_within within] at away
          contradiction
        · rw [hullless] at found
          contradiction

section Notch

/-- A closed triangle at the origin. -/
def corner (size : ℝ) : Path ℝ := [⟨0, 0, none⟩, ⟨size, 0, none⟩, ⟨0, size, none⟩, ⟨0, 0, none⟩]

/-- A closed triangle at the origin with a notch. -/
def notched (size : ℝ) : Path ℝ :=
  [⟨0, 0, none⟩, ⟨size, 0, none⟩, ⟨1, 1, none⟩, ⟨0, size, none⟩, ⟨0, 0, none⟩]

theorem opened_corner (size : ℝ) :
    Path.opened (corner size) = [⟨0, 0, none⟩, ⟨size, 0, none⟩, ⟨0, size, none⟩] :=
  Path.opened_eq_dropLast le_rfl (Position.sameXY_self _)

theorem opened_notched (size : ℝ) : Path.opened (notched size) =
    [⟨0, 0, none⟩, ⟨size, 0, none⟩, ⟨1, 1, none⟩, ⟨0, size, none⟩] :=
  Path.opened_eq_dropLast (by simp [notched]) (Position.sameXY_self _)

theorem check_single {ring : Path ℝ} (long : 4 ≤ ring.length) (closed : ring.endsMeet = true) :
    (Geometry.polygon [ring]).check = .ok () := by
  refine (check_eq_ok _).mpr (.polygon ⟨nofun, fun r hr => ?_⟩)
  obtain rfl := List.mem_singleton.mp hr
  exact ⟨long, closed⟩

theorem convex_corner {size : ℝ} (positive : 0 < size) :
    Path.Convex 1 (Path.opened (corner size)) := by
  rw [opened_corner]
  refine Path.convex_triangle ?_
  simp [Segment.orientation, positive]

theorem within_corner {size : ℝ} (positive : 0 < size) (q : Position ℝ) (hx : 0 ≤ q.x) (hy : 0 ≤ q.y)
    (sum : q.x + q.y ≤ size) : Path.Within 1 (Path.opened (corner size)) q := by
  rw [opened_corner]
  intro e mem
  simp only [Path.cyclicPairs_three, List.mem_cons, List.not_mem_nil, or_false] at mem
  rcases mem with rfl | rfl | rfl <;> simp only [Segment.orientation, one_mul] <;> nlinarith

/-- A point that is off the lines of all edges lies where the crossings say. -/
theorem side_notched {size : ℝ} {p : Position ℝ} (off : ∀ e ∈ Path.cyclicPairs
    [⟨0, 0, none⟩, ⟨size, 0, none⟩, ⟨1, 1, none⟩, ⟨0, size, none⟩],
      |e.2.x - e.1.x| ≤ 8 ∧ |e.2.y - e.1.y| ≤ 8 ∧ 1 ≤ |Segment.orientation e.1 e.2 p|) :
    Path.side (notched size) p = if ((Path.cyclicPairs
      [⟨0, 0, none⟩, ⟨size, 0, none⟩, ⟨1, 1, none⟩, ⟨0, size, none⟩]).countP
        fun e => Path.rayCrosses p e.2 e.1) % 2 = 1 then .inside else .outside := by
  have clear : ((Path.cyclicPairs [⟨0, 0, none⟩, ⟨size, 0, none⟩, ⟨1, 1, none⟩,
      ⟨0, size, none⟩]).any fun e => Segment.hasPoint p e.2 e.1) = false := by
    rw [List.any_eq_false]
    intro e mem
    obtain ⟨wide, tall, far⟩ := off e mem
    rw [Segment.hasPoint_comm, Bool.not_eq_true]
    refine Segment.not_hasPoint_of_far wide tall (by norm_num) ?_
    rw [Segment.tolerance_eq]
    linarith
  unfold Path.side
  rw [opened_notched]
  simp [clear]

/-- The notch lies beside the notched triangle, which has all vertices of the plain one. -/
theorem difference_misses_notch :
    (let a : Geometry ℝ := .polygon [corner 4]
    let b : Geometry ℝ := .polygon [notched 4]
    let p : Position ℝ := ⟨3 / 2, 3 / 2, none⟩
    a.isPolygonal = true ∧ b.isPolygonal = true ∧ a.check = .ok () ∧ b.check = .ok () ∧
      a.hasPoint p = true ∧ b.hasPoint p = false ∧ a.difference b = .ok none) ∧
    let a : Geometry Float :=
      .polygon [[⟨0, 0, none⟩, ⟨4, 0, none⟩, ⟨0, 4, none⟩, ⟨0, 0, none⟩]]
    let b : Geometry Float :=
      .polygon [[⟨0, 0, none⟩, ⟨4, 0, none⟩, ⟨1, 1, none⟩, ⟨0, 4, none⟩, ⟨0, 0, none⟩]]
    let p : Position Float := ⟨1.5, 1.5, none⟩
    a.hasPoint p = true ∧ b.hasPoint p = false ∧
      (a.difference b).toOption.map Option.isSome = some false := by
  refine ⟨?_, by decide +kernel⟩
  intro a b p
  have formed : a.check = .ok () := check_single le_rfl (Position.sameXY_self _)
  have formed' : b.check = .ok () := check_single (by simp [notched]) (Position.sameXY_self _)
  have part : a.positions ⊆ b.positions := by
    simp [a, b, positions, corner, notched]
  have inside : b.contains a = true := by
    rw [contains_eq (not_overhang_of_subset part), Bool.and_eq_true, List.all_eq_true]
    exact ⟨by simp [a, positions, corner], fun v mem => hasPoint_of_mem b
      ((check_eq_ok b).mp formed') (.polygon le_rfl) (part mem)⟩
  have meet : a.intersects b = true := by
    rw [intersects_comm]
    exact intersects_of_contains inside
  refine ⟨rfl, rfl, formed, formed', ?_, ?_, ?_⟩
  · have reached := (convex_corner (four_pos : (0 : ℝ) < 4)).side_ne_outside
      (within_corner (by norm_num) p (by norm_num [p]) (by norm_num [p]) (by norm_num [p]))
    change polygonHasPoint [corner 4] p = true
    cases side : Path.side (corner 4) p <;> simp_all [polygonHasPoint]
  · have outside : Path.side (notched 4) p = .outside := by
      rw [side_notched (fun e mem => ?_)]
      · norm_num [Path.cyclicPairs_four, Path.rayCrosses, p]
      · simp only [Path.cyclicPairs_four, List.mem_cons, List.not_mem_nil, or_false] at mem
        rcases mem with rfl | rfl | rfl | rfl <;> norm_num [Segment.orientation, p]
    change polygonHasPoint [notched 4] p = false
    rw [polygonHasPoint, outside]
  · rw [difference_eq rfl rfl, meet, inside]
    rfl

theorem not_hasPoint_corner {q : Position ℝ} (far : 5 ≤ q.x ∨ 5 ≤ q.y) :
    (Geometry.polygon [corner 4]).hasPoint q = false := by
  rw [← Bool.not_eq_true]
  intro inside
  have near := near_of_hasPoint _ inside ⟨0, 0, 4, 4, none, none⟩ fun v mem => by
    rw [Bounds.containsPosition_iff]
    simp only [positions, corner, List.flatten_singleton, List.mem_cons, List.not_mem_nil,
      or_false] at mem
    rcases mem with rfl | rfl | rfl | rfl <;> norm_num
  obtain ⟨_, right, _, high⟩ := Bounds.containsPosition_iff.mp near
  simp only [Bounds.expand, Segment.tolerance_eq] at right high
  rcases far with far | far <;> linarith

theorem convexCut_notched :
    ConvexCut (.polygon [notched 8]) (.polygon [corner 4]) 1 (corner 4) := by
  constructor
  · rfl
  · exact check_single (by simp [notched]) (Position.sameXY_self _)
  · exact check_single le_rfl (Position.sameXY_self _)
  · rfl
  · exact convex_corner (by norm_num)
  · intro v mem inside
    simp only [positions, notched, List.flatten_singleton, List.mem_cons, List.not_mem_nil,
      or_false] at mem
    rcases mem with rfl | rfl | rfl | rfl | rfl
    · exact within_corner (by norm_num) _ (by norm_num) (by norm_num) (by norm_num)
    · rw [not_hasPoint_corner (by norm_num)] at inside
      contradiction
    · exact within_corner (by norm_num) _ (by norm_num) (by norm_num) (by norm_num)
    · rw [not_hasPoint_corner (by norm_num)] at inside
      contradiction
    · exact within_corner (by norm_num) _ (by norm_num) (by norm_num) (by norm_num)
  · intro s hs t ht
    simp only [segments, notched, corner, Path.pairs, List.flatMap_cons, List.flatMap_nil,
      List.tail_cons, List.zip_cons_cons, List.zip_nil_right, List.append_nil, List.mem_cons,
      List.not_mem_nil, or_false] at hs ht
    rcases hs with rfl | rfl | rfl | rfl <;> rcases ht with rfl | rfl | rfl <;>
      norm_num [Segment.slant, Segment.tolerance_eq]

/-- A position on an edge of the notched triangle. -/
theorem hasPoint_notched {q : Position ℝ} {e : Position ℝ × Position ℝ} (mem : e ∈ Path.cyclicPairs
    [⟨0, 0, none⟩, ⟨8, 0, none⟩, ⟨1, 1, none⟩, ⟨0, 8, none⟩]) (on : Segment.On q e.1 e.2) :
    (Geometry.polygon [notched 8]).hasPoint q = true := by
  have boundary : Path.side (notched 8) q = .boundary := by
    rw [← opened_notched] at mem
    exact Path.side_of_on (by simp [opened_notched]) mem on
  change polygonHasPoint [notched 8] q = true
  rw [polygonHasPoint, boundary]

/-- Beside a triangle, the tip of a notched triangle that is twice its size. -/
theorem difference_covers_notched :
    let a : Geometry ℝ := .polygon [notched 8]
    let b : Geometry ℝ := .polygon [corner 4]
    let p : Position ℝ := ⟨6, 1 / 8, none⟩
    ConvexCut a b 1 (corner 4) ∧ a.hasPoint p = true ∧ b.hasPoint p = false ∧
      (∀ s ∈ a.segments, Segment.hasPoint p s.1 s.2 = false) ∧
      (∃ g, a.difference b = .ok (some g) ∧ g.hasPoint p = true) ∧
      (∃ s ∈ a.segments, Segment.On (⟨6, 0, none⟩ : Position ℝ) s.1 s.2) ∧
      ∀ g, a.difference b = .ok (some g) → g.hasPoint (⟨6, 0, none⟩ : Position ℝ) = true := by
  intro a b p
  have off : ∀ e ∈ Path.cyclicPairs
      [(⟨0, 0, none⟩ : Position ℝ), ⟨8, 0, none⟩, ⟨1, 1, none⟩, ⟨0, 8, none⟩],
      |e.2.x - e.1.x| ≤ 8 ∧ |e.2.y - e.1.y| ≤ 8 ∧ 1 ≤ |Segment.orientation e.1 e.2 p| := by
    intro e mem
    simp only [Path.cyclicPairs_four, List.mem_cons, List.not_mem_nil, or_false] at mem
    rcases mem with rfl | rfl | rfl | rfl <;> norm_num [Segment.orientation, p]
  have here : a.hasPoint p = true := by
    have inside : Path.side (notched 8) p = .inside := by
      rw [side_notched off]
      norm_num [Path.cyclicPairs_four, Path.rayCrosses, p]
    change polygonHasPoint [notched 8] p = true
    rw [polygonHasPoint, inside]
    rfl
  have away : b.hasPoint p = false := not_hasPoint_corner (.inl (by norm_num [p]))
  have clear : ∀ s ∈ a.segments, Segment.hasPoint p s.1 s.2 = false := by
    intro s hs
    have edge : s ∈ Path.cyclicPairs
        [(⟨0, 0, none⟩ : Position ℝ), ⟨8, 0, none⟩, ⟨1, 1, none⟩, ⟨0, 8, none⟩] := by
      simpa [a, segments, notched, Path.pairs, Path.cyclicPairs] using hs
    obtain ⟨wide, tall, far⟩ := off s edge
    refine Segment.not_hasPoint_of_far wide tall (by norm_num) ?_
    rw [Segment.tolerance_eq]
    linarith
  have base : ((⟨0, 0, none⟩, ⟨8, 0, none⟩) : Position ℝ × Position ℝ) ∈ a.segments := by
    simp [a, segments, notched, Path.pairs]
  have on : Segment.On (⟨6, 0, none⟩ : Position ℝ) ⟨0, 0, none⟩ ⟨8, 0, none⟩ :=
    ⟨3 / 4, by norm_num, by norm_num, by norm_num, by norm_num⟩
  have reached := hasPoint_notched (e := (⟨0, 0, none⟩, ⟨8, 0, none⟩))
    (by simp [Path.cyclicPairs_four]) on
  exact ⟨convexCut_notched, here, away, clear,
    (difference_covers convexCut_notched here away).1 clear, ⟨_, base, on⟩,
    (difference_covers convexCut_notched reached (not_hasPoint_corner (by norm_num))).2
      ⟨_, base, on⟩⟩

end Notch

end Geometry
end Geospatial
