import Mathlib.Algebra.Order.Field.Basic
import Mathlib.Data.List.Perm.Basic
import Mathlib.Tactic.FieldSimp
import Geospatial.Proofs.Measure.Rebuild
import Geospatial.Proofs.Measure.Rings
import Geospatial.Proofs.Ring.Symmetry

/-! Measures of reversed and of moved geometries, in exact arithmetic. The least box over some
positions, heights included, is that of the positions in any order, and it moves along with them. No
measure depends on the sense of the parts: of the sums that are taken along a sequence, those over
its positions and segments have the same terms in another order, and those over the edges of a ring
turn the sign, which the absolute area and the mean place do not show. When a geometry is moved,
each sum of places grows by the step times its weight, and each mean of places by the step. -/
namespace Geospatial

namespace Exact

variable {K : Type} [Exact K]

theorem min_right_comm (a b c : K) :
    Scalar.min (Scalar.min a b) c = Scalar.min (Scalar.min a c) b := by
  simp only [Scalar.min, isNaN_eq_false, Bool.or_false, decide_eq_true_eq]
  grind

theorem max_right_comm (a b c : K) :
    Scalar.max (Scalar.max a b) c = Scalar.max (Scalar.max a c) b := by
  simp only [Scalar.max, isNaN_eq_false, Bool.or_false, decide_eq_true_eq]
  grind

end Exact

namespace Bounds

section Heights

variable {K : Type} {f : K → K → K}

theorem mergeHeights_comm (comm : ∀ a b, f a b = f b a) (a b : Option K) :
    mergeHeights f a b = mergeHeights f b a := by
  cases a <;> cases b <;> simp only [mergeHeights, comm]

theorem mergeHeights_right_comm (comm : ∀ a b, f a b = f b a)
    (right_comm : ∀ a b c, f (f a b) c = f (f a c) b) (a b c : Option K) :
    mergeHeights f (mergeHeights f a b) c = mergeHeights f (mergeHeights f a c) b := by
  cases a <;> cases b <;> cases c <;> simp only [mergeHeights]
  · rw [comm]
  · rw [right_comm]

end Heights

variable {K : Type} [Exact K]

theorem union_comm (a b : Bounds K) : a.union b = b.union a := by
  simp only [union, Exact.min_comm a.minX, Exact.min_comm a.minY, Exact.max_comm a.maxX,
    Exact.max_comm a.maxY, mergeHeights_comm Exact.min_comm a.minZ,
    mergeHeights_comm Exact.max_comm a.maxZ]

theorem union_right_comm (a b c : Bounds K) : (a.union b).union c = (a.union c).union b := by
  simp only [union, Exact.min_right_comm _ b.minX, Exact.min_right_comm _ b.minY,
    Exact.max_right_comm _ b.maxX, Exact.max_right_comm _ b.maxY,
    mergeHeights_right_comm Exact.min_comm Exact.min_right_comm _ b.minZ,
    mergeHeights_right_comm Exact.max_comm Exact.max_right_comm _ b.maxZ]

instance : RightCommutative (extend : Bounds K → Position K → Bounds K) where
  right_comm b p q := union_right_comm b (ofPosition p) (ofPosition q)

theorem ofPositions?_perm {ps qs : List (Position K)} (perm : ps.Perm qs) :
    ofPositions? ps = ofPositions? qs := by
  induction perm with
  | nil => rfl
  | cons p perm => exact congrArg some (perm.foldl_eq _)
  | swap p q ps =>
    rw [ofPositions?, ofPositions?, List.foldl_cons, List.foldl_cons, extend, union_comm]
    rfl
  | trans _ _ first second => exact first.trans second

/-- The box after a step in the plane. -/
def moved (dx dy : K) (b : Bounds K) : Bounds K :=
  { b with minX := b.minX + dx, minY := b.minY + dy, maxX := b.maxX + dx, maxY := b.maxY + dy }

theorem ofPosition_moved (dx dy : K) (p : Position K) :
    ofPosition (p.moved dx dy) = (ofPosition p).moved dx dy := rfl

theorem extend_moved (dx dy : K) (b : Bounds K) (p : Position K) :
    (b.moved dx dy).extend (p.moved dx dy) = (b.extend p).moved dx dy := by
  simp only [extend, union, moved, ofPosition, Position.moved, Exact.min_add_right,
    Exact.max_add_right]

theorem ofPositions?_moved (dx dy : K) (ps : List (Position K)) :
    ofPositions? (ps.map (Position.moved dx dy)) = (ofPositions? ps).map (moved dx dy) := by
  cases ps with
  | nil => rfl
  | cons p ps =>
    rw [List.map_cons, ofPositions?, List.foldl_map, ofPosition_moved, ofPositions?, Option.map_some]
    exact congrArg some (List.foldl_hom (moved dx dy) (extend_moved dx dy))

end Bounds

section Reversed

variable {K : Type} [Euclidean K]

theorem Path.planarLength_reverse (path : Path K) :
    planarLength path.reverse = path.planarLength := by
  rw [planarLength, planarLength, Exact.sum_eq, Exact.sum_eq, pairs_reverse, List.map_reverse,
    List.sum_reverse, List.map_map]
  exact congrArg List.sum (List.map_congr_left fun s _ => Position.distance_comm s.2 s.1)

namespace Geometry

namespace Moments

instance : RightCommutative (addPoint : Moments K → Position K → Moments K) where
  right_comm m p q := by
    simp only [addPoint, add_right_comm]

instance : RightCommutative (addSegment : Moments K → Position K × Position K → Moments K) where
  right_comm m s t := by
    simp only [addSegment, add_right_comm]

theorem addSegment_swap (m : Moments K) (s : Position K × Position K) :
    m.addSegment s.swap = m.addSegment s := by
  simp only [addSegment, Prod.fst_swap, Prod.snd_swap, Position.distance_comm s.2, add_comm s.2.x,
    add_comm s.2.y]

theorem addPath_reverse (m : Moments K) (path : Path K) : m.addPath path.reverse = m.addPath path := by
  have segments : (Path.pairs path.reverse).foldl addSegment m =
      (Path.pairs path).foldl addSegment m := by
    rw [Path.pairs_reverse, (List.reverse_perm _).foldl_eq, List.foldl_map]
    simp only [addSegment_swap]
  rw [addPath, addPath, segments, (List.reverse_perm path).foldl_eq]

theorem addRing_reverse (m : Moments K) (ring : Path K) (sign : K) :
    m.addRing ring.reverse sign = m.addRing ring sign := by
  by_cases flat : ring.signedArea = 0
  · rw [addRing_of_flat m flat, addRing_of_flat m (by rw [Path.signedArea_reverse, flat, neg_zero])]
  · rw [addRing_of_area m flat, addRing_of_area m (by rwa [Path.signedArea_reverse, neg_ne_zero])]
    simp only [Path.signedArea_reverse, Path.moment_reverse, Euclidean.abs_eq, abs_neg, mul_neg,
      neg_div_neg_eq]

theorem shifts_reverse : Shifts id List.reverse (id : Moments K → Moments K) where
  point _ _ := rfl
  points m ps := (List.reverse_perm ps).foldl_eq m
  path := addPath_reverse
  ring := addRing_reverse

end Moments

/-- The reversed geometry has each path of the geometry reversed. Reversal undoes itself, and the
area, the length, the box with its heights and the centroid of any geometry are those of the reversed
one. The area of a ring turns its sign with the ring; it does not depend on where the ring starts,
nor on whether it is closed. -/
theorem reverse_keeps_measures : (∀ g : Geometry K,
      g.reverse.kind = g.kind ∧ g.reverse.paths = g.paths.map List.reverse ∧
        g.reverse.reverse = g ∧ g.reverse.area = g.area ∧ g.reverse.length = g.length ∧
        g.reverse.bounds? = g.bounds? ∧ g.reverse.centroid? = g.centroid?) ∧
    ∀ ring : Path K, Path.signedArea ring.reverse = -ring.signedArea ∧
      (∀ k, Path.signedArea (ring.rotate k) = ring.signedArea) ∧
      ring.close.signedArea = ring.signedArea := by
  refine ⟨fun g => ?_, fun ring => ⟨Path.signedArea_reverse ring, Path.signedArea_rotate ring,
    Path.signedArea_close ring⟩⟩
  simp only [reverse_eq_rebuild]
  refine ⟨kind_rebuild g, paths_rebuild (fun _ => rfl) g,
    rebuild_leftInverse (fun _ => rfl) List.reverse_reverse g, area_rebuild (fun ring => ?_) g,
    totalLength_rebuild Path.planarLength_reverse g, ?_, ?_⟩
  · rw [Path.signedArea_reverse, Euclidean.abs_eq, Euclidean.abs_eq, abs_neg]
  · have perm : (g.paths.map List.reverse).flatten.Perm g.paths.flatten :=
      .flatten_congr <| List.forall₂_map_left_iff.mpr <|
        List.forall₂_same.mpr fun path _ => List.reverse_perm path
    have same : (g.rebuild id List.reverse).positions = (g.paths.map List.reverse).flatten :=
      positions_rebuild (fun _ => rfl) g
    rw [← same, ← positions_eq_flatten] at perm
    exact Bounds.ofPositions?_perm perm
  · exact congrArg Moments.center? (Moments.shifts_reverse.add Moments.zero g)

end Geometry

end Reversed

section Moved

variable {K : Type} [Euclidean K]

theorem Position.distance_moved (dx dy : K) (p q : Position K) :
    (p.moved dx dy).distance (q.moved dx dy) = p.distance q := by
  simp only [distance, moved, add_sub_add_right_eq_sub]

theorem Path.planarLength_moved (dx dy : K) (path : Path K) :
    planarLength (path.map (Position.moved dx dy)) = path.planarLength := by
  rw [planarLength, pairs_map, List.map_map]
  exact congrArg Scalar.sum
    (List.map_congr_left fun s _ => Position.distance_moved dx dy s.1 s.2)

namespace Geometry

/-- The geometry with a step in the plane added to every position. -/
def moved (dx dy : K) (g : Geometry K) : Geometry K :=
  g.rebuild (Position.moved dx dy) (List.map (Position.moved dx dy))

namespace Moments

/-- The sums of a geometry that has been moved: places have gained the step as often as their
weights say. -/
def moved (dx dy : K) (m : Moments K) : Moments K :=
  { m with
    areaX := m.areaX + m.area * dx
    areaY := m.areaY + m.area * dy
    lengthX := m.lengthX + m.length * dx
    lengthY := m.lengthY + m.length * dy
    sumX := m.sumX + m.count * dx
    sumY := m.sumY + m.count * dy }

section Shifted

variable (dx dy : K) (m : Moments K)

theorem addPoint_moved (p : Position K) :
    (m.moved dx dy).addPoint (p.moved dx dy) = (m.addPoint p).moved dx dy := by
  simp only [addPoint, moved, Position.moved, Moments.mk.injEq, Nat.cast_succ, true_and]
  exact ⟨by ring, by ring⟩

theorem addSegment_moved (s : Position K × Position K) :
    (m.moved dx dy).addSegment (s.1.moved dx dy, s.2.moved dx dy) =
      (m.addSegment s).moved dx dy := by
  simp only [addSegment, moved, Position.distance_moved, Moments.mk.injEq, true_and, and_true]
  simp only [Position.moved]
  refine ⟨by ring, by ring⟩

theorem addPath_moved (path : Path K) :
    (m.moved dx dy).addPath (path.map (Position.moved dx dy)) = (m.addPath path).moved dx dy := by
  rw [addPath, addPath, Path.pairs_map, List.foldl_map, List.foldl_map,
    List.foldl_hom (moved dx dy) fun m s => addSegment_moved dx dy m s]
  exact List.foldl_hom (moved dx dy) fun m p => addPoint_moved dx dy m p

theorem addRing_moved (ring : Path K) (sign : K) :
    (m.moved dx dy).addRing (ring.map (Position.moved dx dy)) sign =
      (m.addRing ring sign).moved dx dy := by
  have same := Path.signedArea_moved dx dy ring
  by_cases flat : ring.signedArea = 0
  · rw [addRing_of_flat m flat, addRing_of_flat _ (same.trans flat)]
  · rw [addRing_of_area m flat, addRing_of_area _ (same ▸ flat)]
    simp only [same, Path.moment_x_moved, Path.moment_y_moved, moved, Moments.mk.injEq, true_and,
      and_true]
    refine ⟨?_, ?_⟩ <;> field_simp <;> ring

theorem shifts_moved : Shifts (Position.moved dx dy) (List.map (Position.moved dx dy))
    (moved dx dy : Moments K → Moments K) where
  point := addPoint_moved dx dy
  points m ps := by
    rw [List.foldl_map]
    exact List.foldl_hom (moved dx dy) (addPoint_moved dx dy)
  path := addPath_moved dx dy
  ring := addRing_moved dx dy

theorem mean_moved {F : Type} [Field F] {w : F} (weight : w ≠ 0) (sum d : F) :
    (sum + w * d) / w = sum / w + d := by
  rw [add_div, mul_div_cancel_left₀ d weight]

theorem leastArea_nonneg : (0 : K) ≤ leastArea := div_nonneg zero_le_one (Nat.cast_nonneg _)

theorem center?_moved : (m.moved dx dy).center? = m.center?.map (Position.moved dx dy) := by
  by_cases area : leastArea < Scalar.abs m.area
  · have weight : m.area ≠ 0 := by
      rw [Euclidean.abs_eq] at area
      exact abs_pos.mp (leastArea_nonneg.trans_lt area)
    simp only [center?, moved, area, if_true, mean_moved weight, Option.map_some, Position.moved]
  · by_cases length : 0 < m.length
    · simp only [center?, moved, area, length, if_false, if_true, mean_moved length.ne',
        Option.map_some, Position.moved]
    · by_cases count : 0 < m.count
      · have weight : (m.count : K) ≠ 0 := Nat.cast_ne_zero.mpr count.ne'
        simp only [center?, moved, area, length, count, if_false, if_true, mean_moved weight,
          Option.map_some, Position.moved]
      · simp only [center?, moved, area, length, count, if_false, Option.map_none]

end Shifted

/-- Each of `n` positions is counted, and without positions nothing changes. -/
structure Adds (n : ℕ) (m m' : Moments K) : Prop where
  count : m'.count = m.count + n
  nothing : n = 0 → m' = m

omit [Euclidean K] in
theorem Adds.trans {n k : ℕ} {m m' m'' : Moments K} (first : Adds n m m') (second : Adds k m' m'') :
    Adds (n + k) m m'' where
  count := by rw [second.count, first.count, Nat.add_assoc]
  nothing empty := by
    obtain ⟨hn, hk⟩ := Nat.add_eq_zero_iff.mp empty
    rw [second.nothing hk, first.nothing hn]

omit [Euclidean K] in
theorem adds_foldl {α : Type} {step : Moments K → α → Moments K} {size : α → ℕ}
    (each : ∀ m x, Adds (size x) m (step m x)) (m : Moments K) (xs : List α) :
    Adds (xs.map size).sum m (xs.foldl step m) := by
  induction xs generalizing m with
  | nil => exact ⟨rfl, fun _ => rfl⟩
  | cons x xs ih =>
    rw [List.map_cons, List.sum_cons]
    exact (each m x).trans (ih (step m x))

theorem adds_points (m : Moments K) (ps : List (Position K)) :
    Adds ps.length m (ps.foldl addPoint m) := by
  have each (m : Moments K) (p : Position K) : Adds 1 m (m.addPoint p) := ⟨rfl, nofun⟩
  simpa using adds_foldl each m ps

theorem count_segments (m : Moments K) (ss : List (Position K × Position K)) :
    (ss.foldl addSegment m).count = m.count := by
  induction ss generalizing m with
  | nil => rfl
  | cons s ss ih => rw [List.foldl_cons, ih, addSegment]

theorem adds_path (m : Moments K) (path : Path K) : Adds path.length m (m.addPath path) where
  count := by rw [addPath, (adds_points ..).count, count_segments]
  nothing empty := by
    rw [List.length_eq_zero_iff.mp empty]
    rfl

theorem adds_ring (m : Moments K) (ring : Path K) (sign : K) :
    Adds ring.length m ((m.addRing ring sign).addPath ring) where
  count := by
    rw [(adds_path ..).count]
    by_cases flat : ring.signedArea = 0
    · rw [addRing_of_flat m flat]
    · rw [addRing_of_area m flat]
  nothing empty := by
    obtain rfl := List.length_eq_zero_iff.mp empty
    rw [addRing_of_flat m (if_pos (by simp))]
    rfl

theorem adds_polygon (m : Moments K) (rings : List (Path K)) :
    Adds (rings.map List.length).sum m (m.addPolygon rings) := by
  cases rings with
  | nil => exact ⟨rfl, fun _ => rfl⟩
  | cons exterior holes =>
    rw [List.map_cons, List.sum_cons]
    exact (adds_ring m exterior 1).trans (adds_foldl (fun m hole => adds_ring m hole (-1)) _ holes)

mutual

theorem adds_positions (m : Moments K) (g : Geometry K) : Adds g.positions.length m (m.add g) := by
  cases g with
  | point p => exact ⟨rfl, nofun⟩
  | multiPoint points => exact adds_points m points
  | lineString line => exact adds_path m line
  | multiLineString lines =>
    rw [positions, List.length_flatten]
    exact adds_foldl adds_path m lines
  | polygon rings =>
    rw [positions, List.length_flatten]
    exact adds_polygon m rings
  | multiPolygon ps =>
    have sizes : ps.flatten.flatten.length =
        (ps.map fun rings => (rings.map List.length).sum).sum := by
      simp [Function.comp_def]
    rw [positions, sizes]
    exact adds_foldl adds_polygon m ps
  | collection gs => exact adds_positionsOfAll m gs

theorem adds_positionsOfAll (m : Moments K) (gs : List (Geometry K)) :
    Adds (positionsOfAll gs).length m (m.addAll gs) := by
  cases gs with
  | nil => exact ⟨rfl, fun _ => rfl⟩
  | cons g gs =>
    rw [positionsOfAll, List.length_append]
    exact (adds_positions m g).trans (adds_positionsOfAll _ gs)

end

end Moments

/-- Any geometry with positions has a centroid. -/
theorem isSome_centroid? (g : Geometry K) : g.centroid?.isSome ↔ g.positions ≠ [] := by
  have adds := Moments.adds_positions Moments.zero g
  by_cases empty : g.positions = []
  · rw [centroid?, adds.nothing (by rw [empty]; rfl)]
    simp [Moments.center?, Moments.zero, Euclidean.abs_eq, Moments.leastArea_nonneg, empty]
  · have counted : 0 < (Moments.zero.add g).count := by
      rw [adds.count]
      exact Nat.add_pos_right _ (List.length_pos_iff.mpr empty)
    rw [centroid?, Moments.center?]
    split_ifs <;> simp [empty]

/-- Adding a step in the plane to every position of a geometry changes neither its area nor its
length, and moves its box and its centroid by that step, whatever the centroid is weighed by. The
geometries without positions are those that have no centroid, before and after. -/
theorem moved_keeps_measures (g : Geometry K) (dx dy : K) :
    (∀ E : Type, g.mapPositionsM (fun p => (pure (p.moved dx dy) : Except E (Position K))) =
      pure (g.moved dx dy)) ∧
    (g.moved dx dy).area = g.area ∧ (g.moved dx dy).length = g.length ∧
    (g.moved dx dy).bounds? = g.bounds?.map (Bounds.moved dx dy) ∧
    (g.moved dx dy).centroid? = g.centroid?.map (Position.moved dx dy) ∧
    (g.centroid?.isSome ↔ g.positions ≠ []) := by
  refine ⟨fun E => mapPositionsM_pure _ g, area_rebuild (fun ring => ?_) g,
    totalLength_rebuild (Path.planarLength_moved dx dy) g, ?_, ?_, isSome_centroid? g⟩
  · rw [Path.signedArea_moved]
  · have positions : (g.moved dx dy).positions = g.positions.map (Position.moved dx dy) := by
      rw [moved, positions_rebuild fun _ => rfl, positions_eq_flatten, List.map_flatten]
    rw [bounds?, positions, Bounds.ofPositions?_moved, bounds?]
  · have start : (Moments.zero : Moments K) = Moments.zero.moved dx dy := by
      simp [Moments.zero, Moments.moved]
    rw [centroid?, start, moved, (Moments.shifts_moved dx dy).add, Moments.center?_moved, centroid?]

end Geometry

end Moved

end Geospatial
