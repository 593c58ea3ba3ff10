import Mathlib.Data.List.Rotate
import Mathlib.Data.List.Zip
import Geospatial.Proofs.Ring.Convex
import Geospatial.Proofs.Scalar.Real

/-! Symmetries of the side of a ring, in exact arithmetic. Only the edges that a point is near to
and the number of those that pass it on its right matter: so the ring may start at any of its
vertices and run either way round, and it may be moved together with the point. The position that
closes a ring may have another height than the first one, so that a ring and its reverse need not
have the same vertices; but they have them at the same places, and nothing else counts. -/
namespace Geospatial

/-- The position after a step in the plane. -/
def Position.moved {K : Type} [Add K] (dx dy : K) (p : Position K) : Position K :=
  { p with x := p.x + dx, y := p.y + dy }

section

variable {K : Type} [Euclidean K] {p a b : Position K}

theorem Segment.orientation_moved (dx dy : K) (a b p : Position K) :
    orientation (a.moved dx dy) (b.moved dx dy) (p.moved dx dy) = orientation a b p := by
  simp only [orientation, Position.moved]
  ring

theorem Segment.hasPoint_moved (dx dy : K) (p a b : Position K) :
    hasPoint (p.moved dx dy) (a.moved dx dy) (b.moved dx dy) = hasPoint p a b := by
  have box : inBox (p.moved dx dy) (a.moved dx dy) (b.moved dx dy) = inBox p a b := by
    simp only [inBox, Position.moved, Exact.min_add_right, Exact.max_add_right,
      add_sub_right_comm _ _ tolerance, add_right_comm _ _ tolerance, add_le_add_iff_right]
  rw [hasPoint, hasPoint, orientation_moved, box]
  simp only [Position.moved, add_sub_add_right_eq_sub]

theorem Path.rayCrosses_moved (dx dy : K) (p a b : Position K) :
    rayCrosses (p.moved dx dy) (a.moved dx dy) (b.moved dx dy) = rayCrosses p a b := by
  simp only [rayCrosses, Position.moved, add_lt_add_iff_right, add_sub_add_right_eq_sub,
    ← add_assoc]

end

namespace Path

section

variable {α β : Type}

theorem cyclicPairs_eq_zip_rotate (l : List α) : cyclicPairs l = l.zip (l.rotate 1) := by
  cases l with
  | nil => rfl
  | cons a l => rw [List.rotate_cons_succ, List.rotate_zero]; rfl

theorem cyclicPairs_rotate (l : List α) (k : ℕ) :
    cyclicPairs (l.rotate k) = (cyclicPairs l).rotate k := by
  rw [cyclicPairs_eq_zip_rotate, cyclicPairs_eq_zip_rotate, List.rotate_rotate, Nat.add_comm k,
    ← List.rotate_rotate]
  exact (List.zipWith_rotate_distrib Prod.mk l (l.rotate 1) k (List.length_rotate l 1).symm).symm

theorem cyclicPairs_map (f : α → β) (l : List α) :
    cyclicPairs (l.map f) = (cyclicPairs l).map (Prod.map f f) := by
  rw [cyclicPairs_eq_zip_rotate, cyclicPairs_eq_zip_rotate, ← List.map_rotate, List.zip_map]

/-- Backward, each edge is walked from its second end to its first. -/
theorem cyclicPairs_reverse_perm (l : List α) :
    (cyclicPairs l.reverse).Perm ((cyclicPairs l).map Prod.swap) := by
  cases l with
  | nil => exact .nil
  | cons a t =>
    -- the start stays where it is, and the other vertices turn round
    have turned : (a :: t).reverse = (a :: t.reverse).rotate 1 := by
      rw [List.reverse_cons, List.rotate_cons_succ, List.rotate_zero]
    have backward : cyclicPairs (a :: t.reverse) = ((t ++ [a]).zip (a :: t)).reverse := by
      rw [List.zip, List.reverse_zipWith (by simp), List.reverse_concat, List.reverse_cons]
      rfl
    have forward : (cyclicPairs (a :: t)).map Prod.swap = (t ++ [a]).zip (a :: t) :=
      List.zip_swap (a :: t) (t ++ [a])
    rw [turned, cyclicPairs_rotate, backward, forward]
    exact (List.rotate_perm _ 1).trans (List.reverse_perm _)

end

section Loop

variable {K : Type} [Euclidean K] {v w : Path K} {p q : Position K}

theorem opened_closedCopy (v : Path K) : v.closedCopy.opened = v := by
  cases v with
  | nil => rfl
  | cons a t =>
    have meet := endsMeet_closedCopy (Position.sameXY_self a) t
    rw [opened, meet, Bool.and_true, if_pos (by simp [closedCopy]), closedCopy_cons,
      List.dropLast_concat]

/-- A change of the edges one by one, in any order, that keeps which of them are near the point and
which of them pass it. -/
theorem side_closedCopy_congr (size : w.length = v.length)
    {f : Position K × Position K → Position K × Position K}
    (edges : (cyclicPairs w).Perm ((cyclicPairs v).map f))
    (near : ∀ e, Segment.hasPoint q (f e).2 (f e).1 = Segment.hasPoint p e.2 e.1)
    (passes : ∀ e, rayCrosses q (f e).2 (f e).1 = rayCrosses p e.2 e.1) :
    w.closedCopy.side q = v.closedCopy.side p := by
  have any : ((cyclicPairs w).any fun e => Segment.hasPoint q e.2 e.1) =
      (cyclicPairs v).any fun e => Segment.hasPoint p e.2 e.1 := by
    rw [edges.any_eq, List.any_map]
    simp only [Function.comp_def, near]
  have count : ((cyclicPairs w).countP fun e => rayCrosses q e.2 e.1) =
      (cyclicPairs v).countP fun e => rayCrosses p e.2 e.1 := by
    rw [edges.countP_eq, List.countP_map]
    simp only [Function.comp_def, passes]
  simp only [side, opened_closedCopy, size, any, count]

theorem side_rotate (v : Path K) (k : ℕ) (p : Position K) :
    (closedCopy (v.rotate k)).side p = v.closedCopy.side p := by
  refine side_closedCopy_congr (List.length_rotate v k) (f := id) ?_ (fun _ => rfl) fun _ => rfl
  rw [cyclicPairs_rotate, List.map_id]
  exact List.rotate_perm _ k

theorem side_reverse (v : Path K) (p : Position K) :
    (closedCopy v.reverse).side p = v.closedCopy.side p :=
  side_closedCopy_congr List.length_reverse (cyclicPairs_reverse_perm v)
    (fun e => Segment.hasPoint_comm p e.1 e.2) fun e => rayCrosses_comm p e.1 e.2

theorem side_moved (v : Path K) (dx dy : K) (p : Position K) :
    (closedCopy (v.map (Position.moved dx dy))).side (p.moved dx dy) = v.closedCopy.side p :=
  side_closedCopy_congr (List.length_map _) (.of_eq (cyclicPairs_map _ v))
    (fun e => Segment.hasPoint_moved dx dy p e.2 e.1) fun e => rayCrosses_moved dx dy p e.2 e.1

/-- The same vertices in the same cyclic order, from another start or the other way round. -/
def SameLoop (v w : Path K) : Prop := v.IsRotated w ∨ v.reverse.IsRotated w

theorem SameLoop.side_eq (same : SameLoop v w) (p : Position K) :
    w.closedCopy.side p = v.closedCopy.side p := by
  rcases same with ⟨k, rfl⟩ | ⟨k, rfl⟩
  · exact side_rotate v k p
  · rw [side_rotate, side_reverse]

end Loop

section Closed

variable {K : Type} [Exact K] {ring : Path K} {p q : Position K}

theorem endsMeet_iff : ring.endsMeet = true ↔
    ∃ a ∈ ring.head?, ∃ z ∈ ring.getLast?, a.sameXY z = true := by
  cases head : ring.head? <;> cases last : ring.getLast? <;> simp [endsMeet, head, last]

theorem endsMeet_reverse (ring : Path K) : endsMeet ring.reverse = ring.endsMeet := by
  rw [Bool.eq_iff_iff, endsMeet_iff, endsMeet_iff, List.head?_reverse, List.getLast?_reverse]
  constructor
  · rintro ⟨z, hz, a, ha, same⟩
    exact ⟨a, ha, z, hz, by rwa [Position.sameXY_comm]⟩
  · rintro ⟨a, ha, z, hz, same⟩
    exact ⟨z, hz, a, ha, by rwa [Position.sameXY_comm]⟩

theorem close_of_endsMeet (closed : ring.endsMeet = true) : ring.close = ring := by
  obtain ⟨a, ha, z, hz, same⟩ := endsMeet_iff.mp closed
  rw [close, ha, hz]
  exact if_pos same

theorem endsMeet_close (filled : ring ≠ []) : ring.close.endsMeet = true := by
  obtain ⟨a, t, rfl⟩ := List.exists_cons_of_ne_nil filled
  obtain ⟨z, hz⟩ : ∃ z, (a :: t).getLast? = some z := ⟨_, List.getLast?_eq_getLast_of_ne_nil filled⟩
  rw [close, List.head?_cons, hz]
  simp only
  split
  · rename_i same
    exact endsMeet_iff.mpr ⟨a, rfl, z, hz, same⟩
  · exact endsMeet_iff.mpr ⟨a, rfl, a, List.getLast?_concat, Position.sameXY_self a⟩

/-- A closed ring of two positions or more ends where it starts. -/
theorem exists_ends (long : 2 ≤ ring.length) (closed : ring.endsMeet = true) :
    ∃ a t z, ring = a :: t ++ [z] ∧ a.sameXY z = true := by
  obtain ⟨a, ha, z, hz, same⟩ := endsMeet_iff.mp closed
  match ring, long, ha, hz with
  | a' :: b :: rest, _, ha, hz =>
    obtain rfl : a' = a := Option.some.inj ha
    refine ⟨a', (b :: rest).dropLast, z, ?_, same⟩
    rw [List.cons_append, List.dropLast_append_getLast? z (by rwa [List.getLast?_cons_cons] at hz)]

/-- Of the positions of a closed ring, the last one adds no place. -/
theorem any_opened {test : Position K → Bool}
    (respects : ∀ {p q}, p.sameXY q = true → test p = test q) (long : 2 ≤ ring.length)
    (closed : ring.endsMeet = true) : ring.opened.any test = ring.any test := by
  obtain ⟨a, t, z, rfl, same⟩ := exists_ends long closed
  rw [opened, closed, Bool.and_true, if_pos (decide_eq_true (Nat.lt_of_succ_le long)),
    List.dropLast_concat, List.any_append, List.any_cons, List.any_cons, List.any_nil,
    Bool.or_false, ← respects same]
  cases test a <;> simp

theorem opened_map_planar (ring : Path K) :
    opened (ring.map Position.planar) = ring.opened.map Position.planar := by
  have ends : endsMeet (ring.map Position.planar) = ring.endsMeet := by
    rw [endsMeet, endsMeet, List.head?_map, List.getLast?_map]
    cases ring.head? <;> cases ring.getLast? <;> rfl
  rw [opened, opened, ends, List.length_map]
  split
  · exact List.map_dropLast.symm
  · rfl

theorem side_map_planar (ring : Path K) (p : Position K) :
    side (ring.map Position.planar) p = ring.side p := by
  simp only [side, opened_map_planar, List.length_map, cyclicPairs_map, List.any_map,
    List.countP_map]
  rfl

theorem side_congr (same : p.sameXY q = true) : ring.side p = ring.side q := by
  obtain ⟨px, py, pz⟩ := p
  obtain ⟨qx, qy, qz⟩ := q
  obtain ⟨rfl, rfl⟩ := Position.sameXY_iff.mp same
  rfl

end Closed

theorem side_backward {K : Type} [Euclidean K] {ring : Path K} (long : 2 ≤ ring.length)
    (closed : ring.endsMeet = true) (p : Position K) : side ring.reverse p = ring.side p := by
  obtain ⟨a, t, z, rfl, same⟩ := exists_ends long closed
  have last : z.planar = a.planar := by
    rw [Position.planar_eq_iff]
    obtain ⟨hx, hy⟩ := Position.sameXY_iff.mp same
    exact ⟨hx.symm, hy.symm⟩
  -- without heights, the ring is a closed copy, and its reverse that of the loop run backward
  have forward : (a :: t ++ [z]).map Position.planar =
      closedCopy (a.planar :: t.map Position.planar) := by
    simp [closedCopy, last]
  have backward : (a :: t ++ [z]).reverse.map Position.planar =
      closedCopy (a.planar :: (t.map Position.planar).reverse) := by
    simp [closedCopy, last]
  have turned : (a.planar :: (t.map Position.planar).reverse).rotate 1 =
      (a.planar :: t.map Position.planar).reverse := by
    rw [List.rotate_cons_succ, List.rotate_zero, List.reverse_cons]
  calc side (a :: t ++ [z]).reverse p
      = side (closedCopy (a.planar :: (t.map Position.planar).reverse)) p := by
        rw [← side_map_planar, backward]
    _ = side (closedCopy (a.planar :: t.map Position.planar).reverse) p := by
        rw [← side_rotate _ 1, turned]
    _ = side (closedCopy (a.planar :: t.map Position.planar)) p := side_reverse _ p
    _ = side (a :: t ++ [z]) p := by rw [← side_map_planar (a :: t ++ [z]), forward]

end Path

open Geospatial.Path

/-- Nothing depends on where a closed ring starts and which way it runs, nor on the place of the
origin: neither the side of the ring on which a point lies, nor, for a polygon with such rings,
whether the point is in it. -/
theorem Geometry.polygon_hasPoint_symm {K : Type} [Euclidean K] (p : Position K) :
    (∀ v : Path K, (∀ k, (closedCopy (v.rotate k)).side p = v.closedCopy.side p) ∧
      (closedCopy v.reverse).side p = v.closedCopy.side p ∧
      ∀ dx dy, (closedCopy (v.map (Position.moved dx dy))).side (p.moved dx dy) =
        v.closedCopy.side p) ∧
    ∀ vs ws : List (Path K), List.Forall₂ SameLoop vs ws →
      (Geometry.polygon (ws.map closedCopy)).hasPoint p =
        (Geometry.polygon (vs.map closedCopy)).hasPoint p := by
  refine ⟨fun v => ⟨fun k => side_rotate v k p, side_reverse v p,
    fun dx dy => side_moved v dx dy p⟩, fun vs ws same => ?_⟩
  have holes {vs ws : List (Path K)} (same : List.Forall₂ SameLoop vs ws) :
      ((ws.map closedCopy).all fun h => h.side p != .inside) =
        (vs.map closedCopy).all fun h => h.side p != .inside := by
    induction same with
    | nil => rfl
    | cons first _ ih => simp only [List.map_cons, List.all_cons, first.side_eq p, ih]
  cases same with
  | nil => rfl
  | cons first rest =>
    simp only [hasPoint, polygonHasPoint, List.map_cons, first.side_eq p, holes rest]

/-- A shell that crosses itself, and a hole without area, from other starts and the shell the other
way round. -/
theorem Geometry.polygon_hasPoint_symm_bow :
    let shell : Path ℝ := [⟨0, 0, none⟩, ⟨4, 4, none⟩, ⟨4, 0, none⟩, ⟨0, 4, none⟩]
    let shell' : Path ℝ := [⟨4, 0, none⟩, ⟨4, 4, none⟩, ⟨0, 0, none⟩, ⟨0, 4, none⟩]
    let hole : Path ℝ := [⟨1, 2, none⟩, ⟨1, 3, none⟩]
    let hole' : Path ℝ := [⟨1, 3, none⟩, ⟨1, 2, none⟩]
    let p : Position ℝ := ⟨3, 2, none⟩
    List.Forall₂ SameLoop [shell, hole] [shell', hole'] ∧
      (Geometry.polygon [shell'.closedCopy, hole'.closedCopy]).hasPoint p =
        (Geometry.polygon [shell.closedCopy, hole.closedCopy]).hasPoint p := by
  intro shell shell' hole hole' p
  have same : List.Forall₂ SameLoop [shell, hole] [shell', hole'] :=
    .cons (.inr ⟨1, rfl⟩) (.cons (.inl ⟨1, rfl⟩) .nil)
  exact ⟨same, (Geometry.polygon_hasPoint_symm p).2 _ _ same⟩

end Geospatial
