import Mathlib.Algebra.Order.Field.Basic
import Mathlib.Tactic.LinearCombination
import Geospatial.Measure
import Geospatial.Proofs.Ring.Symmetry

/-! The area of a ring and its first moments, in exact arithmetic. Both are sums over the edges of
the ring, closed or not: the edge back to the start adds nothing where the ends meet, and the steps
of a value from vertex to vertex cancel out once round. So a ring may start anywhere, its area turns
the sign with its sense, and a shift of the ring shifts its first moments by the area. -/
namespace Geospatial.Path

variable {K : Type} [Exact K]

/-- Sum over the edges of a ring. -/
def edgeSum {α : Type} (f : α × α → K) (l : List α) : K := ((cyclicPairs l).map f).sum

section Sums

variable {α : Type}

theorem edgeSum_rotate (f : α × α → K) (l : List α) (k : ℕ) :
    edgeSum f (l.rotate k) = edgeSum f l := by
  rw [edgeSum, cyclicPairs_rotate]
  exact ((List.rotate_perm _ k).map f).sum_eq

theorem edgeSum_reverse (f : α × α → K) (l : List α) :
    edgeSum f l.reverse = edgeSum (fun e => f e.swap) l := by
  rw [edgeSum, ((cyclicPairs_reverse_perm l).map f).sum_eq, List.map_map]
  rfl

theorem edgeSum_map {β : Type} (f : α × α → K) (h : β → α) (l : List β) :
    edgeSum f (l.map h) = edgeSum (fun e => f (h e.1, h e.2)) l := by
  rw [edgeSum, cyclicPairs_map, List.map_map]
  rfl

theorem edgeSum_add (f g : α × α → K) (l : List α) :
    edgeSum (fun e => f e + g e) l = edgeSum f l + edgeSum g l :=
  List.sum_map_add

theorem edgeSum_mul_left (c : K) (f : α × α → K) (l : List α) :
    edgeSum (fun e => c * f e) l = c * edgeSum f l :=
  List.sum_map_mul_left ..

theorem edgeSum_neg (f : α × α → K) (l : List α) :
    edgeSum (fun e => -f e) l = -edgeSum f l := by
  simpa only [neg_one_mul] using edgeSum_mul_left (-1) f l

/-- Once round a ring, a value is back where it was. -/
theorem edgeSum_step (value : α → K) (l : List α) :
    edgeSum (fun e => value e.2 - value e.1) l = 0 := by
  have firsts : edgeSum (fun e => value e.1) l = (l.map value).sum := by
    have ends : (cyclicPairs l).map Prod.fst = l := by
      rw [cyclicPairs_eq_zip_rotate, List.map_fst_zip (List.length_rotate l 1).ge]
    rw [edgeSum, ← Function.comp_def, ← List.map_map, ends]
  have seconds : edgeSum (fun e => value e.2) l = (l.map value).sum := by
    have ends : (cyclicPairs l).map Prod.snd = l.rotate 1 := by
      rw [cyclicPairs_eq_zip_rotate, List.map_snd_zip (List.length_rotate l 1).le]
    rw [edgeSum, ← Function.comp_def, ← List.map_map, ends]
    exact ((List.rotate_perm l 1).map value).sum_eq
  simp only [sub_eq_add_neg, edgeSum_add, edgeSum_neg, firsts, seconds, add_neg_cancel]

/-- The edge from the repeated start to the start is the only one that a closed copy has more. -/
theorem edgeSum_concat (f : α × α → K) (a : α) (t : List α) :
    edgeSum f (a :: t ++ [a]) = edgeSum f (a :: t) + f (a, a) := by
  have edges : cyclicPairs (a :: t ++ [a]) = cyclicPairs (a :: t) ++ [(a, a)] :=
    List.zip_append (show (a :: t).length = (t ++ [a]).length by simp)
  rw [edgeSum, edges, List.map_append, List.sum_append]
  simp [edgeSum]

end Sums

theorem cross_self (a : Position K) : cross a a = 0 := sub_self _

theorem cross_swap (a b : Position K) : cross b a = -cross a b := by
  simp only [cross, neg_sub]

/-- Twice the area of a ring. -/
def crossSum (ring : Path K) : K := edgeSum (fun e => cross e.1 e.2) ring

/-- Fewer than three positions enclose nothing by the sum, either. -/
theorem signedArea_eq (ring : Path K) : ring.signedArea = ring.crossSum / 2 := by
  rw [signedArea]
  split
  · have flat : ring.crossSum = 0 := by
      match ring with
      | [] => rfl
      | [a] => simp [crossSum, edgeSum, cyclicPairs, cross_self]
      | [a, b] => simp [crossSum, edgeSum, cyclicPairs, cross_swap a b]
    rw [flat, zero_div]
  · rw [Exact.sum_eq]
    rfl

theorem crossSum_eq (ring : Path K) : ring.crossSum = 2 * ring.signedArea := by
  rw [signedArea_eq]
  ring

theorem signedArea_reverse (ring : Path K) : signedArea ring.reverse = -ring.signedArea := by
  rw [signedArea_eq, signedArea_eq, crossSum, edgeSum_reverse, ← neg_div]
  congr 1
  rw [crossSum, ← edgeSum_neg]
  congr 1
  exact funext fun e => cross_swap e.1 e.2

theorem signedArea_rotate (ring : Path K) (k : ℕ) :
    signedArea (ring.rotate k) = ring.signedArea := by
  rw [signedArea_eq, signedArea_eq, crossSum, edgeSum_rotate, crossSum]

theorem signedArea_close (ring : Path K) : ring.close.signedArea = ring.signedArea := by
  cases ring with
  | nil => rfl
  | cons a t =>
    rw [close]
    split
    · rename_i first last here there
      obtain rfl := Option.some.inj here
      split
      · rfl
      · rw [signedArea_eq, signedArea_eq, crossSum, edgeSum_concat, cross_self, add_zero, crossSum]
    · rfl

/-- Sum over the edges of a ring, weighed by the area that each edge adds: six times the area times
the mean of a coordinate. -/
def moment (coordinate : Position K → K) (ring : Path K) : K :=
  edgeSum (fun e => (coordinate e.1 + coordinate e.2) * cross e.1 e.2) ring

theorem moment_reverse (coordinate : Position K → K) (ring : Path K) :
    moment coordinate ring.reverse = -moment coordinate ring := by
  rw [moment, edgeSum_reverse, moment, ← edgeSum_neg]
  congr 1
  funext e
  rw [Prod.fst_swap, Prod.snd_swap, cross_swap]
  ring

variable (dx dy : K) (ring : Path K)

/-- What a shift adds to the cross product of an edge is a step of this value along the edge. -/
def sweep (dx dy : K) (p : Position K) : K := dx * p.y - dy * p.x

theorem cross_moved (a b : Position K) : cross (a.moved dx dy) (b.moved dx dy) =
    cross a b + (sweep dx dy b - sweep dx dy a) := by
  simp only [cross, sweep, Position.moved]
  ring

theorem crossSum_moved : crossSum (ring.map (Position.moved dx dy)) = ring.crossSum := by
  rw [crossSum, edgeSum_map]
  simp only [cross_moved, edgeSum_add, edgeSum_step, add_zero]
  rfl

theorem signedArea_moved :
    signedArea (ring.map (Position.moved dx dy)) = ring.signedArea := by
  rw [signedArea_eq, signedArea_eq, crossSum_moved]

theorem moment_moved {coordinate : Position K → K} {shift : K}
    (moves : ∀ p, coordinate (p.moved dx dy) = coordinate p + shift)
    (turns : ∀ a b, coordinate a * sweep dx dy b - coordinate b * sweep dx dy a =
      shift * cross a b) :
    moment coordinate (ring.map (Position.moved dx dy)) =
      moment coordinate ring + 6 * shift * ring.signedArea := by
  have edge (e : Position K × Position K) :
      (coordinate (e.1.moved dx dy) + coordinate (e.2.moved dx dy)) *
          cross (e.1.moved dx dy) (e.2.moved dx dy) =
        (coordinate e.1 + coordinate e.2) * cross e.1 e.2 + 3 * shift * cross e.1 e.2 +
          ((coordinate e.2 + 2 * shift) * sweep dx dy e.2 -
            (coordinate e.1 + 2 * shift) * sweep dx dy e.1) := by
    rw [moves, moves, cross_moved]
    linear_combination turns e.1 e.2
  have area := crossSum_eq ring
  rw [crossSum] at area
  rw [moment, edgeSum_map]
  simp only [edge, edgeSum_add, edgeSum_mul_left, area,
    edgeSum_step fun p => (coordinate p + 2 * shift) * sweep dx dy p, moment]
  ring

theorem moment_x_moved : moment (·.x) (ring.map (Position.moved dx dy)) =
    moment (·.x) ring + 6 * dx * ring.signedArea := by
  refine moment_moved dx dy ring (fun p => rfl) fun a b => ?_
  simp only [sweep, cross]
  ring

theorem moment_y_moved : moment (·.y) (ring.map (Position.moved dx dy)) =
    moment (·.y) ring + 6 * dy * ring.signedArea := by
  refine moment_moved dx dy ring (fun p => rfl) fun a b => ?_
  simp only [sweep, cross]
  ring

end Geospatial.Path

namespace Geospatial.Geometry.Moments

variable {K : Type} [Exact K]

theorem addRing_of_flat (m : Moments K) {ring : Path K} (flat : ring.signedArea = 0) (sign : K) :
    m.addRing ring sign = m := by
  rw [addRing, if_pos ((Exact.beq_iff_eq _ _).mpr flat)]

theorem addRing_of_area (m : Moments K) {ring : Path K} (area : ring.signedArea ≠ 0) (sign : K) :
    m.addRing ring sign = { m with
      area := m.area + Scalar.abs ring.signedArea * sign
      areaX := m.areaX + Scalar.abs ring.signedArea * sign * ring.moment (·.x) /
        (6 * ring.signedArea)
      areaY := m.areaY + Scalar.abs ring.signedArea * sign * ring.moment (·.y) /
        (6 * ring.signedArea) } := by
  rw [addRing, if_neg fun flat => area ((Exact.beq_iff_eq _ _).mp flat)]
  simp only [Exact.sum_eq]
  rfl

end Geospatial.Geometry.Moments
