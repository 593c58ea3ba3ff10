import Geospatial.Proofs.Ring.Convex

/-! What the hull of some points covers: every point that no line separates from them. -/
namespace Geospatial.Hull

open Geospatial.Path Segment

theorem infix_of_edge {α : Type} {a : α} {t : List α} {e : α × α} (mem : e ∈ cyclicPairs (a :: t)) :
    [e.1, e.2] <:+: a :: t ++ [a] := by
  obtain ⟨i, here⟩ := List.mem_iff_getElem?.mp mem
  obtain ⟨first, second⟩ := List.getElem?_zip_eq_some.mp here
  have inside := (List.getElem?_eq_some_iff.mp first).1
  have row : ((a :: t ++ [a]).drop i)[0]? = some e.1 ∧
      ((a :: t ++ [a]).drop i)[1]? = some e.2 := by
    simp only [List.getElem?_drop]
    exact ⟨by rwa [Nat.add_zero, List.getElem?_append_left inside], second⟩
  match rest : (a :: t ++ [a]).drop i, row with
  | x :: y :: tail, ⟨hx, hy⟩ =>
    obtain ⟨rfl, rfl⟩ : x = e.1 ∧ y = e.2 := by simpa using And.intro hx hy
    refine ⟨(a :: t ++ [a]).take i, tail, ?_⟩
    rw [List.append_assoc]
    exact (congrArg ((a :: t ++ [a]).take i ++ ·) rest.symm).trans (List.take_append_drop i _)

namespace IsHull

variable {K : Type} [Exact K] {points ring : Path K} {p : Position K}

/-- A hull goes from its first vertex through the others and back. -/
theorem exists_shape (hull : IsHull points ring) : ∃ a b c t, ring = a :: b :: c :: t ++ [a] ∧
    ring.opened = a :: b :: c :: t := by
  obtain ⟨closed, long, _⟩ := hull
  match ring, closed, long with
  | a :: b :: c :: d :: rest, closed, _ =>
    obtain ⟨t, z, shape⟩ : ∃ t z, d :: rest = t ++ [z] :=
      ⟨_, _, (List.dropLast_append_getLast (List.cons_ne_nil d rest)).symm⟩
    have whole : a :: b :: c :: d :: rest = a :: b :: c :: t ++ [z] := by
      rw [shape]
      rfl
    have last : (a :: b :: c :: t ++ [z]).getLast? = some z := List.getLast?_concat
    rw [whole, last] at closed
    obtain rfl : a = z := Option.some.inj closed
    have meet : endsMeet (a :: b :: c :: t ++ [a]) = true := by
      rw [endsMeet, last]
      exact Position.sameXY_self a
    refine ⟨a, b, c, t, whole, ?_⟩
    rw [whole, opened_eq_dropLast (by simp) meet, List.dropLast_concat]

theorem convex (hull : IsHull (points.map Position.planar) ring) : Convex 1 ring.opened := by
  obtain ⟨a, b, c, t, shape, vertices⟩ := hull.exists_shape
  have distinct := hull.distinct
  have turns := hull.turns
  rw [shape, List.dropLast_concat] at distinct
  have inner {v : Position K} (mem : v ∈ a :: b :: c :: t) : v ∈ points.map Position.planar :=
    hull.vertices v (by
      rw [shape]
      exact List.mem_append_left _ mem)
  have flat {v : Position K} (mem : v ∈ a :: b :: c :: t) : v.planar = v := by
    obtain ⟨q, _, rfl⟩ := List.mem_map.mp (inner mem)
    rfl
  rw [vertices]
  constructor
  · simp
  · refine distinct.imp_of_mem fun hv hw differ => ?_
    rw [← Bool.not_eq_true, Position.sameXY_iff, ← Position.planar_eq_iff, flat hv, flat hw]
    exact differ
  · intro x y z row
    rw [one_mul]
    refine turns x y z ?_
    rw [shape]
    simpa using row
  · intro e mem v hv
    rw [one_mul]
    refine hull.contains e.1 e.2 ?_ v (inner hv)
    rw [shape]
    exact infix_of_edge mem

/-- A point outside of a hull lies on the outer side of one of its edges. -/
theorem exists_edge_of_outside {K : Type} [Euclidean K] {points ring : Path K} {p : Position K}
    (hull : IsHull (points.map Position.planar) ring) (outside : ring.side p = .outside) :
    ∃ a b, [a, b] <:+: ring ∧ orientation a b p < 0 := by
  obtain ⟨a, b, c, t, shape, vertices⟩ := hull.exists_shape
  obtain ⟨e, mem, beyond⟩ := hull.convex.beyond_of_side outside
  rw [vertices] at mem
  rw [one_mul] at beyond
  refine ⟨e.1, e.2, ?_, beyond⟩
  rw [shape]
  exact infix_of_edge mem

end IsHull

variable {K : Type} [Euclidean K]

/-- A point that the hull does not cover is separated from the points by a line, or there is no
hull and the point is on the one line of all of them. -/
theorem separated_of_uncovered (points : Path K) (p : Position K)
    (uncovered : ∀ g, polygon? points = some g → g.hasPoint p = false) : ∃ u v w : K, (u ≠ 0 ∨ v ≠ 0) ∧
      ((∀ q ∈ points, u * q.x + v * q.y ≤ w) ∧ w < u * p.x + v * p.y ∨
        polygon? points = none ∧ (∀ q ∈ points, u * q.x + v * q.y = w) ∧
          u * p.x + v * p.y = w) := by
  cases found : ring? points with
  | none =>
    obtain ⟨u, v, w, direction, line⟩ := ring?_eq_none.mp found
    rcases lt_trichotomy (u * p.x + v * p.y) w with below | on | above
    · exact ⟨-u, -v, -w, direction.imp neg_ne_zero.mpr neg_ne_zero.mpr,
        .inl ⟨fun q mem => by linarith [line q mem], by linarith⟩⟩
    · exact ⟨u, v, w, direction, .inr ⟨by simp [polygon?, found], line, on⟩⟩
    · exact ⟨u, v, w, direction, .inl ⟨fun q mem => (line q mem).le, above⟩⟩
  | some ring =>
    have hull := isHull_of_ring? found
    have out := uncovered (.polygon [ring]) (by simp [polygon?, found])
    have outside : ring.side p = .outside := by
      cases side : ring.side p <;>
        simp [Geometry.hasPoint, Geometry.polygonHasPoint, side] at out ⊢
    obtain ⟨a, b, edge, beyond⟩ := hull.exists_edge_of_outside outside
    have value (q : Position K) : orientation a b q =
        a.x * b.y - a.y * b.x - ((b.y - a.y) * q.x + (a.x - b.x) * q.y) := by
      unfold orientation
      ring
    rw [value] at beyond
    refine ⟨b.y - a.y, a.x - b.x, a.x * b.y - a.y * b.x, ?_, .inl ⟨fun q mem => ?_, by linarith⟩⟩
    · by_contra same
      simp only [not_or, not_not] at same
      have flat : a.x * b.y - a.y * b.x = 0 := by
        linear_combination a.x * same.1 + a.y * same.2
      rw [same.1, same.2, flat] at beyond
      simp at beyond
    · have side := hull.contains a b edge q.planar (List.mem_map_of_mem mem)
      rw [value] at side
      simp only [Position.planar] at side
      linarith

end Geospatial.Hull
