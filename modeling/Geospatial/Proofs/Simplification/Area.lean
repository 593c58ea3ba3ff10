import Geospatial.Proofs.Simplification.Corner

/-! Lines without small triangles. In exact arithmetic, the vertex that is taken out has the least
triangle of all, so that no small triangle is left when the least one is large enough. -/
namespace Geospatial.Path

section

variable {K : Type} [Exact K] {points rest : Path K} {minArea area : K} {i : ℕ}

/-- Of the vertices between two others, the one that makes the least triangle with its neighbors is
taken out, because that triangle is less than `minArea`. -/
def CutsLeast (minArea : K) (points rest : Path K) : Prop :=
  ∃ i a b c, Corner points i a b c ∧ triangleArea a b c < minArea ∧
    (∀ j x y z, Corner points j x y z → triangleArea a b c ≤ triangleArea x y z) ∧
    rest = points.eraseIdx (i + 1)

theorem CutsLeast.thinned (cuts : CutsLeast minArea points rest) : points.Thinned rest := by
  obtain ⟨i, a, b, c, corner, -, -, rfl⟩ := cuts
  exact thinned_eraseIdx corner.inside

theorem CutsLeast.length_lt (cuts : CutsLeast minArea points rest) :
    rest.length < points.length := by
  obtain ⟨i, a, b, c, corner, -, -, rfl⟩ := cuts
  exact corner.length_eraseIdx_lt

theorem triangleAreas_eq (points : Path K) :
    triangleAreas points = (corners points).map fun t => triangleArea t.1 t.2.1 t.2.2 :=
  eq_map_corners (fun _ _ _ _ => rfl) (fun | [], _ | [_], _ | [_, _], _ => rfl) points

theorem mem_zipIdx_triangleAreas : (area, i) ∈ (triangleAreas points).zipIdx ↔
    ∃ a b c, Corner points i a b c ∧ triangleArea a b c = area := by
  rw [List.mem_zipIdx_iff_getElem?, triangleAreas_eq]
  exact getElem?_map_corners

variable [Scalar.LawfulTotalOrder K]

theorem dropLeastTriangle?_spec (minArea : K) (points : Path K) :
    (∃ rest, dropLeastTriangle? minArea points = some rest ∧ CutsLeast minArea points rest) ∨
      dropLeastTriangle? minArea points = none ∧
        ∀ i a b c, Corner points i a b c → minArea ≤ triangleArea a b c := by
  cases found : Order.least? (Order.on (·.1) Scalar.totalOrder) (triangleAreas points).zipIdx with
  | none =>
    refine .inr ⟨by rw [dropLeastTriangle?, found]; rfl, fun i a b c corner => ?_⟩
    have here := mem_zipIdx_triangleAreas.mpr ⟨a, b, c, corner, rfl⟩
    rw [Order.least?_eq_none.mp found] at here
    contradiction
  | some least =>
    obtain ⟨area, i⟩ := least
    have step : dropLeastTriangle? minArea points =
        if area < minArea then some (points.eraseIdx (i + 1)) else none := by
      rw [dropLeastTriangle?, found]
      rfl
    rw [Scalar.totalOrder_eq_order] at found
    obtain ⟨here, atMost⟩ := Scalar.least?_by_key (fun _ => le_rfl) found
    obtain ⟨a, b, c, corner, rfl⟩ := mem_zipIdx_triangleAreas.mp here
    have least (j x y z) (other : Corner points j x y z) :
        triangleArea a b c ≤ triangleArea x y z :=
      atMost _ (mem_zipIdx_triangleAreas.mpr ⟨x, y, z, other, rfl⟩)
    -- The least triangle speaks for all others, whatever earlier steps have done to them.
    by_cases small : triangleArea a b c < minArea
    · exact .inl ⟨_, step.trans (if_pos small), i, a, b, c, corner, small, least, rfl⟩
    · refine .inr ⟨step.trans (if_neg small), fun j x y z other => ?_⟩
      exact (not_lt.mp small).trans (least j x y z other)

end

theorem triangleArea_eq {K : Type} [Euclidean K] (a b c : Position K) : triangleArea a b c =
    |(b.x - a.x) * (c.y - a.y) - (c.x - a.x) * (b.y - a.y)| / 2 := by
  rw [triangleArea, Euclidean.abs_eq]

/-- What is left of a line has been reached by cutting off the least triangle as long as it was less
than `minArea`. It is some of the vertices in their order with both ends, every vertex between two
others makes a triangle of `minArea` or more with them, and a second time nothing is cut off. -/
theorem simplifyByArea_leaves_large {K : Type} [Euclidean K] [Scalar.LawfulTotalOrder K]
    (points : Path K) (minArea : K) :
    ∃ rest, points.simplifyByArea minArea = rest ∧
      rest.Sublist points ∧ rest.head? = points.head? ∧ rest.getLast? = points.getLast? ∧
      (∀ i a b c, Corner rest i a b c →
        minArea ≤ |(b.x - a.x) * (c.y - a.y) - (c.x - a.x) * (b.y - a.y)| / 2) ∧
      rest.simplifyByArea minArea = rest ∧
      Relation.ReflTransGen (CutsLeast minArea) points rest := by
  obtain ⟨steps, large, again⟩ :=
    Order.shrink_settles (dropLeastTriangle?_spec minArea) CutsLeast.length_lt points
  have thinned := thinned_of_steps CutsLeast.thinned steps
  refine ⟨_, rfl, thinned.sublist, thinned.head, thinned.last, ?_, again, steps⟩
  intro i a b c corner
  rw [← triangleArea_eq]
  exact large i a b c corner

/-- Where `minArea` is infinite, no tip is large enough. -/
theorem simplifyByArea_leaves_large_infinite :
    Scalar.LawfulTotalOrder Hyperreal ∧
      simplifyByArea [⟨0, 0, none⟩, ⟨2, 1, none⟩, ⟨4, 0, none⟩] Hyperreal.omega =
        [⟨0, 0, none⟩, ⟨4, 0, none⟩] := by
  refine ⟨inferInstance, ?_⟩
  obtain ⟨rest, result, sublist, head, last, large, -⟩ := simplifyByArea_leaves_large
    [⟨0, 0, none⟩, ⟨2, 1, none⟩, ⟨4, 0, none⟩] Hyperreal.omega
  rw [result]
  rcases Thinned.of_three (by simp) ⟨sublist, head, last⟩ with rfl | cut
  · have tip := large 0 _ _ _ ⟨rfl, rfl, rfl⟩
    have less : (2 : Hyperreal) < Hyperreal.omega := mod_cast Hyperreal.coe_lt_omega 2
    norm_num at tip
    exact absurd less tip.not_gt
  · exact cut

end Geospatial.Path
