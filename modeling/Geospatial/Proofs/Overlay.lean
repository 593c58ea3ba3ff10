import Geospatial.Proofs.Overlay.Difference

/-! The union and the intersection of two polygonal geometries, in exact arithmetic. Taken the other
way round, they gather the same places in another order, and the hull depends on the places alone. -/
namespace Geospatial

theorem Hull.polygon?_congr {K : Type} [Exact K] {points points' : Path K}
    (same : ∀ p, p ∈ points ↔ p ∈ points') : polygon? points = polygon? points' := by
  have rings : ring? points = ring? points' := ring?_congr fun p => by simp only [List.mem_map, same]
  rw [polygon?, polygon?, rings]

namespace Geometry

variable {K : Type} [Euclidean K] {a b : Geometry K}

theorem mem_edgeCrossings {c : Position K} : c ∈ edgeCrossings a b ↔ ∃ s ∈ a.segments,
    ∃ t ∈ b.segments, Segment.crossing? s.1 s.2 t.1 t.2 = some c := by
  simp only [edgeCrossings, List.mem_flatMap, List.mem_filterMap]

theorem mem_edgeCrossings_comm {c : Position K} : c ∈ edgeCrossings a b ↔ c ∈ edgeCrossings b a := by
  have turned {a b : Geometry K} (mem : c ∈ edgeCrossings a b) : c ∈ edgeCrossings b a := by
    obtain ⟨s, hs, t, ht, found⟩ := mem_edgeCrossings.mp mem
    exact mem_edgeCrossings.mpr ⟨t, ht, s, hs, Segment.crossing?_swap found⟩
  exact ⟨turned, turned⟩

/-- The points that the hull of an intersection is made of. -/
def shared (a b : Geometry K) : List (Position K) :=
  a.positions.filter (fun p => b.hasPoint p) ++ b.positions.filter (fun p => a.hasPoint p) ++
    edgeCrossings a b

theorem mem_shared_comm {p : Position K} : p ∈ shared a b ↔ p ∈ shared b a := by
  simp only [shared, List.mem_append, mem_edgeCrossings_comm (a := a)]
  rw [or_comm (a := p ∈ List.filter _ a.positions)]

theorem intersection_eq (ha : a.isPolygonal = true) (hb : b.isPolygonal = true) :
    a.intersection b = .ok (if !a.intersects b then none else Hull.polygon? (shared a b)) := by
  simp only [intersection, requirePolygonal, ha, hb, if_true]
  cases a.intersects b <;> rfl

theorem union_eq (ha : a.isPolygonal = true) (hb : b.isPolygonal = true)
    (meet : a.intersects b = true) :
    a.union b = .ok (Hull.polygon? (a.positions ++ b.positions)) := by
  simp only [union, requirePolygonal, ha, hb, if_true, meet]
  rfl

/-- The intersection of polygonal geometries is the same in either order, vertex by vertex, and so is
the union of two that meet. -/
theorem overlay_comm (ha : a.isPolygonal = true) (hb : b.isPolygonal = true) :
    (∃ result, a.intersection b = .ok result ∧ b.intersection a = .ok result) ∧
    (a.intersects b = true → ∃ result, a.union b = .ok result ∧ b.union a = .ok result) := by
  constructor
  · refine ⟨_, intersection_eq ha hb, ?_⟩
    rw [intersection_eq hb ha, intersects_comm b a,
      Hull.polygon?_congr fun p => (mem_shared_comm (p := p) (a := a) (b := b)).symm]
  · intro meet
    refine ⟨_, union_eq ha hb meet, ?_⟩
    rw [union_eq hb ha (intersects_comm a b ▸ meet),
      Hull.polygon?_congr fun p => List.perm_append_comm.mem_iff]

/-- Two triangles that share a corner, of which one has a notch. -/
theorem overlay_comm_notched :
    let a : Geometry ℝ := .polygon [corner 4]
    let b : Geometry ℝ := .polygon [notched 8]
    a.isPolygonal = true ∧ b.isPolygonal = true ∧ a.intersects b = true ∧
      (∃ result, a.intersection b = .ok result ∧ b.intersection a = .ok result) ∧
      ∃ result, a.union b = .ok result ∧ b.union a = .ok result := by
  intro a b
  let origin : Position ℝ := ⟨0, 0, none⟩
  have here : origin ∈ a.positions := by simp [a, origin, positions, corner]
  have there : origin ∈ b.positions := by simp [b, origin, positions, notched]
  have formed : b.check = .ok () := check_single (by simp [notched]) (Position.sameXY_self _)
  have inside : b.hasPoint origin = true :=
    hasPoint_of_mem b ((check_eq_ok b).mp formed) (.polygon le_rfl) there
  have vertex : someVertexIn a b = true := List.any_eq_true.mpr ⟨origin, here, inside⟩
  have meet : a.intersects b = true := by
    rw [intersects_eq (not_nearMiss_of_mem here there), vertex, Bool.true_or, Bool.true_or]
  have laws := overlay_comm (a := a) (b := b) rfl rfl
  exact ⟨rfl, rfl, meet, laws.1, laws.2 meet⟩

end Geometry
end Geospatial
