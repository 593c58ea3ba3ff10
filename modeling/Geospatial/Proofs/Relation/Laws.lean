import Geospatial.Relation
import Geospatial.Proofs.Geometry.Equality

/-! Laws of the relations between two geometries, whatever their coordinates are. Intersection
looks at the vertices of either geometry in the other one and at all pairs of their segments, so
that it is symmetric; what is defined through it and through containment on both sides is symmetric,
too. Each relation but disjointness needs a common point, so it never holds between geometries whose
boxes are apart. -/
namespace Geospatial

variable {K : Type} [Scalar K]

theorem Segment.intersects_comm (a₁ a₂ b₁ b₂ : Position K) :
    intersects a₁ a₂ b₁ b₂ = intersects b₁ b₂ a₁ a₂ := by
  unfold intersects
  dsimp only
  rw [Bool.and_comm (opposite _ _)]
  ac_rfl

namespace Geometry

section Boxes

variable {a b : Geometry K} {box : Bounds K}

theorem boxes_meet_of_intersects (has : b.bounds? = some box) (meet : a.intersects b = true) :
    a.bounds?.any (·.intersects box) = true := by
  simp only [intersects, Bool.and_eq_true, Bool.not_eq_true', boundsApart, has] at meet
  cases own : a.bounds? with
  | none => simp [own] at meet
  | some x => simpa [own] using meet.1

theorem contains_iff : a.contains b = true ↔ ∃ x box, a.bounds? = some x ∧ b.bounds? = some box ∧
    x.contains box = true ∧ ∀ p ∈ b.positions, a.hasPoint p = true := by
  rw [contains]
  cases a.bounds? <;> cases b.bounds? <;> simp

variable [Scalar.LawfulOrder K]

theorem boxes_meet_of_contains (has : b.bounds? = some box) (inside : a.contains b = true) :
    a.bounds?.any (·.intersects box) = true := by
  obtain ⟨x, y, own, has', within, _⟩ := contains_iff.mp inside
  obtain rfl := Option.some.inj (has.symm.trans has')
  have ordered : box.Ordered := Bounds.ordered_ofPositions? has
  rw [own]
  exact ordered.intersects_of_contains within

theorem boxes_meet_of_within (has : b.bounds? = some box) (inside : a.within b = true) :
    a.bounds?.any (·.intersects box) = true := by
  obtain ⟨y, x, has', own, within, _⟩ := contains_iff.mp inside
  obtain rfl := Option.some.inj (has.symm.trans has')
  have ordered : x.Ordered := Bounds.ordered_ofPositions? own
  rw [own, Option.any_some, Bounds.intersects_comm]
  exact ordered.intersects_of_contains within

theorem boxes_meet_of_beq (has : b.bounds? = some box) (same : (a == b) = true) :
    a.bounds?.any (·.intersects box) = true := by
  have ordered : box.Ordered := Bounds.ordered_ofPositions? has
  have equal := bounds?_beq same
  rw [has] at equal
  cases own : a.bounds? with
  | none =>
    rw [own] at equal
    contradiction
  | some x =>
    rw [own] at equal
    exact ordered.intersects_of_contains (Bounds.contains_of_beq equal)

/-- The box test is sound for every relation but disjointness. -/
theorem boxes_meet_of_relate (has : b.bounds? = some box) {r : Relation} (joint : r ≠ .disjoint)
    (holds : a.relate b r = true) : a.bounds?.any (·.intersects box) = true := by
  have meet (h : a.intersects b = true) := boxes_meet_of_intersects has h
  cases r with
  | intersects => exact meet holds
  | contains => exact boxes_meet_of_contains has holds
  | within => exact boxes_meet_of_within has holds
  | overlaps =>
    simp only [relate, overlaps, Bool.and_eq_true] at holds
    exact meet holds.1.1
  | touches =>
    simp only [relate, touches, Bool.and_eq_true] at holds
    exact meet holds.1
  | crosses =>
    simp only [relate, crosses, Bool.and_eq_true] at holds
    exact meet holds.1.1
  | disjoint => contradiction
  | equals => exact boxes_meet_of_beq has holds

end Boxes

section Symmetry

variable (a b : Geometry K)

theorem boundsApart_comm : boundsApart a b = boundsApart b a := by
  unfold boundsApart
  cases a.bounds? <;> cases b.bounds? <;> simp only [Bounds.intersects_comm]

theorem someSegmentsMeet_comm : someSegmentsMeet a b = someSegmentsMeet b a := by
  rw [Bool.eq_iff_iff]
  simp only [someSegmentsMeet, List.any_eq_true]
  constructor
  · rintro ⟨s, hs, t, ht, meet⟩
    exact ⟨t, ht, s, hs, by rwa [Segment.intersects_comm]⟩
  · rintro ⟨t, ht, s, hs, meet⟩
    exact ⟨s, hs, t, ht, by rwa [Segment.intersects_comm]⟩

theorem intersects_comm : a.intersects b = b.intersects a := by
  rw [intersects, intersects, boundsApart_comm a b, someSegmentsMeet_comm a b,
    Bool.or_comm (someVertexIn a b)]

theorem disjoint_comm : a.disjoint b = b.disjoint a := by
  rw [disjoint, disjoint, intersects_comm a b]

theorem overlaps_comm : a.overlaps b = b.overlaps a := by
  rw [overlaps, overlaps, intersects_comm a b, Bool.and_right_comm]

theorem touches_comm : a.touches b = b.touches a := by
  rw [touches, touches, intersects_comm a b, overlaps_comm a b]

theorem overlaps_eq_crosses : a.overlaps b = a.crosses b := rfl

theorem crosses_comm : a.crosses b = b.crosses a := overlaps_comm a b

/-- Relations that hold one way round hold the other way round. -/
theorem relate_comm {r : Relation}
    (symmetric : r ∈ [.intersects, .disjoint, .overlaps, .crosses, .touches]) :
    a.relate b r = b.relate a r := by
  simp only [List.mem_cons, List.not_mem_nil, or_false] at symmetric
  rcases symmetric with rfl | rfl | rfl | rfl | rfl
  · exact intersects_comm a b
  · exact disjoint_comm a b
  · exact overlaps_comm a b
  · exact crosses_comm a b
  · exact touches_comm a b

theorem intersects_of_overlaps {a b : Geometry K} (shared : a.overlaps b = true) :
    a.intersects b = true := by
  simp only [overlaps, Bool.and_eq_true] at shared
  exact shared.1.1

/-- Geometries are apart, or touch, or overlap. -/
theorem existsUnique_relation :
    ∃! r, r ∈ [Relation.disjoint, .touches, .overlaps] ∧ a.relate b r = true := by
  have apart : a.relate b .disjoint = !a.intersects b := rfl
  have touch : a.relate b .touches = (a.intersects b && !a.overlaps b) := rfl
  have shared : a.relate b .overlaps = a.overlaps b := rfl
  have joint := intersects_of_overlaps (a := a) (b := b)
  cases meet : a.intersects b with
  | false =>
    have level : a.overlaps b = false := Bool.eq_false_iff.mpr fun h => by simp [joint h] at meet
    exact ⟨.disjoint, by simp [apart, meet], by simp [apart, touch, shared, meet, level]⟩
  | true =>
    cases level : a.overlaps b with
    | false =>
      exact ⟨.touches, by simp [touch, meet, level], by simp [apart, touch, shared, meet, level]⟩
    | true =>
      exact ⟨.overlaps, by simp [shared, level], by simp [apart, touch, shared, meet, level]⟩

variable {a b}

/-- What a geometry contains has a position, and that lies in the geometry. -/
theorem intersects_of_contains [Scalar.LawfulOrder K] (inside : a.contains b = true) :
    a.intersects b = true := by
  obtain ⟨x, box, own, has, _, every⟩ := contains_iff.mp inside
  have meet := boxes_meet_of_contains has inside
  rw [own, Option.any_some] at meet
  have near : boundsApart a b = false := by
    simp only [boundsApart, own, has, meet, Bool.not_true]
  obtain ⟨p, first⟩ : ∃ p, p ∈ b.positions := by
    refine List.exists_mem_of_ne_nil _ fun empty => ?_
    rw [bounds?, empty] at has
    contradiction
  have vertex : someVertexIn b a = true := List.any_eq_true.mpr ⟨p, first, every p first⟩
  simp only [intersects, near, vertex, Bool.not_false, Bool.true_and, Bool.or_true, Bool.true_or]

theorem touches_of_contains [Scalar.LawfulOrder K] (inside : a.contains b = true) :
    a.touches b = true := by
  have level : a.overlaps b = false := by
    simp only [overlaps, inside, Bool.not_true, Bool.and_false, Bool.false_and]
  rw [touches, intersects_of_contains inside, level]
  rfl

end Symmetry

end Geometry
end Geospatial
