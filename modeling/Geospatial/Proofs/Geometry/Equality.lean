import Geospatial.Geometry
import Geospatial.Proofs.Bounds.Containment

/-! Equal geometries have equal boxes. Equality is the numeric one of the coordinates, under
which the two zeros are equal and a value that is not a number differs from itself; the least
and the greatest of equal coordinates are equal again. -/
namespace Geospatial

theorem append_beq_append [BEq α] {a b c d : List α} (h : (a == b) = true) (k : (c == d) = true) :
    (a ++ c == b ++ d) = true := by
  induction a generalizing b with
  | nil =>
    cases b with
    | nil => exact k
    | cons => contradiction
  | cons x a ih =>
    cases b with
    | nil => contradiction
    | cons y b =>
      simp only [List.cons_beq_cons, Bool.and_eq_true] at h
      simp only [List.cons_append, List.cons_beq_cons, Bool.and_eq_true]
      exact ⟨h.1, ih h.2⟩

theorem flatten_beq_flatten [BEq α] {a b : List (List α)} (h : (a == b) = true) :
    (a.flatten == b.flatten) = true := by
  induction a generalizing b with
  | nil =>
    cases b with
    | nil => rfl
    | cons => contradiction
  | cons x a ih =>
    cases b with
    | nil => contradiction
    | cons y b =>
      simp only [List.cons_beq_cons, Bool.and_eq_true] at h
      exact append_beq_append h.1 (ih h.2)

variable {K : Type} [Scalar K]

theorem Position.beq_iff {p q : Position K} : (p == q) = true ↔
    (p.x == q.x) = true ∧ (p.y == q.y) = true ∧ (p.z == q.z) = true := by
  change instBEqPosition.beq p q = true ↔ _
  simp only [instBEqPosition.beq, Bool.and_eq_true]

namespace Bounds

theorem beq_iff {a b : Bounds K} : (a == b) = true ↔
    (a.minX == b.minX) = true ∧ (a.minY == b.minY) = true ∧ (a.maxX == b.maxX) = true ∧
      (a.maxY == b.maxY) = true ∧ (a.minZ == b.minZ) = true ∧ (a.maxZ == b.maxZ) = true := by
  change instBEqBounds.beq a b = true ↔ _
  simp only [instBEqBounds.beq, Bool.and_eq_true]

theorem ofPosition_beq {p q : Position K} (h : (p == q) = true) :
    (ofPosition p == ofPosition q) = true := by
  obtain ⟨x, y, z⟩ := Position.beq_iff.mp h
  exact beq_iff.mpr ⟨x, y, x, y, z, z⟩

theorem mergeHeights_beq {f : K → K → K}
    (respects : ∀ {a a' b b' : K}, (a == a') = true → (b == b') = true → (f a b == f a' b') = true)
    {a a' b b' : Option K} (ha : (a == a') = true) (hb : (b == b') = true) :
    (mergeHeights f a b == mergeHeights f a' b') = true := by
  cases a <;> cases a' <;> cases b <;> cases b' <;> simp_all [mergeHeights]

variable [Scalar.LawfulOrder K]

/-- Equal boxes lie inside each other. -/
theorem contains_of_beq {a b : Bounds K} (same : (a == b) = true) : a.contains b = true := by
  obtain ⟨minX, minY, maxX, maxY, _⟩ := beq_iff.mp same
  rw [Scalar.beq_iff] at *
  exact contains_iff.mpr ⟨minX.1, maxX.2, minY.1, maxY.2⟩

theorem union_beq {a a' b b' : Bounds K} (ha : (a == a') = true) (hb : (b == b') = true) :
    (a.union b == a'.union b') = true := by
  obtain ⟨ax, ay, aX, aY, az, aZ⟩ := beq_iff.mp ha
  obtain ⟨bx, by', bX, bY, bz, bZ⟩ := beq_iff.mp hb
  exact beq_iff.mpr ⟨Scalar.min_beq_min ax bx, Scalar.min_beq_min ay by',
    Scalar.max_beq_max aX bX, Scalar.max_beq_max aY bY,
    mergeHeights_beq Scalar.min_beq_min az bz, mergeHeights_beq Scalar.max_beq_max aZ bZ⟩

theorem foldl_extend_beq {ps qs : List (Position K)} (h : (ps == qs) = true) {a b : Bounds K}
    (same : (a == b) = true) : (ps.foldl extend a == qs.foldl extend b) = true := by
  induction ps generalizing qs a b with
  | nil =>
    cases qs with
    | nil => exact same
    | cons => contradiction
  | cons p ps ih =>
    cases qs with
    | nil => contradiction
    | cons q qs =>
      simp only [List.cons_beq_cons, Bool.and_eq_true] at h
      exact ih h.2 (union_beq same (ofPosition_beq h.1))

theorem ofPositions?_beq {ps qs : List (Position K)} (h : (ps == qs) = true) :
    (ofPositions? ps == ofPositions? qs) = true := by
  cases ps with
  | nil =>
    cases qs with
    | nil => rfl
    | cons => contradiction
  | cons p ps =>
    cases qs with
    | nil => contradiction
    | cons q qs =>
      simp only [List.cons_beq_cons, Bool.and_eq_true] at h
      exact foldl_extend_beq h.2 (ofPosition_beq h.1)

end Bounds

namespace Geometry

mutual

theorem positions_beq (g h : Geometry K) (same : g.beq h = true) :
    (g.positions == h.positions) = true := by
  cases g <;> cases h <;> simp only [beq, Bool.false_eq_true] at same
  case point.point => simpa [positions] using same
  case lineString.lineString => exact same
  case polygon.polygon => exact flatten_beq_flatten same
  case multiPoint.multiPoint => exact same
  case multiLineString.multiLineString => exact flatten_beq_flatten same
  case multiPolygon.multiPolygon => exact flatten_beq_flatten (flatten_beq_flatten same)
  case collection.collection gs hs => exact positionsOfAll_beq gs hs same

theorem positionsOfAll_beq (gs hs : List (Geometry K)) (same : beqAll gs hs = true) :
    (positionsOfAll gs == positionsOfAll hs) = true := by
  cases gs <;> cases hs <;> simp only [beqAll, Bool.false_eq_true, Bool.and_eq_true] at same
  case nil.nil => rfl
  case cons.cons g gs h hs =>
    exact append_beq_append (positions_beq g h same.1) (positionsOfAll_beq gs hs same.2)

end

theorem bounds?_beq [Scalar.LawfulOrder K] {g h : Geometry K} (same : (g == h) = true) :
    (g.bounds? == h.bounds?) = true :=
  Bounds.ofPositions?_beq (positions_beq g h same)

end Geometry
end Geospatial
