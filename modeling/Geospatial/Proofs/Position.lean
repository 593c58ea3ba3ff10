import Geospatial.Proofs.Scalar.Exact
import Geospatial.Position

/-! Positions in the plane, and their distances. -/
namespace Geospatial.Position

theorem isNumber_of_isFinite {K : Type} [Scalar K] [Scalar.LawfulOrder K] {p : Position K}
    (finite : p.isFinite = true) : p.x ≤ p.x ∧ p.y ≤ p.y := by
  simp only [isFinite, Bool.and_eq_true] at finite
  exact ⟨Scalar.le_of_isFinite finite.1.1, Scalar.le_of_isFinite finite.1.2⟩

theorem sameXY_of_isFinite {K : Type} [Scalar K] [Scalar.LawfulOrder K] {p : Position K}
    (finite : p.isFinite = true) : p.sameXY p = true := by
  obtain ⟨hx, hy⟩ := isNumber_of_isFinite finite
  rw [sameXY, Scalar.beq_iff.mpr ⟨hx, hx⟩, Scalar.beq_iff.mpr ⟨hy, hy⟩]
  rfl

section Exact

variable {K : Type} [Exact K] {p q : Position K}

theorem sameXY_iff : p.sameXY q = true ↔ p.x = q.x ∧ p.y = q.y := by
  simp [sameXY, Exact.beq_iff_eq]

theorem sameXY_self (p : Position K) : p.sameXY p = true := sameXY_iff.mpr ⟨rfl, rfl⟩

theorem sameXY_comm (p q : Position K) : p.sameXY q = q.sameXY p := by
  rw [Bool.eq_iff_iff, sameXY_iff, sameXY_iff, eq_comm, eq_comm (a := p.y)]

omit [Exact K] in
/-- Positions without heights are known by their place. -/
theorem planar_eq_iff : p.planar = q.planar ↔ p.x = q.x ∧ p.y = q.y := by
  simp [planar]

omit [Exact K] in
theorem planar_planar (p : Position K) : p.planar.planar = p.planar := rfl

end Exact

section Distance

variable {K : Type} [Euclidean K] {p q : Position K}

theorem distance_comm (p q : Position K) : p.distance q = q.distance p := by
  rw [distance, distance]
  apply (mul_self_inj (Euclidean.hypot_nonneg ..) (Euclidean.hypot_nonneg ..)).mp
  rw [Euclidean.hypot_mul_self, Euclidean.hypot_mul_self, ← neg_sub p.x, ← neg_sub p.y,
    neg_mul_neg, neg_mul_neg]

theorem distance_nonneg (p q : Position K) : 0 ≤ p.distance q := Euclidean.hypot_nonneg _ _

theorem distance_pos (apart : p.sameXY q = false) : 0 < p.distance q := by
  refine Euclidean.hypot_pos fun ⟨hx, hy⟩ => ?_
  rw [sameXY_iff.mpr ⟨(sub_eq_zero.mp hx).symm, (sub_eq_zero.mp hy).symm⟩] at apart
  contradiction

theorem distance_eq_zero : p.distance q = 0 ↔ p.sameXY q = true := by
  constructor
  · intro level
    by_contra apart
    exact (distance_pos (Bool.not_eq_true _ ▸ apart)).ne' level
  · intro same
    obtain ⟨hx, hy⟩ := sameXY_iff.mp same
    rw [distance, hx, hy, sub_self, sub_self, Euclidean.hypot_zero_right, abs_zero]

end Distance

end Geospatial.Position
