import Mathlib.Tactic.FieldSimp
import Mathlib.Tactic.NormNum
import Mathlib.Tactic.Positivity
import Mathlib.Tactic.Ring
import Geospatial.Projection.Helmert
import Geospatial.Proofs.Scalar.Real

/-! Transformations between two frames and back, in exact arithmetic. Cramer's rule solves the
equations of any matrix with a determinant other than zero; and that of a linearized rotation is
the cube of the scale, times one plus squares of the angles. -/
namespace Geospatial.Helmert

section

variable {K : Type} [Exact K]

namespace Matrix

/-- The sum of the columns, each times a coordinate of the vector. -/
def combine (c : Matrix K) (v : Cartesian K) : Cartesian K where
  x := c.first.x * v.x + c.second.x * v.y + c.third.x * v.z
  y := c.first.y * v.x + c.second.y * v.y + c.third.y * v.z
  z := c.first.z * v.x + c.second.z * v.y + c.third.z * v.z

/-- Cramer's rule: each column in turn gives way to the right-hand side. -/
def quotients (c : Matrix K) (b : Cartesian K) : Cartesian K where
  x := det { c with first := b } / c.det
  y := det { c with second := b } / c.det
  z := det { c with third := b } / c.det

variable {c : Matrix K}

theorem combine_quotients (regular : c.det ≠ 0) (b : Cartesian K) :
    c.combine (c.quotients b) = b := by
  simp only [combine, quotients]
  congr 1 <;> field_simp <;> simp only [det] <;> ring

theorem quotients_combine (regular : c.det ≠ 0) (v : Cartesian K) :
    c.quotients (c.combine v) = v := by
  simp only [combine, quotients]
  congr 1 <;> rw [div_eq_iff regular] <;> simp only [det] <;> ring

end Matrix

def displace (h : Helmert K) (v : Cartesian K) : Cartesian K :=
  ⟨h.tx + v.x, h.ty + v.y, h.tz + v.z⟩

def putBack (h : Helmert K) (p : Cartesian K) : Cartesian K :=
  ⟨p.x - h.tx, p.y - h.ty, p.z - h.tz⟩

theorem putBack_displace (h : Helmert K) (v : Cartesian K) : h.putBack (h.displace v) = v := by
  simp [putBack, displace]

theorem displace_putBack (h : Helmert K) (p : Cartesian K) : h.displace (h.putBack p) = p := by
  simp [putBack, displace]

theorem apply_eq (h : Helmert K) (p : Cartesian K) :
    h.apply p = h.displace (h.matrix.combine p) := by
  simp only [apply, displace, Matrix.combine, add_assoc]

theorem applyInverse_eq (h : Helmert K) (p : Cartesian K) :
    h.applyInverse p = h.matrix.quotients (h.putBack p) := rfl

/-- The rotations come in by their squares only, so none of them makes the matrix singular. -/
theorem det_matrix (h : Helmert K) : h.matrix.det = h.scale ^ 3 *
    (1 + (h.rx * secondOfArc) ^ 2 + (h.ry * secondOfArc) ^ 2 + (h.rz * secondOfArc) ^ 2) := by
  simp only [Matrix.det, matrix]
  ring

end

variable {K : Type} [Euclidean K] {h : Helmert K}

theorem scale_eq_zero : h.scale = 0 ↔ h.ds = -1000000 := by
  have millionth : (1e-6 : K) = 1 / 1000000 := by
    rw [Euclidean.ofScientific_true]
    norm_num
  rw [scale, millionth, add_comm, add_eq_zero_iff_eq_neg, mul_one_div, div_eq_iff (by norm_num)]
  norm_num

theorem det_matrix_eq_zero : h.matrix.det = 0 ↔ h.ds = -1000000 := by
  have rotated : 0 < 1 + (h.rx * secondOfArc) ^ 2 + (h.ry * secondOfArc) ^ 2 +
    (h.rz * secondOfArc) ^ 2 := by positivity
  rw [det_matrix, mul_eq_zero, or_iff_left rotated.ne', pow_eq_zero_iff three_ne_zero,
    scale_eq_zero]

/-- Unless the change of scale takes all of space to one point, a transformation can be undone: the
inverse divides by a number other than zero, and each of the two takes back what the other does. -/
theorem applyInverse_inverts (scaled : h.ds ≠ -1000000) : h.matrix.det ≠ 0 ∧
    (∀ p, h.applyInverse (h.apply p) = p) ∧ ∀ p, h.apply (h.applyInverse p) = p := by
  have regular : h.matrix.det ≠ 0 := fun singular => scaled (det_matrix_eq_zero.mp singular)
  refine ⟨regular, fun p => ?_, fun p => ?_⟩
  · rw [apply_eq, applyInverse_eq, putBack_displace, Matrix.quotients_combine regular]
  · rw [apply_eq, applyInverse_eq, Matrix.combine_quotients regular, displace_putBack]

/-- A point of the British frame. -/
theorem applyInverse_inverts_british :
    let h : Helmert ℝ := ⟨446.448, -125.157, 542.06, 0.1502, 0.247, 0.8421, -20.4894⟩
    h.ds ≠ -1000000 ∧ h.matrix.det ≠ 0 ∧
      h.applyInverse (h.apply ⟨3980581, -111000, 4966825⟩) = ⟨3980581, -111000, 4966825⟩ ∧
      h.apply (h.applyInverse ⟨3980581, -111000, 4966825⟩) = ⟨3980581, -111000, 4966825⟩ := by
  intro h
  have scaled : h.ds ≠ -1000000 := by norm_num [h]
  obtain ⟨regular, forth, back⟩ := applyInverse_inverts scaled
  exact ⟨scaled, regular, forth _, back _⟩

end Geospatial.Helmert
