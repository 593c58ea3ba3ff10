import Mathlib.Data.Set.Finite.Lemmas
import Mathlib.Tactic.FieldSimp
import Mathlib.Tactic.Ring
import Geospatial.Proofs.Scalar.Real

/-! Means in exact arithmetic. A mean lies between the least and the greatest value, so that it is
finite if the values are, and no other number is as near to all values by the sum of the squares. -/
namespace Geospatial

open ArchimedeanClass

/-- What lies between finite values is finite. -/
class Scalar.ConvexFinite (K : Type) [Exact K] : Prop where
  isFinite_between {a b c : K} : Scalar.isFinite a = true → Scalar.isFinite c = true → a ≤ b →
    b ≤ c → Scalar.isFinite b = true

instance : Scalar.ConvexFinite ℝ where
  isFinite_between _ _ _ _ := rfl

instance : Scalar.ConvexFinite Hyperreal where
  isFinite_between {a b c} ha hc ab bc := by
    rw [Hyperreal.isFinite_iff] at ha hc ⊢
    rcases le_total 0 b with positive | negative
    · exact hc.trans (mk_antitoneOn positive (positive.trans bc) bc)
    · exact ha.trans (mk_monotoneOn (ab.trans negative) negative ab)

namespace Exact

variable {K : Type} [Exact K]

/-- The mean of some values, zero where there are none. -/
def mean (xs : List K) : K := xs.sum / (xs.length : K)

theorem length_pos {α : Type} {xs : List α} (filled : xs ≠ []) : (0 : K) < (xs.length : K) :=
  Nat.cast_pos.mpr (List.length_pos_iff.mpr filled)

theorem length_mul_mean {xs : List K} (filled : xs ≠ []) :
    (xs.length : K) * mean xs = xs.sum := by
  rw [mean, mul_div_cancel₀ _ (length_pos filled).ne']

theorem mean_perm {xs ys : List K} (perm : xs.Perm ys) : mean xs = mean ys := by
  rw [mean, mean, perm.sum_eq, perm.length_eq]

theorem sum_affine (xs : List K) (a b : K) :
    (xs.map fun x => a * x + b).sum = a * xs.sum + (xs.length : K) * b := by
  rw [List.sum_map_add, List.sum_map_mul_left, List.map_id', List.map_const', List.sum_replicate,
    nsmul_eq_mul]

theorem mean_affine {xs : List K} (filled : xs ≠ []) (a b : K) :
    mean (xs.map fun x => a * x + b) = a * mean xs + b := by
  rw [mean, sum_affine, List.length_map, mean, add_div, mul_div_assoc,
    mul_div_cancel_left₀ _ (length_pos filled).ne']

/-- The mean of two lists together, by their lengths. -/
theorem mean_append {xs ys : List K} (hx : xs ≠ []) (hy : ys ≠ []) : mean (xs ++ ys) =
    ((xs.length : K) * mean xs + (ys.length : K) * mean ys) / ((xs.length : K) + ys.length) := by
  rw [length_mul_mean hx, length_mul_mean hy, mean, List.sum_append, List.length_append,
    Nat.cast_add]

theorem mean_le {xs : List K} (filled : xs ≠ []) {c : K} (bound : ∀ x ∈ xs, x ≤ c) :
    mean xs ≤ c := by
  rw [mean, div_le_iff₀ (length_pos filled), mul_comm, ← nsmul_eq_mul]
  exact List.sum_le_card_nsmul xs c bound

theorem le_mean {xs : List K} (filled : xs ≠ []) {c : K} (bound : ∀ x ∈ xs, c ≤ x) :
    c ≤ mean xs := by
  rw [mean, le_div_iff₀ (length_pos filled), mul_comm, ← nsmul_eq_mul]
  exact List.card_nsmul_le_sum xs c bound

theorem mean_nonneg {xs : List K} (nonneg : ∀ x ∈ xs, 0 ≤ x) : 0 ≤ mean xs := by
  rcases eq_or_ne xs [] with rfl | filled
  · simp [mean]
  · exact le_mean filled nonneg

theorem isFinite_mean [Scalar.ConvexFinite K] {xs : List K} (filled : xs ≠ [])
    (finite : ∀ x ∈ xs, Scalar.isFinite x = true) : Scalar.isFinite (mean xs) = true := by
  obtain ⟨a, ha, least⟩ := Set.exists_min_image {x | x ∈ xs} id xs.finite_toSet
    (List.exists_mem_of_ne_nil xs filled)
  obtain ⟨c, hc, greatest⟩ := Set.exists_max_image {x | x ∈ xs} id xs.finite_toSet
    (List.exists_mem_of_ne_nil xs filled)
  exact Scalar.ConvexFinite.isFinite_between (finite a ha) (finite c hc) (le_mean filled least)
    (mean_le filled greatest)

/-- The sum of the squared differences from a number, by the number. -/
theorem sum_sq_sub (xs : List K) (c : K) : (xs.map fun x => (x - c) ^ 2).sum =
    (xs.map fun x => x ^ 2).sum - 2 * c * xs.sum + (xs.length : K) * c ^ 2 := by
  induction xs with
  | nil => simp
  | cons x xs ih =>
    simp only [List.map_cons, List.sum_cons, ih, List.length_cons, Nat.cast_succ]
    ring

/-- The mean squared difference from the mean, by the mean of the squares. -/
theorem mean_sq_sub_mean {xs : List K} (filled : xs ≠ []) :
    mean (xs.map fun x => (x - mean xs) ^ 2) =
      (xs.map fun x => x ^ 2).sum / (xs.length : K) - mean xs ^ 2 := by
  have size : (xs.length : K) ≠ 0 := (length_pos filled).ne'
  rw [mean, List.length_map, sum_sq_sub, ← length_mul_mean filled, eq_sub_iff_add_eq]
  field_simp
  ring

theorem sum_sq_sub_mean_le (xs : List K) (c : K) :
    (xs.map fun x => (x - mean xs) ^ 2).sum ≤ (xs.map fun x => (x - c) ^ 2).sum := by
  cases xs with
  | nil => exact le_rfl
  | cons x xs =>
    have filled := List.cons_ne_nil x xs
    have gap := mul_nonneg (length_pos filled).le (sq_nonneg (mean (x :: xs) - c))
    rw [sum_sq_sub, sum_sq_sub, ← length_mul_mean filled]
    linarith

end Exact
end Geospatial
