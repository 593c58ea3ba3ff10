import Mathlib.Algebra.Order.BigOperators.Group.List
import Mathlib.Algebra.Order.Field.Basic
import Mathlib.Tactic.Linarith
import Geospatial.Proofs.Scalar.Order

/-! Exact arithmetic: scalars that form an ordered field under the operations of the library.
Nothing is said on roots, powers and the functions of angles, nor on which values are finite. Where
it measures, absolute values are those of the order, decimal constants have the values they spell,
and the hypotenuse is the root of the sum of the squares. A sum of finite values, exact, rounded or
overflown, is a number all the same. -/
namespace Geospatial

class Exact (K : Type) extends Scalar K, Field K, LinearOrder K, IsStrictOrderedRing K where
  beq_iff_eq (a b : K) : Scalar.beq.beq a b = true ↔ a = b

namespace Exact

variable {K : Type} [Exact K]

instance : Scalar.LawfulOrder K where
  le_trans := le_trans
  le_total _ _ := le_total _ _
  le_left _ := le_rfl
  le_right _ := le_rfl
  lt_iff := lt_iff_le_not_ge
  beq_iff {a b} := (beq_iff_eq a b).trans le_antisymm_iff
  le_of_isFinite _ := le_rfl

theorem isNaN_eq_false (a : K) : Scalar.isNaN a = false := by
  rw [Scalar.isNaN, (beq_iff_eq a a).mpr rfl]
  rfl

theorem order_eq_eq {a b : K} : Scalar.order a b = .eq ↔ a = b := by
  unfold Scalar.order Scalar.compare?
  rcases lt_trichotomy a b with below | rfl | above
  · simp [below, below.ne]
  · simp [(beq_iff_eq a a).mpr rfl]
  · simp [above, above.not_gt, above.ne']

theorem foldl_min_le (x : K) (xs : List K) : ∀ y ∈ x :: xs, xs.foldl Scalar.min x ≤ y := by
  induction xs generalizing x with
  | nil =>
    intro y hy
    rw [List.mem_singleton.mp hy]
    exact le_rfl
  | cons z zs ih =>
    intro y hy
    have rest := ih (Scalar.min x z)
    have first := rest _ List.mem_cons_self
    rcases List.mem_cons.mp hy with rfl | hy
    · exact first.trans (Scalar.min_le_left le_rfl)
    · rcases List.mem_cons.mp hy with rfl | hy
      · exact first.trans (Scalar.min_le_right le_rfl)
      · exact rest y (List.mem_cons_of_mem _ hy)

theorem least_le {xs : List K} {y : K} (here : y ∈ xs) : Scalar.least xs ≤ y := by
  cases xs with
  | nil => exact absurd here List.not_mem_nil
  | cons x xs =>
    simp only [Scalar.least, isNaN_eq_false, Bool.false_eq_true, if_false]
    exact foldl_min_le x xs y here

theorem foldl_min_mem (x : K) (xs : List K) : xs.foldl Scalar.min x ∈ x :: xs := by
  induction xs generalizing x with
  | nil => exact List.mem_singleton_self x
  | cons y ys ih =>
    rcases List.mem_cons.mp (ih (Scalar.min x y)) with same | later
    · rw [List.foldl_cons, same]
      rcases Scalar.min_choice x y with first | second
      · rw [first]
        exact List.mem_cons_self
      · rw [second]
        exact List.mem_cons_of_mem _ List.mem_cons_self
    · exact List.mem_cons_of_mem _ (List.mem_cons_of_mem _ later)

theorem least_mem {xs : List K} (filled : xs ≠ []) : Scalar.least xs ∈ xs := by
  cases xs with
  | nil => exact absurd rfl filled
  | cons x xs =>
    simp only [Scalar.least, isNaN_eq_false, Bool.false_eq_true, if_false]
    exact foldl_min_mem x xs

theorem least_perm {xs ys : List K} (perm : xs.Perm ys) : Scalar.least xs = Scalar.least ys := by
  rcases eq_or_ne xs [] with rfl | filled
  · rw [List.nil_perm.mp perm]
  · have filled' : ys ≠ [] := fun empty => filled (List.perm_nil.mp (empty ▸ perm))
    exact le_antisymm (least_le (perm.mem_iff.mpr (least_mem filled')))
      (least_le (perm.mem_iff.mp (least_mem filled)))

theorem le_min_iff {a b c : K} : c ≤ Scalar.min a b ↔ c ≤ a ∧ c ≤ b :=
  ⟨fun low => ⟨low.trans (Scalar.min_le_left le_rfl), low.trans (Scalar.min_le_right le_rfl)⟩,
    fun ⟨ha, hb⟩ => Scalar.le_min ha hb⟩

theorem max_le_iff {a b c : K} : Scalar.max a b ≤ c ↔ a ≤ c ∧ b ≤ c :=
  ⟨fun high => ⟨(Scalar.le_max_left le_rfl).trans high, (Scalar.le_max_right le_rfl).trans high⟩,
    fun ⟨ha, hb⟩ => Scalar.max_le ha hb⟩

theorem min_eq_left {a b : K} (le : a ≤ b) : Scalar.min a b = a :=
  le_antisymm (Scalar.min_le_left le_rfl) (Scalar.le_min le_rfl le)

theorem max_eq_left {a b : K} (le : b ≤ a) : Scalar.max a b = a :=
  le_antisymm (Scalar.max_le le_rfl le) (Scalar.le_max_left le_rfl)

theorem max_eq_right {a b : K} (le : a ≤ b) : Scalar.max a b = b :=
  le_antisymm (Scalar.max_le le le_rfl) (Scalar.le_max_right le_rfl)

theorem min_comm (a b : K) : Scalar.min a b = Scalar.min b a :=
  le_antisymm (Scalar.le_min (Scalar.min_le_right le_rfl) (Scalar.min_le_left le_rfl))
    (Scalar.le_min (Scalar.min_le_right le_rfl) (Scalar.min_le_left le_rfl))

theorem max_comm (a b : K) : Scalar.max a b = Scalar.max b a :=
  le_antisymm (Scalar.max_le (Scalar.le_max_right le_rfl) (Scalar.le_max_left le_rfl))
    (Scalar.max_le (Scalar.le_max_right le_rfl) (Scalar.le_max_left le_rfl))

theorem min_add_right (a b d : K) : Scalar.min (a + d) (b + d) = Scalar.min a b + d := by
  simp only [Scalar.min, isNaN_eq_false, Bool.or_false, add_lt_add_iff_right]
  split <;> rfl

theorem max_add_right (a b d : K) : Scalar.max (a + d) (b + d) = Scalar.max a b + d := by
  simp only [Scalar.max, isNaN_eq_false, Bool.or_false, add_lt_add_iff_right]
  split <;> rfl

theorem max_mul_left {c : K} (positive : 0 < c) (a b : K) :
    Scalar.max (c * a) (c * b) = c * Scalar.max a b := by
  simp only [Scalar.max, isNaN_eq_false, Bool.or_false, mul_lt_mul_iff_right₀ positive]
  split <;> rfl

theorem sum_eq (xs : List K) : Scalar.sum xs = xs.sum := List.sum_eq_foldl.symm

theorem ofInt_eq (n : ℤ) : (Scalar.ofInt n : K) = n := by
  unfold Scalar.ofInt
  split
  · have size : ((n.natAbs : ℕ) : ℤ) = -n := by omega
    rw [← Int.cast_natCast, size, Int.cast_neg, neg_neg]
  · have size : ((n.natAbs : ℕ) : ℤ) = n := by omega
    rw [← Int.cast_natCast, size]

end Exact

class Euclidean (K : Type) extends Exact K where
  abs_eq (a : K) : Scalar.abs a = |a|
  ofScientific_eq (m : ℕ) (down : Bool) (e : ℕ) : (OfScientific.ofScientific m down e : K) =
    if down then (m : K) / ((10 ^ e : ℕ) : K) else ((m * 10 ^ e : ℕ) : K)
  hypot_nonneg (a b : K) : 0 ≤ Scalar.hypot a b
  hypot_mul_self (a b : K) : Scalar.hypot a b * Scalar.hypot a b = a * a + b * b

namespace Euclidean

variable {K : Type} [Euclidean K]

/-- Constants with digits after the point are decimal fractions. -/
theorem ofScientific_true (m e : ℕ) :
    (OfScientific.ofScientific m true e : K) = (m : K) / ((10 ^ e : ℕ) : K) :=
  (ofScientific_eq m true e).trans (if_pos rfl)

theorem ofScientific_pos (m e : ℕ) : 0 < (OfScientific.ofScientific (m + 1) true e : K) := by
  rw [ofScientific_true]
  have numerator : 0 < ((m + 1 : ℕ) : K) := Nat.cast_pos.mpr m.succ_pos
  have denominator : 0 < ((10 ^ e : ℕ) : K) := Nat.cast_pos.mpr (by positivity)
  exact div_pos numerator denominator

theorem ofScientific_le_one {m e : ℕ} (short : m ≤ 10 ^ e) :
    (OfScientific.ofScientific m true e : K) ≤ 1 := by
  rw [ofScientific_true]
  have denominator : 0 < ((10 ^ e : ℕ) : K) := Nat.cast_pos.mpr (by positivity)
  exact (div_le_one denominator).mpr (Nat.cast_le.mpr short)

theorem hypot_zero_right (a : K) : Scalar.hypot a 0 = |a| := by
  apply (mul_self_inj (hypot_nonneg a 0) (abs_nonneg a)).mp
  rw [hypot_mul_self, abs_mul_abs_self, mul_zero, add_zero]

theorem hypot_mul_left (c a b : K) : Scalar.hypot (c * a) (c * b) = |c| * Scalar.hypot a b := by
  apply (mul_self_inj (hypot_nonneg _ _) (mul_nonneg (abs_nonneg c) (hypot_nonneg a b))).mp
  rw [hypot_mul_self, mul_mul_mul_comm |c|, hypot_mul_self, abs_mul_abs_self, mul_add,
    mul_mul_mul_comm c a, mul_mul_mul_comm c b]

theorem hypot_le_hypot {a b c d : K} (left : |a| ≤ |c|) (right : |b| ≤ |d|) :
    Scalar.hypot a b ≤ Scalar.hypot c d := by
  apply nonneg_le_nonneg_of_sq_le_sq (hypot_nonneg c d)
  rw [hypot_mul_self, hypot_mul_self]
  exact add_le_add (abs_le_iff_mul_self_le.mp left) (abs_le_iff_mul_self_le.mp right)

theorem hypot_pos {a b : K} (apart : ¬(a = 0 ∧ b = 0)) : 0 < Scalar.hypot a b := by
  apply lt_of_le_of_ne (hypot_nonneg a b)
  intro zero
  have squares := hypot_mul_self a b
  rw [← zero, mul_zero] at squares
  exact apart (mul_self_add_mul_self_eq_zero.mp squares.symm)

end Euclidean

namespace Scalar

class LawfulSum (K : Type) [Scalar K] : Prop extends LawfulOrder K where
  zero_number : (0 : K) ≤ 0
  add_number {a b : K} : a ≤ a → isFinite b = true → a + b ≤ a + b

instance {K : Type} [Exact K] : LawfulSum K where
  zero_number := le_rfl
  add_number _ _ := le_rfl

theorem sum_number {K : Type} [Scalar K] [LawfulSum K] {xs : List K}
    (finite : ∀ x ∈ xs, isFinite x = true) : sum xs ≤ sum xs := by
  have onward (a : K) (number : a ≤ a) : xs.foldl (· + ·) a ≤ xs.foldl (· + ·) a := by
    induction xs generalizing a with
    | nil => exact number
    | cons x xs ih =>
      obtain ⟨first, rest⟩ := List.forall_mem_cons.mp finite
      exact ih rest (a + x) (LawfulSum.add_number number first)
  exact onward 0 LawfulSum.zero_number

/-- Adding a finite number that is not negative makes no number less, and taking it off none greater.
-/
class LawfulGrowth (K : Type) [Scalar K] : Prop extends LawfulOrder K where
  le_add {a d : K} : a ≤ a → isFinite d = true → 0 ≤ d → a ≤ a + d
  sub_le {a d : K} : a ≤ a → isFinite d = true → 0 ≤ d → a - d ≤ a

instance {K : Type} [Exact K] : LawfulGrowth K where
  le_add _ _ := le_add_of_nonneg_right
  sub_le _ _ := sub_le_self _

end Scalar

end Geospatial
