import Mathlib.Algebra.Order.Ring.Nat
import Mathlib.Algebra.Order.Ring.Int
import Geospatial.Proofs.Scalar.Order

/-! Laws of rounding, shared by doubles and exact numbers. A difference, a square, a sum and a root
may be rounded or overflow, but they do not fall where an operand grows; a difference, a product and
a quotient are not rounded to the other sign. The bits of a byte keep their order as numbers, and
the total order of all values agrees with that of the numbers. Sizes count up to powers of two:
results that keep clear of the greatest numbers are no larger than the exact ones can be, and so
stay finite. -/
namespace Geospatial.Scalar

section Rounding

class LawfulRounding (K : Type) [Scalar K] : Prop extends LawfulOrder K where
  zero_le_zero : (0 : K) ≤ 0
  sub_nonneg {a b : K} : b < a → 0 ≤ a - b
  sub_le_sub_right {a b c : K} : c < a → a ≤ b → a - c ≤ b - c
  sub_le_sub_left {a b c : K} : b ≤ a → a < c → c - a ≤ c - b
  square_nonneg {a : K} : 0 ≤ a → 0 ≤ a * a
  square_le_square {a b : K} : 0 ≤ a → a ≤ b → a * a ≤ b * b
  add_nonneg {a b : K} : 0 ≤ a → 0 ≤ b → 0 ≤ a + b
  add_le_add {a b c d : K} : 0 ≤ a → a ≤ b → 0 ≤ c → c ≤ d → a + c ≤ b + d
  sqrt_le_sqrt {a b : K} : 0 ≤ a → a ≤ b → sqrt a ≤ sqrt b
  totalOrder_trans : Std.TransCmp (totalOrder : K → K → Ordering)
  totalOrder_of_lt {a b : K} : a < b → totalOrder a b = .lt

attribute [instance] LawfulRounding.totalOrder_trans

variable {K : Type} [Scalar K] [LawfulOrder K] {a b c : K}

theorem lt_of_lt_of_le (h : a < b) (k : b ≤ c) : a < c :=
  lt_iff.mpr ⟨le_trans (le_of_lt h) k, fun back => (lt_iff.mp h).2 (le_trans k back)⟩

theorem lt_of_le_of_lt (h : a ≤ b) (k : b < c) : a < c :=
  lt_iff.mpr ⟨le_trans h (le_of_lt k), fun back => (lt_iff.mp k).2 (le_trans back h)⟩

end Rounding

section Sign

class LawfulSign (K : Type) [Scalar K] : Prop extends LawfulOrder K where
  lt_of_sub_pos {a b : K} : 0 < a - b → b < a
  lt_of_sub_neg {a b : K} : a - b < 0 → a < b
  /-- Division by a length, or by the diagonal over it, keeps the signs of all dividends or turns
  them all. -/
  div_sign (b : K) : (∀ a, 0 < a / b ∨ 0 < a / (b * sqrt 2) → 0 < a) ∨
    ∀ a, 0 < a / b ∨ 0 < a / (b * sqrt 2) → a < 0
  zero_lt_bit : (0 : K) < ((2 ^ 0 : Nat) : K)
  bit_lt_succ {n : Nat} : n < 7 → ((2 ^ n : Nat) : K) < ((2 ^ (n + 1) : Nat) : K)

export LawfulSign (lt_of_sub_pos lt_of_sub_neg div_sign)

variable {K : Type} [Scalar K]

section

variable [LawfulOrder K] {a b c : K}

theorem lt_trans (h : a < b) (k : b < c) : a < c := by
  refine lt_iff.mpr ⟨le_trans (le_of_lt h) (le_of_lt k), fun back => ?_⟩
  exact (lt_iff.mp h).2 (le_trans (le_of_lt k) back)

theorem lt_irrefl (a : K) : ¬a < a := fun h => (lt_iff.mp h).2 (le_of_lt h)

theorem beq_eq_false_of_lt (h : a < b) : (a == b) = false ∧ (b == a) = false := by
  have apart := (lt_iff.mp h).2
  constructor
  · exact Bool.eq_false_iff.mpr fun same => apart (beq_iff.mp same).2
  · exact Bool.eq_false_iff.mpr fun same => apart (beq_iff.mp same).1

end

variable [LawfulSign K] {m n : Nat}

theorem bit_lt (less : m < n) (byte : n < 8) : ((2 ^ m : Nat) : K) < ((2 ^ n : Nat) : K) := by
  induction less with
  | refl => exact LawfulSign.bit_lt_succ (by omega)
  | step _ ih => exact lt_trans (ih (by omega)) (LawfulSign.bit_lt_succ (by omega))

theorem bit_pos (byte : n < 8) : (0 : K) < ((2 ^ n : Nat) : K) := by
  rcases Nat.eq_zero_or_pos n with rfl | positive
  · exact LawfulSign.zero_lt_bit
  · exact lt_trans LawfulSign.zero_lt_bit (bit_lt positive byte)

/-- The bits are told apart. -/
theorem bit_beq (hm : m < 8) (hn : n < 8) :
    (((2 ^ m : Nat) : K) == ((2 ^ n : Nat) : K)) = decide (m = n) := by
  rcases Nat.lt_trichotomy m n with less | rfl | greater
  · rw [(beq_eq_false_of_lt (bit_lt less hn)).1, decide_eq_false (Nat.ne_of_lt less)]
  · have number := le_right (le_of_lt (bit_pos (K := K) hm))
    rw [beq_iff.mpr ⟨number, number⟩, decide_eq_true rfl]
  · rw [(beq_eq_false_of_lt (bit_lt greater hm)).2, decide_eq_false (Nat.ne_of_gt greater)]

end Sign

section Size

class LawfulSize (K : Type) [Scalar K] extends LawfulOrder K where
  /-- The number is finite, and at most two to the power `k` in size. -/
  Within : ℤ → K → Prop
  isFinite_of_within {k : ℤ} {a : K} : Within k a → isFinite a = true
  within_mono {j k : ℤ} {a : K} : Within j a → j ≤ k → Within k a
  within_one : Within 0 (1 : K)
  within_neg_one : Within 0 (-1 : K)
  within_half : Within (-1) (0.5 : K)
  within_pi : Within 2 (pi : K)
  within_cast {n : ℕ} : n < 2 ^ 64 → Within 64 (n : K)
  within_add {k : ℤ} {a b : K} : Within k a → Within k b → 0 ≤ k → k < 1023 →
    Within (k + 1) (a + b)
  within_sub {k : ℤ} {a b : K} : Within k a → Within k b → 0 ≤ k → k < 1023 →
    Within (k + 1) (a - b)
  within_mul {j k : ℤ} {a b : K} : Within j a → Within k b → 0 ≤ j + k → j + k ≤ 1023 →
    Within (j + k) (a * b)
  /-- A quotient by one or more is no larger than the dividend. -/
  within_div_cast {k : ℤ} {a : K} {n : ℕ} : Within k a → 0 ≤ k → k ≤ 1023 → 0 < n → n < 2 ^ 64 →
    Within k (a / n)
  within_div_half {j k : ℤ} {a b : K} : Within k a → 0 ≤ k → k < 1023 → Within j b → 0.5 ≤ b →
    Within (k + 1) (a / b)
  /-- Differences of small numbers do not vanish. -/
  beq_of_sub {a b : K} : Within 1022 a → Within 1022 b → (a - b == 0) = true → (a == b) = true
  hypot_number {a b : K} : Within 1020 a → Within 1020 b → hypot a b ≤ hypot a b
  hypot_pos {a b : K} : Within 1020 a → Within 1020 b → (a == 0 && b == 0) = false → 0 < hypot a b
  /-- The legs are not much longer than the hypotenuse. -/
  within_legs {a b : K} : Within 1020 a → Within 1020 b → 0 < hypot a b →
    Within 2 (a / hypot a b) ∧ Within 2 (b / hypot a b) ∧ Within 2 (-b / hypot a b)
  small_pos : (0 : K) < 1e-12
  within_sin {a : K} : isFinite a = true → Within 0 (sin a)
  within_cos {a : K} : isFinite a = true → Within 0 (cos a)
  within_atan2 {a b : K} : isFinite a = true → isFinite b = true → Within 2 (atan2 a b)

variable {K : Type} [Scalar K] [LawfulSize K] {k : ℤ} {a : K}

open LawfulSize

theorem within_max_half (ha : Within k a) (le : -1 ≤ k) :
    Within k (max a 0.5) ∧ 0.5 ≤ max a 0.5 := by
  refine ⟨?_, le_max_right (le_of_isFinite (isFinite_of_within within_half))⟩
  rcases max_choice a 0.5 with h | h <;> rw [h]
  · exact ha
  · exact within_mono within_half le

end Size

end Geospatial.Scalar
