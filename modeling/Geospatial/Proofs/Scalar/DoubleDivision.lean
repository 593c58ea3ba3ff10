import Mathlib
import Geospatial.Proofs.Scalar.DoubleError

/-! The division of doubles. The quotient of the significands is taken with enough bits to be
rounded, or down to the least positive double; what is left over tells the rest. -/
namespace Geospatial.Double

open Float.Model (UnpackedFloat Format totalExponent)
open Float.Model.UnpackedFloat (Sign accuracyOfFraction)

/-- Whether a quotient lies before or after the middle of two whole numbers is told by twice its
remainder. -/
theorem truncates_div (n : ℕ) {k : ℕ} (positive : 0 < k) :
    Truncates (.ofMantissaAndAccuracy (n / k) (accuracyOfFraction (n % k) k)) (n / k : ℝ) := by
  have unit : (0 : ℝ) < k := Nat.cast_pos.mpr positive
  have split : (n : ℝ) = k * (n / k : ℕ) + (n % k : ℕ) := by
    exact_mod_cast (Nat.div_add_mod n k).symm
  have short : n % k < k := Nat.mod_lt n positive
  generalize n / k = q at *
  generalize n % k = r at *
  have whole : (n : ℝ) / k = q + r / k := by
    rw [split, add_div, mul_div_cancel_left₀ _ unit.ne']
  rw [whole, accuracyOfFraction]
  split
  · rename_i level
    rw [level]
    change (q : ℝ) + (0 : ℕ) / k = q
    simp
  · rename_i rest
    have positive : (0 : ℝ) < r / k := div_pos (Nat.cast_pos.mpr (Nat.pos_of_ne_zero rest)) unit
    have below : (r : ℝ) / k < 1 := (div_lt_one unit).mpr (Nat.cast_lt.mpr short)
    cases order : compare (2 * r) k with
    | lt =>
      have half : (r : ℝ) / k < 1 / 2 := by
        rw [div_lt_div_iff₀ unit two_pos, one_mul, mul_comm]
        exact_mod_cast compare_lt_iff_lt.mp order
      change (q : ℝ) < q + r / k ∧ (q : ℝ) + r / k < q + 1 / 2
      constructor <;> linarith
    | eq =>
      have half : (r : ℝ) / k = 1 / 2 := by
        rw [div_eq_div_iff unit.ne' two_ne_zero, one_mul, mul_comm]
        exact_mod_cast compare_eq_iff_eq.mp order
      change (q : ℝ) + r / k = q + 1 / 2
      rw [half]
    | gt =>
      have half : 1 / 2 < (r : ℝ) / k := by
        rw [div_lt_div_iff₀ two_pos unit, one_mul, mul_comm _ (2 : ℝ)]
        exact_mod_cast compare_gt_iff_gt.mp order
      change (q : ℝ) + 1 / 2 < q + r / k ∧ (q : ℝ) + r / k < q + 1
      constructor <;> linarith

section

variable {m m' : ℕ} {e e' : ℤ}

/-- The exponent of the quotient before it is rounded. -/
def quotientExponent (m : ℕ) (e : ℤ) (m' : ℕ) (e' : ℤ) : ℤ :=
  min (e - e') (Format.binary64.targetExponent (totalExponent m e - totalExponent m' e'))

/-- The quotient has all the bits there are, or reaches down to the least positive double. -/
theorem quotient_long (h : 0 < m) (h' : 0 < m') (bound : m < 2 ^ 53) :
    quotientExponent m e m' e' ≤ -1074 ∨
      2 ^ 52 ≤ (m <<< (e - e' - quotientExponent m e m' e').toNat) / m' := by
  have target : Format.binary64.targetExponent (totalExponent m e - totalExponent m' e') =
      max (m.log2 + 1 + e - (m'.log2 + 1 + e') - 53) (-1074) := rfl
  have length : m.log2 < 53 := (Nat.log2_lt h.ne').mpr bound
  rw [quotientExponent, target]
  rcases le_or_gt (min (e - e') (max (m.log2 + 1 + e - (m'.log2 + 1 + e') - 53) (-1074))) (-1074)
    with least | more
  · exact .inl least
  · right
    have shift : (e - e' - min (e - e') (max (m.log2 + 1 + e - (m'.log2 + 1 + e') - 53)
        (-1074))).toNat + m.log2 = m'.log2 + 53 := by omega
    generalize (e - e' - min (e - e') (max (m.log2 + 1 + e - (m'.log2 + 1 + e') - 53)
      (-1074))).toNat = k at shift
    rw [Nat.le_div_iff_mul_le h', Nat.shiftLeft_eq]
    calc 2 ^ 52 * m' ≤ 2 ^ 52 * 2 ^ (m'.log2 + 1) :=
          Nat.mul_le_mul_left _ Nat.lt_log2_self.le
      _ = 2 ^ m.log2 * 2 ^ k := by rw [← pow_add, ← pow_add]; congr 1; omega
      _ ≤ m * 2 ^ k := Nat.mul_le_mul_right _ (Nat.log2_self_le h.ne')

theorem quotient_eq (h' : 0 < m') : magnitude m e / magnitude m' e' /
      2 ^ quotientExponent m e m' e' =
    ((m <<< (e - e' - quotientExponent m e m' e').toNat : ℕ) : ℝ) / m' := by
  have fine : quotientExponent m e m' e' ≤ e - e' := min_le_left _ _
  generalize quotientExponent m e m' e' = t at *
  have exact := magnitude_shiftLeft m (e := e) (f := e' + t) (by omega)
  rw [← exact, ← sub_sub, magnitude, magnitude, zpow_add₀ two_ne_zero]
  have unit : (2 : ℝ) ^ t ≠ 0 := zpow_ne_zero t two_ne_zero
  have unit' : (2 : ℝ) ^ e' ≠ 0 := zpow_ne_zero e' two_ne_zero
  have apart : (m' : ℝ) ≠ 0 := Nat.cast_ne_zero.mpr h'.ne'
  field_simp

theorem hasRounded_quotient (h : 0 < m) (h' : 0 < m') (bound : m < 2 ^ 53) :
    HasRounded (stored (UnpackedFloat.div .binary64 (.finite .positive m e h)
      (.finite .positive m' e' h'))) ↑(magnitude m e / magnitude m' e') := by
  have long := @quotient_long m m' e e' h h' bound
  have exact := @quotient_eq m m' e e' h'
  have result : UnpackedFloat.div .binary64 (.finite .positive m e h) (.finite .positive m' e' h') =
      UnpackedFloat.roundWithAccuracy .binary64 .positive
        ((m <<< (e - e' - quotientExponent m e m' e').toNat) / m') (quotientExponent m e m' e')
        (accuracyOfFraction ((m <<< (e - e' - quotientExponent m e m' e').toNat) % m') m') := rfl
  rw [result]
  have truncates := truncates_div (m <<< (e - e' - quotientExponent m e m' e').toNat) h'
  rw [← exact] at truncates
  generalize quotientExponent m e m' e' = t at *
  generalize accuracyOfFraction _ m' = accuracy at *
  generalize (m <<< (e - e' - t).toNat) / m' = q at *
  rcases Nat.eq_zero_or_pos q with rfl | positive
  · have least : t ≤ -1074 := long.resolve_right (by norm_num)
    have target : Format.binary64.targetExponent (totalExponent 0 t) = -1074 := by
      rw [targetExponent_eq, Nat.log2_zero]
      omega
    refine hasRounded_of_fits ?_ truncates (by omega)
    rw [target]
    refine ⟨le_rfl, ?_, .inl rfl⟩
    have below := truncates.bounds.2
    rw [mantissa_ofMantissaAndAccuracy, Nat.cast_zero, zero_add, div_lt_one (zpow_pos two_pos t)]
      at below
    calc magnitude m e / magnitude m' e' < 2 ^ t := below
      _ ≤ 2 ^ (-1074 : ℤ) := zpow_le_zpow_right₀ one_le_two least
      _ ≤ 2 ^ 53 * 2 ^ (-1074 : ℤ) := le_mul_of_one_le_left (zpow_pos two_pos _).le (by norm_num)
  · refine hasRounded_roundWithAccuracy positive truncates ?_
    rw [targetExponent_eq]
    rcases long with least | long
    · omega
    · have := (Nat.le_log2 positive.ne').mpr long
      omega

end

section

variable {a b : UnpackedFloat} {x y : ℝ}

theorem hasRounded_div (ca : Canonical a) (ha : value a = some ↑x) (hb : value b = some ↑y)
    (hx : 0 ≤ x) (hy : 0 < y) : HasRounded (stored (UnpackedFloat.div .binary64 a b)) ↑(x / y) := by
  rcases real_cases hb with ⟨s', rfl, rfl⟩ | ⟨s', m', e', h', rfl, rfl⟩
  · exact absurd hy (lt_irrefl 0)
  · obtain rfl := eq_positive_of_signed h' hy.le
    rcases real_cases ha with ⟨s, rfl, rfl⟩ | ⟨s, m, e, h, rfl, rfl⟩
    · rw [zero_div]
      exact hasRounded_zero _
    · obtain rfl := eq_positive_of_signed h hx
      exact hasRounded_quotient h h' ca.1

theorem abs_div_eq (a b : UnpackedFloat) :
    (UnpackedFloat.div .binary64 a b).abs = UnpackedFloat.div .binary64 a.abs b.abs := by
  cases a <;> cases b <;> try rfl
  exact abs_roundWithAccuracy ..

theorem sign_div_of_real (ha : value a = some ↑x) (hb : value b = some ↑y) (nonzero : y ≠ 0) :
    sign (UnpackedFloat.div .binary64 a b) = sign a / sign b := by
  rcases real_cases hb with ⟨s', rfl, rfl⟩ | ⟨s', m', e', h', rfl, -⟩
  · exact absurd rfl nonzero
  · rcases real_cases ha with ⟨s, rfl, -⟩ | ⟨s, m, e, h, rfl, -⟩
    · rfl
    · exact sign_roundWithAccuracy ..

theorem nearTo_div (ca : Canonical a) (ha : value a = some ↑x) (hb : value b = some ↑y)
    (nonzero : y ≠ 0) (fits : |x / y| ≤ 2 ^ (1023 : ℤ)) :
    NearTo (x / y) (stored (UnpackedFloat.div .binary64 a b)) := by
  have rounded := hasRounded_div (canonical_abs ca) (value_abs ha) (value_abs hb) (abs_nonneg x)
    (abs_pos.mpr nonzero)
  rw [← abs_div_eq, ← abs_div] at rounded
  refine nearTo_stored rounded fits ?_
  rw [sign_div_of_real ha hb nonzero]
  exact (agrees_sign ha).div (agrees_sign hb)

end

end Geospatial.Double
