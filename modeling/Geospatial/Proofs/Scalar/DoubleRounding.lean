import Mathlib
import Geospatial.Proofs.Scalar.DoubleValue

/-! The rounding of doubles. A significand is cut at the exponent that fits the value, rounded to
the nearest, and shifted once more where that has lengthened it; what comes out is the value that
the exact one is rounded to, or infinite where that overflows. -/
namespace Geospatial.Double

open Float.Model (UnpackedFloat Format totalExponent)
open Float.Model.UnpackedFloat (Accuracy ExtendedMantissa Sign shiftToTargetExponent roundWithAccuracy)

theorem targetExponent_eq (m : ℕ) (e : ℤ) : Format.binary64.targetExponent (totalExponent m e) =
    max (m.log2 + 1 + e - 53) (-1074) := rfl

theorem mantissa_ofMantissaAndAccuracy (m : ℕ) (accuracy : Accuracy) :
    (ExtendedMantissa.ofMantissaAndAccuracy m accuracy).mantissa = m := by
  rcases accuracy with _ | _ | _ | _ <;> rfl

/-- The exponent is chosen by the length of the significand. -/
theorem fits_targetExponent {m : ℕ} {e : ℤ} {accuracy : Accuracy} {x : ℝ} (positive : 0 < m)
    (exact : Truncates (.ofMantissaAndAccuracy m accuracy) (x / 2 ^ e)) :
    Fits x (Format.binary64.targetExponent (totalExponent m e)) := by
  obtain ⟨low, high⟩ := exact.bounds
  rw [mantissa_ofMantissaAndAccuracy] at low high
  have unit : (0 : ℝ) < 2 ^ e := zpow_pos two_pos e
  rw [le_div_iff₀ unit] at low
  rw [div_lt_iff₀ unit] at high
  have split (k : ℕ) : (2 : ℝ) ^ (k + e) = 2 ^ k * 2 ^ e := by
    rw [zpow_add₀ two_ne_zero, zpow_natCast]
  have shift (k : ℕ) (t : ℤ) : (2 : ℝ) ^ k * 2 ^ t = 2 ^ (k + t) := by
    rw [zpow_add₀ two_ne_zero, zpow_natCast]
  rw [targetExponent_eq]
  have leading : (2 : ℝ) ^ m.log2 ≤ m := by exact_mod_cast Nat.log2_self_le positive.ne'
  have length : (m : ℝ) + 1 ≤ 2 ^ (m.log2 + 1) := by exact_mod_cast Nat.lt_log2_self
  constructor
  · exact le_max_right _ _
  · calc x < (m + 1) * 2 ^ e := high
      _ ≤ 2 ^ (m.log2 + 1) * 2 ^ e := mul_le_mul_of_nonneg_right length unit.le
      _ ≤ 2 ^ 53 * 2 ^ max ((m.log2 : ℤ) + 1 + e - 53) (-1074) := by
        rw [shift, shift]
        exact zpow_le_zpow_right₀ one_le_two (by push_cast; omega)
  · rcases max_choice ((m.log2 : ℤ) + 1 + e - 53) (-1074) with chosen | chosen <;> rw [chosen]
    · right
      calc (2 : ℝ) ^ 52 * 2 ^ ((m.log2 : ℤ) + 1 + e - 53) = 2 ^ m.log2 * 2 ^ e := by
            rw [shift, shift]
            congr 1
            push_cast
            ring
        _ ≤ m * 2 ^ e := mul_le_mul_of_nonneg_right leading unit.le
        _ ≤ x := low
    · exact .inl rfl

theorem shiftToTargetExponent_eq {m : ℕ} {e : ℤ} (accuracy : Accuracy)
    (fine : e ≤ Format.binary64.targetExponent (totalExponent m e)) :
    shiftToTargetExponent .binary64 m e accuracy =
      (ExtendedMantissa.ofMantissaAndAccuracy m accuracy >>>
          (Format.binary64.targetExponent (totalExponent m e) - e).toNat,
        Format.binary64.targetExponent (totalExponent m e)) := by
  refine Prod.ext rfl ?_
  change e + ((Format.binary64.targetExponent (totalExponent m e) - e).toNat : ℤ) = _
  omega

/-- A significand that is short enough stays as it is. -/
theorem shiftToTargetExponent_short {n : ℕ} {t : ℤ} (short : n < 2 ^ 53) (least : -1074 ≤ t) :
    shiftToTargetExponent .binary64 n t .exact = (⟨n, false, false⟩, t) := by
  have length : n.log2 ≤ 52 := by
    rcases Nat.eq_zero_or_pos n with rfl | positive
    · decide
    · exact Nat.le_of_lt_succ ((Nat.log2_lt positive.ne').mpr short)
  have level : (Format.binary64.targetExponent (totalExponent n t) - t).toNat = 0 := by
    rw [targetExponent_eq]
    omega
  rw [shiftToTargetExponent, Float.Model.UnpackedFloat.shiftToExponent, level]
  exact Prod.ext rfl (add_zero t)

/-- A significand that was rounded up to the next length loses its last bit, a zero. -/
theorem shiftToTargetExponent_carry {t : ℤ} (least : -1074 ≤ t) :
    shiftToTargetExponent .binary64 (2 ^ 53) t .exact = (⟨2 ^ 52, false, false⟩, t + 1) := by
  have next : Format.binary64.targetExponent (totalExponent (2 ^ 53) t) = t + 1 := by
    rw [targetExponent_eq, Nat.log2_two_pow]
    omega
  rw [shiftToTargetExponent_eq .exact (by omega), next, add_sub_cancel_left]
  rfl

/-- The result of rounding is a canonical value, the nearest to the exact one. -/
theorem exists_rounds {m : ℕ} {e : ℤ} {accuracy : Accuracy} {x : ℝ}
    (fits : Fits x (Format.binary64.targetExponent (totalExponent m e)))
    (exact : Truncates (.ofMantissaAndAccuracy m accuracy) (x / 2 ^ e))
    (fine : e ≤ Format.binary64.targetExponent (totalExponent m e)) :
    ∃ r, Rounds x r ∧ 0 ≤ r ∧ Canonical (roundWithAccuracy .binary64 .positive m e accuracy) ∧
      value (roundWithAccuracy .binary64 .positive m e accuracy) = some ↑r := by
  have near := (exact.shiftRight
    (Format.binary64.targetExponent (totalExponent m e) - e).toNat).nearest
  unfold roundWithAccuracy
  rw [shiftToTargetExponent_eq accuracy fine]
  dsimp only
  generalize Format.binary64.targetExponent (totalExponent m e) = t at *
  have scale : x / 2 ^ e / 2 ^ (t - e).toNat = x / 2 ^ t := by
    rw [div_div, ← zpow_natCast, Int.toNat_of_nonneg (by omega), ← zpow_add₀ two_ne_zero,
      add_sub_cancel]
  rw [scale] at near
  generalize (ExtendedMantissa.ofMantissaAndAccuracy m accuracy >>> (t - e).toNat).roundedMantissa =
    n at *
  have small := fits.nearest_le near
  have great := fits.le_nearest near
  have least := fits.least
  refine ⟨n * 2 ^ t, .intro fits near, by positivity, ?_⟩
  rcases small.lt_or_eq with short | rfl
  · rw [shiftToTargetExponent_short short least]
    dsimp only
    split
    · rename_i zero
      subst zero
      exact ⟨trivial, by simp [value]⟩
    · exact ⟨⟨short, least, great⟩, rfl⟩
  · rw [shiftToTargetExponent_carry least]
    refine ⟨⟨by norm_num, by omega, .inr le_rfl⟩, ?_⟩
    change some (↑(magnitude (2 ^ 52) (t + 1)) : EReal) = _
    rw [magnitude, zpow_add_one₀ two_ne_zero]
    congr 2
    push_cast
    ring

/-- What a double has of a value that is rounded; what is too great is infinite. -/
inductive RoundsTo : EReal → EReal → Prop where
  | infinite : RoundsTo ⊤ ⊤
  | finite {x r : ℝ} : Rounds x r → RoundsTo ↑x (overflow r)

theorem RoundsTo.mono {x y r s : EReal} (hx : RoundsTo x r) (hy : RoundsTo y s) (le : x ≤ y) :
    r ≤ s := by
  cases hy with
  | infinite => exact le_top
  | finite near' =>
    cases hx with
    | infinite => exact absurd le (not_le.mpr (EReal.coe_lt_top _))
    | finite near => exact overflow_mono (near.mono near' (EReal.coe_le_coe_iff.mp le))

/-- The double `u` has the value that `x` is rounded to. -/
def HasRounded (u : UnpackedFloat) (x : EReal) : Prop := ∃ r, RoundsTo x r ∧ value u = some r

theorem hasRounded_of_fits {m : ℕ} {e : ℤ} {accuracy : Accuracy} {x : ℝ}
    (fits : Fits x (Format.binary64.targetExponent (totalExponent m e)))
    (exact : Truncates (.ofMantissaAndAccuracy m accuracy) (x / 2 ^ e))
    (fine : e ≤ Format.binary64.targetExponent (totalExponent m e)) :
    HasRounded (stored (roundWithAccuracy .binary64 .positive m e accuracy)) ↑x := by
  obtain ⟨r, near, nonneg, canonical, here⟩ := exists_rounds fits exact fine
  exact ⟨overflow r, .finite near, value_stored canonical nonneg here⟩

theorem hasRounded_roundWithAccuracy {m : ℕ} {e : ℤ} {accuracy : Accuracy} {x : ℝ} (positive : 0 < m)
    (exact : Truncates (.ofMantissaAndAccuracy m accuracy) (x / 2 ^ e))
    (fine : e ≤ Format.binary64.targetExponent (totalExponent m e)) :
    HasRounded (stored (roundWithAccuracy .binary64 .positive m e accuracy)) ↑x :=
  hasRounded_of_fits (fits_targetExponent positive exact) exact fine

theorem hasRounded_zero (s : Sign) : HasRounded (stored (.zero s)) ↑(0 : ℝ) := by
  have near : Rounds 0 ((0 : ℕ) * 2 ^ (-1074 : ℤ)) := by
    refine .intro ⟨le_rfl, by positivity, .inl rfl⟩ ?_
    simpa using nearest_natCast 0
  rw [Nat.cast_zero, zero_mul] at near
  exact ⟨_, .finite near, value_stored (f := .zero s) trivial le_rfl rfl⟩

theorem hasRounded_canonical {s : Sign} {m : ℕ} {e : ℤ} {h : 0 < m}
    (c : Canonical (.finite s m e h)) :
    HasRounded (stored (.finite .positive m e h)) ↑(magnitude m e) := by
  have near : Rounds (magnitude m e) (m * 2 ^ e) := by
    refine .intro (fits_of_canonical c) ?_
    rw [magnitude, mul_div_cancel_right₀ _ (zpow_ne_zero e two_ne_zero)]
    exact nearest_natCast m
  exact ⟨_, .finite near,
    value_stored (f := .finite .positive m e h) c (magnitude_pos h e).le rfl⟩

/-- A significand that is shifted to a lesser exponent has the same value. -/
theorem magnitude_shiftLeft (m : ℕ) {e f : ℤ} (le : f ≤ e) :
    magnitude (m <<< (e - f).toNat) f = magnitude m e := by
  rw [magnitude, magnitude, Nat.shiftLeft_eq, Nat.cast_mul, Nat.cast_pow, Nat.cast_ofNat,
    ← zpow_natCast, Int.toNat_of_nonneg (by omega), mul_assoc, ← zpow_add₀ two_ne_zero,
    sub_add_cancel]

theorem log2_shiftLeft {m : ℕ} (positive : 0 < m) (k : ℕ) : (m <<< k).log2 = m.log2 + k := by
  rw [Nat.shiftLeft_eq, Nat.log2_eq_iff (by positivity), pow_add, Nat.add_right_comm, pow_add]
  have unit : 0 < 2 ^ k := by positivity
  exact ⟨Nat.mul_le_mul_right _ (Nat.log2_self_le positive.ne'),
    (Nat.mul_lt_mul_right unit).mpr Nat.lt_log2_self⟩

theorem hasRounded_round {m : ℕ} (positive : 0 < m) (e : ℤ) :
    HasRounded (stored (UnpackedFloat.round .binary64 .positive m e)) ↑(magnitude m e) := by
  unfold UnpackedFloat.round UnpackedFloat.decreaseExponent
  dsimp only
  generalize places : (e - Format.binary64.targetExponent (totalExponent m e)).toNat = k
  have length := log2_shiftLeft positive k
  refine hasRounded_roundWithAccuracy ?_ ?_ ?_
  · rw [Nat.shiftLeft_eq]
    positivity
  · have same := magnitude_shiftLeft m (e := e) (f := e - k) (by omega)
    rw [sub_sub_cancel, Int.toNat_natCast, magnitude] at same
    rw [← same, mul_div_cancel_right₀ _ (zpow_ne_zero _ two_ne_zero)]
    rfl
  · rw [targetExponent_eq] at places ⊢
    omega

theorem hasRounded_normalize {n : ℤ} {e : ℤ} {x : ℝ} (z : Sign) (exact : n * 2 ^ e = x)
    (nonneg : 0 ≤ x) : HasRounded (stored (UnpackedFloat.normalize .binary64 n e z)) ↑x := by
  have unit : (0 : ℝ) < 2 ^ e := zpow_pos two_pos e
  have whole : 0 ≤ n := by
    rw [← exact, mul_nonneg_iff_of_pos_right unit] at nonneg
    exact_mod_cast nonneg
  subst exact
  rcases whole.eq_or_lt with rfl | positive
  · rw [Int.cast_zero, zero_mul]
    exact hasRounded_zero z
  · lift n to ℕ using whole
    have positive : 0 < n := by exact_mod_cast positive
    have result : UnpackedFloat.normalize .binary64 n e z =
        UnpackedFloat.round .binary64 .positive n e := by
      rw [UnpackedFloat.normalize, compare_gt_iff_gt.mpr (by exact_mod_cast positive)]
      rfl
    rw [result, Int.cast_natCast]
    exact hasRounded_round positive e

end Geospatial.Double
