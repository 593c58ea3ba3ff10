import Mathlib
import Geospatial.Proofs.Scalar.DoubleReach
import Geospatial.Proofs.Scalar.Rounding

/-! The laws of size for doubles. Whole numbers are rounded where they are long. Sine, cosine and
the angle of a point are the platform's, and take part by the ranges that they keep to. -/
namespace Geospatial.Double

open Float.Model (UnpackedFloat Format)

theorem hasRounded_ofNat (n : ℕ) :
    HasRounded (stored (UnpackedFloat.ofNat .binary64 n)) ↑(n : ℝ) :=
  hasRounded_normalize .positive (by simp) (Nat.cast_nonneg n)

/-- A whole number without a power of ten is shifted before it is rounded. -/
theorem hasRounded_scientific (n : ℕ) :
    HasRounded (stored (UnpackedFloat.ofScientific .binary64 n 0)) ↑(n : ℝ) := by
  have least : (0 : ℤ) ≤ 2 ^ Format.binary64.exponentBits := by positivity
  have bits : Format.binary64.mantissaBits = 53 := rfl
  unfold UnpackedFloat.ofScientific
  split
  · rename_i zero
    rw [zero, Nat.cast_zero]
    exact hasRounded_zero .positive
  · rename_i nonzero
    have positive : 0 < n := Nat.pos_of_ne_zero nonzero
    rw [if_neg (by decide), if_neg (by omega), if_pos le_rfl]
    have shifted : 0 < n <<< Format.binary64.mantissaBits := by
      rw [Nat.shiftLeft_eq]
      positivity
    have one : 0 < 10 ^ (0 : ℤ).toNat := by positivity
    have product := @hasRounded_product _ _ (-Format.binary64.mantissaBits) 0 shifted one (by
      rw [targetExponent_eq, Int.toNat_zero, pow_zero, Nat.mul_one, log2_shiftLeft positive]
      omega)
    have exact : magnitude (n <<< Format.binary64.mantissaBits) (-Format.binary64.mantissaBits) *
        magnitude (10 ^ (0 : ℤ).toNat) 0 = n := by
      have same := magnitude_shiftLeft n (e := 0) (f := -Format.binary64.mantissaBits) (by omega)
      rw [zero_sub, neg_neg, Int.toNat_natCast] at same
      rw [same]
      simp [magnitude]
    rw [exact] at product
    exact product

/-- Rounding keeps to powers of two, and to zero. -/
theorem exists_between {u : UnpackedFloat} {x : ℝ} {k : ℤ} (rounded : HasRounded u ↑x)
    (nonneg : 0 ≤ x) (low : 0 ≤ k) (high : k ≤ 1023) (bound : x ≤ 2 ^ k) :
    ∃ r : ℝ, value u = some ↑r ∧ 0 ≤ r ∧ r ≤ 2 ^ k ∧ (1 ≤ x → 1 ≤ r) := by
  obtain ⟨r, near, here⟩ := rounded
  have le : r ≤ ↑(2 ^ k : ℝ) :=
    near.mono (roundsTo_pow (by omega) high) (EReal.coe_le_coe_iff.mpr bound)
  have ge : 0 ≤ r := by
    obtain ⟨z, zero, same⟩ := hasRounded_zero .positive
    obtain rfl : 0 = z := Option.some.inj same
    exact zero.mono near (EReal.coe_le_coe_iff.mpr nonneg)
  lift r to ℝ using
    ⟨(le.trans_lt (EReal.coe_lt_top _)).ne, (EReal.bot_lt_zero.trans_le ge).ne'⟩
  refine ⟨r, here, EReal.coe_nonneg.mp ge, EReal.coe_le_coe_iff.mp le, fun whole => ?_⟩
  have least : ((1 : ℝ) : EReal) ≤ ↑r := by
    have one := roundsTo_pow (k := 0) (by norm_num) (by norm_num)
    rw [zpow_zero] at one
    exact one.mono near (EReal.coe_le_coe_iff.mpr whole)
  exact EReal.coe_le_coe_iff.mp least

theorem value_one : valueOf (Float.ofBits 0x3FF0000000000000) = some ↑(1 : ℝ) := by
  have power : IsPower .positive 0 (Float.ofBits 0x3FF0000000000000) := rfl
  simpa using power.value_positive

/-- A count is a double that is no less than one, unless it is zero. -/
theorem exists_natCast {n : ℕ} (word : n < 2 ^ 64) :
    ∃ r : ℝ, valueOf (Float.ofNat n) = some ↑r ∧ 0 ≤ r ∧ r ≤ 2 ^ (64 : ℤ) ∧ (0 < n → 1 ≤ r) := by
  have nonneg : (0 : ℝ) ≤ n := Nat.cast_nonneg n
  have whole (counted : 0 < n) : (1 : ℝ) ≤ n := Nat.one_le_cast.mpr counted
  have bound : (n : ℝ) ≤ 2 ^ (64 : ℤ) := by exact_mod_cast word.le
  have unfolded : Float.ofNat n = Float.ofScientific n false 0 := rfl
  rw [unfolded, Float.ofScientific]
  split
  · rename_i few
    have exact : n.toUInt64.toNat = n := by
      simp
      omega
    have converted : HasRounded n.toUInt64.toFloat.toModel.unpack ↑(n : ℝ) := by
      change HasRounded (stored (UnpackedFloat.ofNat .binary64 n.toUInt64.toNat)) ↑(n : ℝ)
      rw [exact]
      exact hasRounded_ofNat n
    obtain ⟨r, hr, above, below, least⟩ := exists_between converted nonneg (by norm_num)
      (by norm_num) bound
    have product := hasRounded_mul (canonical_unpack _) (canonical_unpack _) hr value_one above
      zero_le_one
    rw [mul_one] at product
    obtain ⟨s, hs, above, below, least'⟩ := exists_between product above (by norm_num) (by norm_num)
      below
    exact ⟨s, hs, above, below, fun counted => least' (least (whole counted))⟩
  · obtain ⟨r, hr, above, below, least⟩ := exists_between (hasRounded_scientific n) nonneg
      (by norm_num) (by norm_num) bound
    exact ⟨r, hr, above, below, fun counted => least (whole counted)⟩

/-- Functions of an angle, and the angle of a point, as a platform has them. -/
structure Trigonometry where
  sin : Float → Float
  cos : Float → Float
  atan2 : Float → Float → Float

/-- Sine and cosine are at most one in size and angles at most a half turn, here no more than four.
-/
structure Trigonometry.Bounded (t : Trigonometry) : Prop where
  sin {a : Float} : a.isFinite = true → Within 0 (t.sin a)
  cos {a : Float} : a.isFinite = true → Within 0 (t.cos a)
  atan2 {a b : Float} : a.isFinite = true → b.isFinite = true → Within 2 (t.atan2 a b)

/-- Doubles with the given functions of angles. -/
@[reducible] def doubles (t : Trigonometry) : Scalar Float :=
  { (inferInstance : Scalar Float) with sin := t.sin, cos := t.cos, atan2 := t.atan2 }

section

variable {j k : ℤ} {a b : Float} {x y : ℝ}

theorem within_div_of_le (ha : valueOf a = some ↑x) (hb : valueOf b = some ↑y) (nonzero : y ≠ 0)
    (low : -1022 ≤ k) (high : k ≤ 1023) (bound : |x / y| ≤ 2 ^ k) : Within k (a / b) := by
  refine .of_hasRounded low high bound ?_
  have rounded := hasRounded_div (canonical_abs (canonical_unpack _)) (value_abs ha) (value_abs hb)
    (abs_nonneg x) (abs_pos.mpr nonzero)
  rw [← abs_div_eq, ← abs_stored, ← abs_div] at rounded
  exact rounded

theorem within_div_cast {n : ℕ} (ha : Within k a) (low : 0 ≤ k) (high : k ≤ 1023) (counted : 0 < n)
    (word : n < 2 ^ 64) : Within k (a / Float.ofNat n) := by
  obtain ⟨x, hx, bound⟩ := ha
  obtain ⟨r, hr, -, -, least⟩ := exists_natCast word
  have one := least counted
  refine within_div_of_le hx hr (by linarith) (by omega) high ?_
  rw [abs_div, abs_of_pos (by linarith : 0 < r)]
  exact (div_le_self (abs_nonneg x) one).trans bound

theorem value_half : valueOf 0.5 = some ↑(2⁻¹ : ℝ) := by
  have power : IsPower .positive (-1) 0.5 := rfl
  rw [power.value_positive, zpow_neg_one]

theorem within_div_half (ha : Within k a) (low : 0 ≤ k) (high : k < 1023) (hb : Within j b)
    (half : 0.5 ≤ b) : Within (k + 1) (a / b) := by
  obtain ⟨x, hx, bound⟩ := ha
  obtain ⟨y, hy, -⟩ := hb
  have least : 2⁻¹ ≤ y := (le_iff_real value_half hy).mp half
  have positive : 0 < y := lt_of_lt_of_le (by norm_num) least
  refine within_div_of_le hx hy positive.ne' (by omega) (by omega) ?_
  rw [abs_div, abs_of_pos positive, div_le_iff₀ positive, zpow_add_one₀ two_ne_zero]
  have unit : (0 : ℝ) < 2 ^ k := zpow_pos two_pos k
  nlinarith

theorem value_neg_of (here : valueOf a = some ↑x) : valueOf (-a) = some ↑(-x) := by
  have canonical := canonical_unpack a.toModel.toBits.toBitVec
  have bounded := bounded_unpack a.toModel.toBits.toBitVec
  change Canonical a.toModel.unpack at canonical
  change Bounded a.toModel.unpack at bounded
  change value (stored a.toModel.unpack.neg) = _
  rw [← value_neg here]
  rcases real_cases here with ⟨s, zero, -⟩ | ⟨s, m, e, h, finite, -⟩
  · rw [zero]
    cases s <;> rfl
  · rw [finite] at canonical bounded ⊢
    exact congrArg value (stored_finite canonical bounded)

theorem beq_iff_real (ha : valueOf a = some ↑x) (hb : valueOf b = some ↑y) :
    (a == b) = true ↔ x = y := by
  refine Scalar.beq_iff.trans ?_
  rw [le_iff_real ha hb, le_iff_real hb ha, le_antisymm_iff]

theorem beq_of_sub (ha : Within 1022 a) (hb : Within 1022 b) (level : (a - b == 0) = true) :
    (a == b) = true := by
  obtain ⟨x, hx, boundx⟩ := ha
  obtain ⟨y, hy, boundy⟩ := hb
  have fits : |x - y| ≤ 2 ^ (1023 : ℤ) :=
    le_zpow_succ (k := 1022) le_rfl ((abs_sub x y).trans (by linarith only [boundx, boundy]))
  obtain ⟨r, hr, close⟩ := near_sub hx hy fits
  obtain rfl := (beq_iff_real hr value_zero).mp level
  rw [beq_iff_real hx hy]
  obtain ⟨m, rfl⟩ := exists_multiple hx
  obtain ⟨n, rfl⟩ := exists_multiple hy
  have unit : (0 : ℝ) < 2 ^ (-1074 : ℤ) := zpow_pos two_pos _
  have half : (2 : ℝ) ^ (-1074 : ℤ) = 2 ^ (-1075 : ℤ) * 2 := zpow_add_one₀ two_ne_zero (-1075)
  rw [zero_sub, abs_neg, slack, ← sub_mul, abs_mul, abs_of_pos unit] at close
  have few : |(m : ℝ) - n| < 1 := by
    by_contra! many
    have share := mul_le_mul_of_nonneg_right many unit.le
    linarith
  have same : m - n = 0 := Int.abs_lt_one_iff.mp (by exact_mod_cast few)
  rw [sub_eq_zero.mp same]

theorem hypot_pos (ha : Within 1020 a) (hb : Within 1020 b) (apart : (a == 0 && b == 0) = false) :
    0 < hypot a b := by
  obtain ⟨x, hx, boundx⟩ := ha
  obtain ⟨y, hy, boundy⟩ := hb
  obtain ⟨l, hl, lo, lo'⟩ := exists_hypot hx hy boundx boundy
  rw [lt_iff_real value_zero hl]
  by_contra! short
  have zero : x = 0 ∧ y = 0 := by
    constructor <;> rw [← abs_nonpos_iff] <;> linarith
  rw [(beq_iff_real hx value_zero).mpr zero.1, (beq_iff_real hy value_zero).mpr zero.2] at apart
  contradiction

theorem within_legs (ha : Within 1020 a) (hb : Within 1020 b) (long : 0 < hypot a b) :
    Within 2 (a / hypot a b) ∧ Within 2 (b / hypot a b) ∧ Within 2 (-b / hypot a b) := by
  obtain ⟨x, hx, boundx⟩ := ha
  obtain ⟨y, hy, boundy⟩ := hb
  obtain ⟨l, hl, lo, lo'⟩ := exists_hypot hx hy boundx boundy
  have positive : 0 < l := (lt_iff_real value_zero hl).mp long
  have leg {c : Float} {z : ℝ} (hz : valueOf c = some ↑z) (le : |z| ≤ 4 * l) :
      Within 2 (c / hypot a b) := by
    refine within_div_of_le hz hl positive.ne' (by norm_num) (by norm_num) ?_
    rw [abs_div, abs_of_pos positive, div_le_iff₀ positive]
    exact le.trans_eq (by norm_num)
  exact ⟨leg hx lo, leg hy lo', leg (value_neg_of hy) ((abs_neg y).trans_le lo')⟩

end

theorem isFinite_of_within {k : ℤ} {a : Float} (ha : Within k a) : a.isFinite = true :=
  ha.unpack_finite

theorem within_natCast {n : ℕ} (word : n < 2 ^ 64) : Within 64 (Float.ofNat n) := by
  obtain ⟨r, hr, nonneg, bound, -⟩ := exists_natCast word
  exact ⟨r, hr, (abs_of_nonneg nonneg).trans_le bound⟩

theorem within_half : Within (-1) 0.5 := IsPower.within rfl

theorem within_one : Within 0 (1 : Float) := IsPower.within rfl

theorem within_neg_one : Within 0 (-1 : Float) :=
  ⟨-2 ^ (0 : ℤ), IsPower.value_negative rfl, by norm_num⟩

theorem within_pi : Within 2 (Scalar.pi : Float) := by
  have four : Within 2 4 := IsPower.within rfl
  exact four.of_le (by decide +kernel) (by decide +kernel)

theorem small_pos : (0 : Float) < 1e-12 := by decide +kernel

theorem lawfulOrder_doubles (t : Trigonometry) : @Scalar.LawfulOrder Float (doubles t) :=
  let h : Scalar.LawfulOrder Float := inferInstance
  @Scalar.LawfulOrder.mk Float (doubles t) h.le_trans h.le_total h.le_left h.le_right h.lt_iff
    h.beq_iff h.le_of_isFinite

@[reducible] def sizesOfDoubles (t : Trigonometry) (bounded : t.Bounded) :
    @Scalar.LawfulSize Float (doubles t) :=
  letI := doubles t
  { lawfulOrder_doubles t with
    Within := Within
    isFinite_of_within := isFinite_of_within
    within_mono := Within.mono
    within_one := within_one
    within_neg_one := within_neg_one
    within_half := within_half
    within_pi := within_pi
    within_cast := within_natCast
    within_add := fun ha hb low high => by simpa using ha.add hb (by omega)
    within_sub := fun ha hb low high => by simpa using ha.sub hb (by omega)
    within_mul := fun ha hb low high => ha.mul hb (by omega)
    within_div_cast := within_div_cast
    within_div_half := within_div_half
    beq_of_sub := beq_of_sub
    hypot_number := hypot_number
    hypot_pos := hypot_pos
    within_legs := within_legs
    small_pos := small_pos
    within_sin := bounded.sin
    within_cos := bounded.cos
    within_atan2 := bounded.atan2 }

end Geospatial.Double
