import Mathlib
import Geospatial.Proofs.Scalar.DoubleArithmetic

/-! The range of doubles. Apart from its sign, a result is what the size of the exact result is
rounded to. Powers of two are doubles, so that bounds by them carry over from the operands, and
what stays below the greatest of them is finite. -/
namespace Geospatial.Double

open Float.Model (UnpackedFloat Format totalExponent)
open Float.Model.UnpackedFloat (Sign Accuracy)

theorem abs_roundWithAccuracy (s : Sign) (m : ℕ) (e : ℤ) (accuracy : Accuracy) :
    (UnpackedFloat.roundWithAccuracy .binary64 s m e accuracy).abs =
      UnpackedFloat.roundWithAccuracy .binary64 .positive m e accuracy := by
  unfold UnpackedFloat.roundWithAccuracy
  dsimp only
  split <;> rfl

theorem abs_normalize (n e : ℤ) (z : Sign) : (UnpackedFloat.normalize .binary64 n e z).abs =
    UnpackedFloat.normalize .binary64 |n| e .positive := by
  have round (s : Sign) (m : ℕ) : (UnpackedFloat.round .binary64 s m e).abs =
      UnpackedFloat.round .binary64 .positive m e := abs_roundWithAccuracy ..
  unfold UnpackedFloat.normalize
  rcases lt_trichotomy n 0 with negative | rfl | positive
  · rw [compare_lt_iff_lt.mpr negative, compare_gt_iff_gt.mpr (abs_pos.mpr negative.ne)]
    dsimp only
    rw [round, abs_of_neg negative]
  · rfl
  · rw [compare_gt_iff_gt.mpr positive, compare_gt_iff_gt.mpr (abs_pos.mpr positive.ne')]
    dsimp only
    rw [round, abs_of_pos positive]

theorem abs_unpack (s : Sign) (x : BitVec 11) (m : BitVec 52) :
    (UnpackedFloat.unpack .binary64 (UnpackedFloat.packComponents .binary64 s x m)).abs =
      UnpackedFloat.unpack .binary64 (UnpackedFloat.packComponents .binary64 .positive x m) := by
  unfold UnpackedFloat.unpack
  simp only [UnpackedFloat.unpackMantissa_packComponents,
    UnpackedFloat.unpackExponent_packComponents, UnpackedFloat.unpackSign_packComponents,
    Sign.ofBitVec_toBitVec]
  split
  · split <;> rfl
  · split
    · split <;> rfl
    · rfl

theorem abs_stored (f : UnpackedFloat) : (stored f).abs = stored f.abs := by
  cases f with
  | notANumber => rfl
  | infinity s => cases s <;> rfl
  | zero s => cases s <;> rfl
  | finite s m e h =>
    rw [UnpackedFloat.abs, stored, stored, pack_finite, pack_finite]
    split
    · cases s <;> rfl
    · split <;> exact abs_unpack ..

theorem real_cases {u : UnpackedFloat} {x : ℝ} (here : value u = some ↑x) :
    (∃ s, u = .zero s ∧ x = 0) ∨ ∃ s m e h, u = .finite s m e h ∧ x = signed s m e := by
  rcases value_cases here with ⟨-, same⟩ | ⟨-, same⟩ | ⟨s, zero, same⟩ | ⟨s, m, e, h, finite, same⟩
  · exact absurd same (EReal.coe_ne_bot x)
  · exact absurd same (EReal.coe_ne_top x)
  · exact .inl ⟨s, zero, EReal.coe_eq_coe_iff.mp same⟩
  · exact .inr ⟨s, m, e, h, finite, EReal.coe_eq_coe_iff.mp same⟩

theorem abs_signed (s : Sign) {m : ℕ} (e : ℤ) (h : 0 < m) : |signed s m e| = magnitude m e := by
  cases s with
  | negative => rw [signed_negative, abs_neg, abs_of_pos (magnitude_pos h e)]
  | positive => exact abs_of_pos (magnitude_pos h e)

theorem value_abs {u : UnpackedFloat} {x : ℝ} (here : value u = some ↑x) :
    value u.abs = some ↑|x| := by
  rcases real_cases here with ⟨s, rfl, rfl⟩ | ⟨s, m, e, h, rfl, rfl⟩
  · rw [abs_zero]
    rfl
  · rw [abs_signed s e h]
    rfl

theorem value_of_abs {u : UnpackedFloat} {r : EReal} (here : value u.abs = some r)
    (finite : r < ⊤) : ∃ x : ℝ, value u = some ↑x ∧ r = ↑|x| := by
  cases u with
  | notANumber => contradiction
  | infinity s => exact absurd (Option.some.inj here) finite.ne'
  | zero s => exact ⟨0, rfl, (Option.some.inj here).symm.trans (by rw [abs_zero]; rfl)⟩
  | finite s m e h =>
    obtain rfl : ↑(magnitude m e) = r := Option.some.inj here
    exact ⟨signed s m e, value_finite s m e h, by rw [abs_signed s e h]⟩

theorem canonical_abs {u : UnpackedFloat} (canonical : Canonical u) : Canonical u.abs := by
  cases u <;> exact canonical

theorem abs_mul_eq (a b : UnpackedFloat) :
    (UnpackedFloat.mul .binary64 a b).abs = UnpackedFloat.mul .binary64 a.abs b.abs := by
  cases a <;> cases b <;> try rfl
  exact abs_roundWithAccuracy ..

theorem hasRounded_product {m m' : ℕ} {e e' : ℤ} (h : 0 < m) (h' : 0 < m')
    (fine : e + e' ≤ Format.binary64.targetExponent (totalExponent (m * m') (e + e'))) :
    HasRounded (stored (UnpackedFloat.mul .binary64 (.finite .positive m e h)
      (.finite .positive m' e' h'))) ↑(magnitude m e * magnitude m' e') := by
  refine hasRounded_roundWithAccuracy (Nat.mul_pos h h') ?_ fine
  rw [magnitude, magnitude, zpow_add₀ two_ne_zero, mul_mul_mul_comm,
    mul_div_cancel_right₀ _ (by positivity), ← Nat.cast_mul]
  rfl

theorem hasRounded_mul {a b : UnpackedFloat} (ca : Canonical a) (cb : Canonical b) {x y : ℝ}
    (ha : value a = some ↑x) (hb : value b = some ↑y) (hx : 0 ≤ x) (hy : 0 ≤ y) :
    HasRounded (stored (UnpackedFloat.mul .binary64 a b)) ↑(x * y) := by
  rcases real_cases ha with ⟨s, rfl, rfl⟩ | ⟨s, m, e, h, rfl, rfl⟩
  · rw [zero_mul]
    rcases real_cases hb with ⟨s', rfl, rfl⟩ | ⟨s', m', e', h', rfl, rfl⟩ <;>
      exact hasRounded_zero _
  · rcases real_cases hb with ⟨s', rfl, rfl⟩ | ⟨s', m', e', h', rfl, rfl⟩
    · rw [mul_zero]
      exact hasRounded_zero _
    · obtain rfl := eq_positive_of_signed h hx
      obtain rfl := eq_positive_of_signed h' hy
      have positive : 0 < m * m' := Nat.mul_pos h h'
      rw [signed_positive, signed_positive]
      refine hasRounded_product h h' ?_
      obtain ⟨_, least, full⟩ := ca
      obtain ⟨_, least', full'⟩ := cb
      rw [targetExponent_eq]
      have length : e = -1074 ∧ e' = -1074 ∨ 52 ≤ (m * m').log2 := by
        rw [Nat.le_log2 positive.ne']
        rcases full with few | full
        · exact full'.imp (⟨few, ·⟩) fun full' => full'.trans (Nat.le_mul_of_pos_left m' h)
        · exact .inr (full.trans (Nat.le_mul_of_pos_right m h'))
      omega

theorem hasRounded_abs_add {a b : UnpackedFloat} (ca : Canonical a) (cb : Canonical b) {x y : ℝ}
    (ha : value a = some ↑x) (hb : value b = some ↑y) :
    HasRounded (stored (UnpackedFloat.add .binary64 a b)).abs ↑|x + y| := by
  rw [abs_stored]
  rcases real_cases ha with ⟨s, rfl, rfl⟩ | ⟨s, m, e, h, rfl, rfl⟩
  · rcases real_cases hb with ⟨s', rfl, rfl⟩ | ⟨s', m', e', h', rfl, rfl⟩
    · rw [add_zero, abs_zero]
      cases s <;> cases s' <;> exact hasRounded_zero .positive
    · rw [zero_add, abs_signed s' e' h']
      exact hasRounded_canonical cb
  · rcases real_cases hb with ⟨s', rfl, rfl⟩ | ⟨s', m', e', h', rfl, rfl⟩
    · rw [add_zero, abs_signed s e h]
      exact hasRounded_canonical ca
    · unfold UnpackedFloat.add
      dsimp only
      rw [abs_normalize]
      refine hasRounded_normalize _ ?_ (abs_nonneg _)
      have unit : (0 : ℝ) < 2 ^ min e e' := zpow_pos two_pos _
      rw [← signed_shiftLeft s m (min_le_left e e'), ← signed_shiftLeft s' m' (min_le_right e e'),
        ← add_mul, abs_mul, abs_of_pos unit, ← Int.cast_add, ← Int.cast_abs]
      rfl

theorem sub_eq_add (a b : UnpackedFloat) :
    UnpackedFloat.sub .binary64 a b = UnpackedFloat.add .binary64 a b.neg := by
  cases a <;> cases b <;> try rfl
  case finite.finite s m e h s' m' e' h' =>
    have opposite (n : ℤ) : (-s').apply n = -s'.apply n := by
      cases s'
      · exact (neg_neg n).symm
      · rfl
    simp only [UnpackedFloat.sub, UnpackedFloat.add, UnpackedFloat.neg, opposite, sub_eq_add_neg]

theorem value_neg {u : UnpackedFloat} {x : ℝ} (here : value u = some ↑x) :
    value u.neg = some ↑(-x) := by
  rcases real_cases here with ⟨s, rfl, rfl⟩ | ⟨s, m, e, h, rfl, rfl⟩
  · rw [neg_zero]
    rfl
  · rw [UnpackedFloat.neg, value_finite]
    cases s with
    | negative =>
      rw [signed_negative, neg_neg]
      rfl
    | positive =>
      rw [signed_positive, ← signed_negative]
      rfl

theorem canonical_neg {u : UnpackedFloat} (canonical : Canonical u) : Canonical u.neg := by
  cases u <;> exact canonical

theorem magnitude_pow (k : ℤ) : magnitude (2 ^ 52) (k - 52) = 2 ^ k := by
  rw [magnitude, Nat.cast_pow, Nat.cast_ofNat, ← zpow_natCast, ← zpow_add₀ two_ne_zero]
  congr 1
  push_cast
  ring

/-- Powers of two are not rounded, from the least normal one to the greatest. -/
theorem roundsTo_pow {k : ℤ} (low : -1022 ≤ k) (high : k ≤ 1023) :
    RoundsTo ↑(2 ^ k : ℝ) ↑(2 ^ k : ℝ) := by
  have canonical : Canonical (.finite .positive (2 ^ 52) (k - 52) (by positivity)) :=
    ⟨by norm_num, by omega, .inr le_rfl⟩
  obtain ⟨r, near, here⟩ := hasRounded_canonical canonical
  rw [stored_finite canonical (by omega)] at here
  obtain rfl : ↑(magnitude (2 ^ 52) (k - 52)) = r := Option.some.inj here
  rwa [magnitude_pow] at near

section

variable {a b c d : Float} {j k : ℤ} {x y z : ℝ}

theorem le_iff_real (ha : valueOf a = some ↑x) (hb : valueOf b = some ↑y) : a ≤ b ↔ x ≤ y := by
  rw [le_iff_value, ha, hb]
  simp

theorem value_zero : valueOf 0 = some ↑(0 : ℝ) := rfl

/-- What is between finite values is finite. -/
theorem exists_real (ha : valueOf a = some ↑x) (hc : valueOf c = some ↑z) (ab : a ≤ b)
    (bc : b ≤ c) : ∃ y : ℝ, valueOf b = some ↑y ∧ x ≤ y ∧ y ≤ z := by
  obtain ⟨_, ha', y, hb, low⟩ := (le_iff_value a b).mp ab
  obtain ⟨_, hb', _, hc', high⟩ := (le_iff_value b c).mp bc
  obtain rfl := Option.mem_unique ha ha'
  obtain rfl := Option.mem_unique hb hb'
  obtain rfl := Option.mem_unique hc hc'
  lift y to ℝ using
    ⟨(high.trans_lt (EReal.coe_lt_top z)).ne, ((EReal.bot_lt_coe x).trans_le low).ne'⟩
  exact ⟨y, hb, EReal.coe_le_coe_iff.mp low, EReal.coe_le_coe_iff.mp high⟩

/-- The double is a power of two with a sign. -/
def IsPower (s : Sign) (k : ℤ) (a : Float) : Prop :=
  a.toModel.unpack = .finite s (2 ^ 52) (k - 52) (by positivity)

theorem IsPower.value_positive (power : IsPower .positive k a) :
    valueOf a = some ↑(2 ^ k : ℝ) := by
  rw [valueOf, power, ← magnitude_pow]
  rfl

theorem IsPower.value_negative (power : IsPower .negative k a) :
    valueOf a = some ↑(-2 ^ k : ℝ) := by
  rw [valueOf, power, ← magnitude_pow]
  rfl

/-- The double is finite, and its value is at most a power of two in size. -/
def Within (k : ℤ) (a : Float) : Prop := ∃ x : ℝ, valueOf a = some ↑x ∧ |x| ≤ 2 ^ k

theorem IsPower.within (power : IsPower .positive k a) : Within k a :=
  ⟨2 ^ k, power.value_positive, (abs_of_pos (zpow_pos two_pos k)).le⟩

theorem within_of_between (ab : a ≤ b) (bc : b ≤ c) (low : IsPower .negative k a)
    (high : IsPower .positive k c) : Within k b := by
  obtain ⟨y, hy, bounds⟩ := exists_real low.value_negative high.value_positive ab bc
  exact ⟨y, hy, abs_le.mpr bounds⟩

namespace Within

theorem mono (ha : Within j a) (le : j ≤ k) : Within k a := by
  obtain ⟨x, here, bound⟩ := ha
  exact ⟨x, here, bound.trans (zpow_le_zpow_right₀ one_le_two le)⟩

/-- What is between zero and a value that is bounded is bounded. -/
theorem of_le (hb : Within k b) (nonneg : 0 ≤ a) (le : a ≤ b) : Within k a := by
  obtain ⟨y, hy, bound⟩ := hb
  obtain ⟨x, hx, positive, less⟩ := exists_real value_zero hy nonneg le
  exact ⟨x, hx, (abs_of_nonneg positive).trans_le (less.trans ((le_abs_self y).trans bound))⟩

theorem unpack_finite (ha : Within k a) : a.toModel.unpack.isFinite = true := by
  obtain ⟨x, hx, -⟩ := ha
  rcases real_cases hx with ⟨s, zero, -⟩ | ⟨s, m, e, h, finite, -⟩
  · rw [zero]
    rfl
  · rw [finite]
    rfl

theorem number (ha : Within k a) : a ≤ a := Scalar.le_of_isFinite ha.unpack_finite

/-- What an exact result of bounded size is rounded to is bounded. -/
theorem of_hasRounded (low : -1022 ≤ k) (high : k ≤ 1023) (bound : x ≤ 2 ^ k)
    (rounded : HasRounded a.toModel.unpack.abs ↑x) : Within k a := by
  obtain ⟨r, near, here⟩ := rounded
  have le := near.mono (roundsTo_pow low high) (EReal.coe_le_coe_iff.mpr bound)
  obtain ⟨y, value, rfl⟩ := value_of_abs here (le.trans_lt (EReal.coe_lt_top _))
  exact ⟨y, value, EReal.coe_le_coe_iff.mp le⟩

theorem mul (ha : Within j a) (hb : Within k b) (fits : -1022 ≤ j + k ∧ j + k ≤ 1023) :
    Within (j + k) (a * b) := by
  obtain ⟨x, hx, boundx⟩ := ha
  obtain ⟨y, hy, boundy⟩ := hb
  have rounded := hasRounded_mul (canonical_abs (canonical_unpack _))
    (canonical_abs (canonical_unpack _)) (value_abs hx) (value_abs hy) (abs_nonneg x) (abs_nonneg y)
  rw [← abs_mul_eq, ← abs_stored] at rounded
  refine of_hasRounded fits.1 fits.2 ?_ rounded
  rw [zpow_add₀ two_ne_zero]
  exact mul_le_mul boundx boundy (abs_nonneg y) (zpow_pos two_pos j).le

theorem abs_add_le_pow (hx : |x| ≤ 2 ^ j) (hy : |y| ≤ 2 ^ k) :
    |x + y| ≤ 2 ^ (max j k + 1) := by
  have left : (2 : ℝ) ^ j ≤ 2 ^ max j k := zpow_le_zpow_right₀ one_le_two (le_max_left j k)
  have right : (2 : ℝ) ^ k ≤ 2 ^ max j k := zpow_le_zpow_right₀ one_le_two (le_max_right j k)
  rw [zpow_add_one₀ two_ne_zero, mul_two]
  exact (abs_add_le x y).trans (add_le_add (hx.trans left) (hy.trans right))

theorem add (ha : Within j a) (hb : Within k b)
    (fits : -1022 ≤ max j k + 1 ∧ max j k + 1 ≤ 1023) : Within (max j k + 1) (a + b) := by
  obtain ⟨x, hx, boundx⟩ := ha
  obtain ⟨y, hy, boundy⟩ := hb
  exact of_hasRounded fits.1 fits.2 (abs_add_le_pow boundx boundy)
    (hasRounded_abs_add (canonical_unpack _) (canonical_unpack _) hx hy)

theorem sub (ha : Within j a) (hb : Within k b)
    (fits : -1022 ≤ max j k + 1 ∧ max j k + 1 ≤ 1023) : Within (max j k + 1) (a - b) := by
  obtain ⟨x, hx, boundx⟩ := ha
  obtain ⟨y, hy, boundy⟩ := hb
  have rounded := hasRounded_abs_add (canonical_unpack _) (canonical_neg (canonical_unpack _)) hx
    (value_neg hy)
  rw [← sub_eq_add] at rounded
  exact of_hasRounded fits.1 fits.2
    (abs_add_le_pow boundx ((abs_neg y).trans_le boundy)) rounded

end Within

/-- A number divided by a finite one other than zero is a number, be it infinite. -/
theorem div_number (ha : a ≤ a) (hb : (b == 0) = false) (finite : Within k b) : a / b ≤ a / b := by
  have filled (s : Sign) : b.toModel.unpack ≠ .zero s := by
    intro zero
    refine Bool.eq_false_iff.mp hb ((beq_iff_rank b 0).mpr ⟨toLex (0, toLex (0, 0)), ?_, rfl⟩)
    rw [rankOf, zero]
    rfl
  rw [number_iff] at ha ⊢
  refine stored_number (f := UnpackedFloat.div .binary64 _ _) ?_
  have finite := finite.unpack_finite
  revert ha filled finite
  cases a.toModel.unpack <;> cases b.toModel.unpack <;> intro ha filled finite
  case finite.finite => exact roundWithAccuracy_number _ _ _ _
  all_goals first | exact absurd rfl (filled _) | contradiction | exact UnpackedFloat.noConfusion

end

end Geospatial.Double
