import Mathlib
import Geospatial.Proofs.Scalar.DoubleRange

/-! How far results of doubles are from the exact ones: by half a unit in the last place, which is a
share of the exact result or half the least positive double, unless they overflow. -/
namespace Geospatial.Double

open Float.Model (UnpackedFloat Format totalExponent)
open Float.Model.UnpackedFloat (Sign Accuracy)

/-- How far rounding moves a value of the given size at most. -/
noncomputable def slack (x : ℝ) : ℝ := x / 2 ^ 53 + 2 ^ (-1075 : ℤ)

theorem slack_mono {x y : ℝ} (le : x ≤ y) : slack x ≤ slack y := by
  unfold slack
  gcongr

theorem Rounds.near {x r : ℝ} (rounds : Rounds x r) (nonneg : 0 ≤ x) : |r - x| ≤ slack x := by
  obtain @⟨e, n, fits, near⟩ := rounds
  have unit : (0 : ℝ) < 2 ^ e := zpow_pos two_pos e
  have half : |n * 2 ^ e - x| ≤ 2 ^ e / 2 := by
    have low := near.low
    have high := near.high
    rw [le_div_iff₀ unit] at low
    rw [div_le_iff₀ unit] at high
    rw [abs_le]
    constructor <;> linarith
  refine half.trans ?_
  unfold slack
  rcases fits.full with rfl | full
  · have least : (2 : ℝ) ^ (-1074 : ℤ) / 2 = 2 ^ (-1075 : ℤ) := by
      rw [show (-1074 : ℤ) = -1075 + 1 by norm_num, zpow_add_one₀ two_ne_zero]
      ring
    rw [least]
    have share : 0 ≤ x / 2 ^ 53 := by positivity
    linarith
  · have least : (0 : ℝ) < 2 ^ (-1075 : ℤ) := zpow_pos two_pos _
    have share : 2 ^ e / 2 ≤ x / 2 ^ 53 := by
      rw [div_le_div_iff₀ two_pos (by positivity)]
      linarith
    linarith

theorem roundsTo_finite {x : ℝ} {r : EReal} (rounds : RoundsTo ↑x r) (nonneg : 0 ≤ x)
    (fits : x ≤ 2 ^ (1023 : ℤ)) : ∃ y : ℝ, r = ↑y ∧ |y - x| ≤ slack x := by
  have below : r ≤ ↑(2 ^ (1023 : ℤ) : ℝ) :=
    rounds.mono (roundsTo_pow (by norm_num) le_rfl) (EReal.coe_le_coe_iff.mpr fits)
  generalize same : (x : EReal) = z at rounds
  cases rounds with
  | infinite => exact absurd below (not_le.mpr (EReal.coe_lt_top _))
  | @finite x' y near =>
    obtain rfl := EReal.coe_eq_coe_iff.mp same
    unfold overflow at below ⊢
    split
    · exact ⟨y, rfl, near.near nonneg⟩
    · rename_i beyond
      rw [if_neg beyond] at below
      exact absurd below (not_le.mpr (EReal.coe_lt_top _))

/-- The result is finite, and at most half a unit in the last place from the exact value. -/
def NearTo (x : ℝ) (u : UnpackedFloat) : Prop := ∃ r : ℝ, value u = some ↑r ∧ |r - x| ≤ slack |x|

/-- A result is near the exact one if its size is rounded from that of the exact one, and its sign
is not the other one. -/
theorem nearTo_of_hasRounded {u : UnpackedFloat} {x : ℝ} (rounded : HasRounded u.abs ↑|x|)
    (fits : |x| ≤ 2 ^ (1023 : ℤ)) (sign : ∀ r : ℝ, value u = some ↑r → 0 ≤ r * x) : NearTo x u := by
  obtain ⟨r, near, here⟩ := rounded
  obtain ⟨y, rfl, close⟩ := roundsTo_finite near (abs_nonneg x) fits
  obtain ⟨z, value, size⟩ := value_of_abs here (EReal.coe_lt_top y)
  obtain rfl : y = |z| := EReal.coe_eq_coe_iff.mp size
  refine ⟨z, value, ?_⟩
  have apart : |z - x| = |(|z| - |x|)| := by
    rcases mul_nonneg_iff.mp (sign z value) with ⟨hz, hx⟩ | ⟨hz, hx⟩
    · rw [abs_of_nonneg hz, abs_of_nonneg hx]
    · rw [abs_of_nonpos hz, abs_of_nonpos hx, abs_sub_comm]
      congr 1
      ring
  rwa [apart]

theorem signed_of_pos {u : UnpackedFloat} {r : ℝ} (here : value u = some ↑r) (positive : 0 < r) :
    Signed .positive u := by
  rcases real_cases here with ⟨s, rfl, rfl⟩ | ⟨s, m, e, h, rfl, rfl⟩
  · exact absurd positive (lt_irrefl 0)
  · exact eq_positive_of_signed h positive.le

theorem signed_of_neg {u : UnpackedFloat} {r : ℝ} (here : value u = some ↑r) (negative : r < 0) :
    Signed .negative u := by
  rcases real_cases here with ⟨s, rfl, rfl⟩ | ⟨s, m, e, h, rfl, rfl⟩
  · exact absurd negative (lt_irrefl 0)
  · cases s with
    | negative => rfl
    | positive => exact absurd negative (magnitude_pos h e).not_gt

theorem le_of_below {a b : UnpackedFloat} (ca : Canonical a) (cb : Canonical b) {x y : ℝ}
    (ha : value a = some ↑x) (hb : value b = some ↑y) (below : Below a b) : x ≤ y := by
  obtain ⟨p, hp, q, hq, less⟩ := below
  obtain ⟨x', hx, y', hy, le⟩ := (rank_le_iff_value_le ca cb).mp ⟨p, hp, q, hq, less.le⟩
  obtain rfl := Option.mem_unique ha hx
  obtain rfl := Option.mem_unique hb hy
  exact EReal.coe_le_coe_iff.mp le

theorem nearTo_sub {a b : UnpackedFloat} (ca : Canonical a) (cb : Canonical b) {x y : ℝ}
    (ha : value a = some ↑x) (hb : value b = some ↑y) (fits : |x - y| ≤ 2 ^ (1023 : ℤ)) :
    NearTo (x - y) (stored (UnpackedFloat.sub .binary64 a b)) := by
  have rounded := hasRounded_abs_add ca (canonical_neg cb) ha (value_neg hb)
  rw [← sub_eq_add, ← sub_eq_add_neg] at rounded
  refine nearTo_of_hasRounded rounded fits fun r here => ?_
  rcases lt_trichotomy r 0 with negative | rfl | positive
  · have order := (below_of_sub ca cb).2 (signed_of_unpack_pack (signed_of_neg here negative))
    exact mul_nonneg_of_nonpos_of_nonpos negative.le
      (sub_nonpos.mpr (le_of_below ca cb ha hb order))
  · rw [zero_mul]
  · have order := (below_of_sub ca cb).1 (signed_of_unpack_pack (signed_of_pos here positive))
    exact mul_nonneg positive.le (sub_nonneg.mpr (le_of_below cb ca hb ha order))

theorem add_eq_sub (a b : UnpackedFloat) :
    UnpackedFloat.add .binary64 a b = UnpackedFloat.sub .binary64 a b.neg := by
  have twice : b.neg.neg = b := by
    rcases b with s | _ | s | ⟨s, m, e, h⟩ <;> first | rfl | cases s <;> rfl
  rw [sub_eq_add, twice]

theorem nearTo_add {a b : UnpackedFloat} (ca : Canonical a) (cb : Canonical b) {x y : ℝ}
    (ha : value a = some ↑x) (hb : value b = some ↑y) (fits : |x + y| ≤ 2 ^ (1023 : ℤ)) :
    NearTo (x + y) (stored (UnpackedFloat.add .binary64 a b)) := by
  have turned := nearTo_sub ca (canonical_neg cb) ha (value_neg hb) (by rwa [sub_neg_eq_add])
  rwa [sub_neg_eq_add, ← add_eq_sub] at turned

/-- The number one with a sign. -/
def unit : Sign → ℝ
  | .positive => 1
  | .negative => -1

/-- The value is not on the other side of zero than the sign says. -/
def Agrees (s : Sign) (x : ℝ) : Prop := 0 ≤ unit s * x

theorem agrees_sign {u : UnpackedFloat} {x : ℝ} (here : value u = some ↑x) : Agrees (sign u) x := by
  rcases real_cases here with ⟨s, rfl, rfl⟩ | ⟨s, m, e, h, rfl, rfl⟩
  · rw [Agrees, mul_zero]
  · cases s with
    | positive => simpa [Agrees, sign, unit, signed_positive] using (magnitude_pos h e).le
    | negative => simpa [Agrees, sign, unit, signed_negative] using (magnitude_pos h e).le

theorem Agrees.mul {s s' : Sign} {x y : ℝ} (hx : Agrees s x) (hy : Agrees s' y) :
    Agrees (s * s') (x * y) := by
  have signs : unit (s * s') = unit s * unit s' := by cases s <;> cases s' <;> norm_num [unit]
  rw [Agrees, signs, mul_mul_mul_comm]
  exact mul_nonneg hx hy

theorem Agrees.inv {s : Sign} {x : ℝ} (hx : Agrees s x) : Agrees s x⁻¹ := by
  cases s <;> simpa [Agrees, unit] using hx

theorem Agrees.div {s s' : Sign} {x y : ℝ} (hx : Agrees s x) (hy : Agrees s' y) :
    Agrees (s / s') (x / y) := by
  have same : s / s' = s * s' := by cases s <;> cases s' <;> rfl
  rw [same, div_eq_mul_inv]
  exact hx.mul hy.inv

/-- A result that is rounded as a size and a sign is near the exact one. -/
theorem nearTo_stored {f : UnpackedFloat} {x : ℝ} (rounded : HasRounded (stored f.abs) ↑|x|)
    (fits : |x| ≤ 2 ^ (1023 : ℤ)) (agrees : Agrees (sign f) x) : NearTo x (stored f) := by
  rw [← abs_stored] at rounded
  refine nearTo_of_hasRounded rounded fits fun r here => ?_
  rcases lt_trichotomy r 0 with negative | rfl | positive
  · rw [Agrees, sign_of_signed (signed_of_unpack_pack (signed_of_neg here negative)), unit,
      neg_one_mul, neg_nonneg] at agrees
    exact mul_nonneg_of_nonpos_of_nonpos negative.le agrees
  · rw [zero_mul]
  · rw [Agrees, sign_of_signed (signed_of_unpack_pack (signed_of_pos here positive)), unit,
      one_mul] at agrees
    exact mul_nonneg positive.le agrees

theorem sign_mul_of_real {a b : UnpackedFloat} {x y : ℝ} (ha : value a = some ↑x)
    (hb : value b = some ↑y) : sign (UnpackedFloat.mul .binary64 a b) = sign a * sign b := by
  rcases real_cases ha with ⟨s, rfl, -⟩ | ⟨s, m, e, h, rfl, -⟩ <;>
    rcases real_cases hb with ⟨s', rfl, -⟩ | ⟨s', m', e', h', rfl, -⟩
  case inr.inr => exact sign_roundWithAccuracy ..
  all_goals rfl

theorem nearTo_mul {a b : UnpackedFloat} (ca : Canonical a) (cb : Canonical b) {x y : ℝ}
    (ha : value a = some ↑x) (hb : value b = some ↑y) (fits : |x * y| ≤ 2 ^ (1023 : ℤ)) :
    NearTo (x * y) (stored (UnpackedFloat.mul .binary64 a b)) := by
  have rounded := hasRounded_mul (canonical_abs ca) (canonical_abs cb) (value_abs ha) (value_abs hb)
    (abs_nonneg x) (abs_nonneg y)
  rw [← abs_mul_eq, ← abs_mul] at rounded
  refine nearTo_stored rounded fits ?_
  rw [sign_mul_of_real ha hb]
  exact (agrees_sign ha).mul (agrees_sign hb)

end Geospatial.Double
