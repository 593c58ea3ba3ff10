import Mathlib
import Geospatial.Proofs.Scalar.DoubleDivision

/-! The hypotenuse of doubles is about as long as the longer leg. Errors count as shares of a size:
where no result overflows or is as small as the least doubles, a thousandth is more than enough for
each operation, and the shares add up. -/
namespace Geospatial.Double

open Float.Model (UnpackedFloat Format)

/-- The double is finite, and at most half a unit in the last place from the exact value. -/
def Near (x : ℝ) (a : Float) : Prop := NearTo x a.toModel.unpack

section

variable {a b : Float} {x y : ℝ}

theorem near_add (ha : valueOf a = some ↑x) (hb : valueOf b = some ↑y)
    (fits : |x + y| ≤ 2 ^ (1023 : ℤ)) : Near (x + y) (a + b) :=
  nearTo_add (canonical_unpack _) (canonical_unpack _) ha hb fits

theorem near_sub (ha : valueOf a = some ↑x) (hb : valueOf b = some ↑y)
    (fits : |x - y| ≤ 2 ^ (1023 : ℤ)) : Near (x - y) (a - b) :=
  nearTo_sub (canonical_unpack _) (canonical_unpack _) ha hb fits

theorem near_mul (ha : valueOf a = some ↑x) (hb : valueOf b = some ↑y)
    (fits : |x * y| ≤ 2 ^ (1023 : ℤ)) : Near (x * y) (a * b) :=
  nearTo_mul (canonical_unpack _) (canonical_unpack _) ha hb fits

theorem near_div (ha : valueOf a = some ↑x) (hb : valueOf b = some ↑y) (nonzero : y ≠ 0)
    (fits : |x / y| ≤ 2 ^ (1023 : ℤ)) : Near (x / y) (a / b) :=
  nearTo_div (canonical_unpack _) ha hb nonzero fits

theorem near_sqrt (ha : valueOf a = some ↑x) (nonneg : 0 ≤ x) (fits : √x ≤ 2 ^ (1023 : ℤ)) :
    Near √x (Float.sqrt a) := by
  have rounded := hasRounded_sqrt ha (EReal.coe_le_coe_iff.mpr nonneg)
  rw [root, if_neg (EReal.coe_ne_top x), EReal.toReal_coe] at rounded
  obtain ⟨r, near, here⟩ := rounded
  obtain ⟨y, rfl, close⟩ := roundsTo_finite near (Real.sqrt_nonneg x) fits
  exact ⟨y, here, by rwa [abs_of_nonneg (Real.sqrt_nonneg x)]⟩

end

theorem le_zpow_succ {x y : ℝ} {k : ℤ} (bound : y ≤ 2 ^ k) (le : x ≤ 2 * y) : x ≤ 2 ^ (k + 1) := by
  rw [zpow_add_one₀ two_ne_zero]
  linarith

theorem zpow_le_of_succ_le {x y : ℝ} {k : ℤ} (bound : 2 ^ (k + 1) ≤ y) (le : y ≤ 2 * x) :
    2 ^ k ≤ x := by
  rw [zpow_add_one₀ two_ne_zero] at bound
  linarith

/-- A size whose roundings neither overflow nor reach down to the least doubles. -/
structure Moderate (s : ℝ) : Prop where
  low : 2 ^ (-990 : ℤ) ≤ s
  high : s ≤ 2 ^ (1022 : ℤ)

namespace Moderate

variable {s x : ℝ} (size : Moderate s)
include size

theorem pos : 0 < s := (zpow_pos two_pos _).trans_le size.low

theorem nonneg : 0 ≤ s := size.pos.le

theorem far : 2 ^ (-1000 : ℤ) ≤ s :=
  (zpow_le_zpow_right₀ one_le_two (by norm_num)).trans size.low

theorem far_half : 2 ^ (-1000 : ℤ) ≤ s / 2 := by
  refine (zpow_le_zpow_right₀ one_le_two (by norm_num)).trans
    (zpow_le_of_succ_le (k := -991) size.low ?_)
  linarith

theorem fits (bound : |x| ≤ 2 * s) : |x| ≤ 2 ^ (1023 : ℤ) := le_zpow_succ size.high bound

end Moderate

theorem slack_le {s : ℝ} (low : 2 ^ (-1000 : ℤ) ≤ s) : slack s ≤ s / 4000 := by
  have least : (2 : ℝ) ^ (-1075 : ℤ) ≤ s / 8000 := by
    have deep : (2 : ℝ) ^ (-1075 : ℤ) = 2 ^ (-1000 : ℤ) * 2 ^ (-75 : ℤ) := by
      rw [← zpow_add₀ two_ne_zero]
      norm_num
    rw [deep, div_eq_mul_inv]
    exact mul_le_mul low (by norm_num) (by positivity) ((zpow_pos two_pos _).le.trans low)
  have share : s / 2 ^ 53 ≤ s / 8000 := by
    have positive : 0 ≤ s := (zpow_pos two_pos _).le.trans low
    gcongr
    norm_num
  unfold slack
  linarith

theorem Near.share {a : Float} {x : ℝ} (near : Near x a) (low : 2 ^ (-1000 : ℤ) ≤ x) :
    ∃ r : ℝ, valueOf a = some ↑r ∧ |r - x| ≤ x / 4000 := by
  obtain ⟨r, here, half⟩ := near
  rw [abs_of_pos ((zpow_pos two_pos _).trans_le low)] at half
  exact ⟨r, here, half.trans (slack_le low)⟩

/-- The double is finite, and no farther from the exact value than a share `e` of a size. -/
def Off (e s x : ℝ) (a : Float) : Prop := ∃ r : ℝ, valueOf a = some ↑r ∧ |r - x| ≤ e * s

namespace Off

variable {a b k : Float} {x y c d e s t : ℝ}

theorem of_value (here : valueOf a = some ↑x) : Off 0 s x a := ⟨x, here, by simp⟩

/-- A rounding adds a thousandth to what the operands are off. -/
theorem round {z : ℝ} (size : Moderate s) (near : |z| ≤ 2 ^ (1023 : ℤ) → Near z a)
    (close : |z - x| ≤ e * s) (bound : |x| ≤ 3 / 2 * s) (small : e ≤ 1 / 2) :
    Off (e + 1 / 1000) s x a := by
  have positive := size.pos
  have below : |z| ≤ 2 * s := by
    have share : e * s ≤ 1 / 2 * s := mul_le_mul_of_nonneg_right small positive.le
    rw [abs_le] at close bound ⊢
    constructor <;> linarith
  obtain ⟨r, here, half⟩ := near (size.fits below)
  have share := half.trans ((slack_mono below).trans (slack_le (by linarith [size.far])))
  refine ⟨r, here, ?_⟩
  calc |r - x| ≤ |r - z| + |z - x| := abs_sub_le r z x
    _ ≤ (e + 1 / 1000) * s := by linarith

theorem sub (size : Moderate s) (ha : Off d s x a) (hb : Off e s y b) (bound : |x - y| ≤ 3 / 2 * s)
    (small : d + e ≤ 1 / 2) : Off (d + e + 1 / 1000) s (x - y) (a - b) := by
  obtain ⟨p, hp, offp⟩ := ha
  obtain ⟨q, hq, offq⟩ := hb
  refine round size (near_sub hp hq) ?_ bound small
  rw [abs_le] at offp offq ⊢
  constructor <;> linarith

theorem add (size : Moderate s) (ha : Off d s x a) (hb : Off e s y b) (bound : |x + y| ≤ 3 / 2 * s)
    (small : d + e ≤ 1 / 2) : Off (d + e + 1 / 1000) s (x + y) (a + b) := by
  obtain ⟨p, hp, offp⟩ := ha
  obtain ⟨q, hq, offq⟩ := hb
  refine round size (near_add hp hq) ?_ bound small
  rw [abs_le] at offp offq ⊢
  constructor <;> linarith

theorem mul (size : Moderate (s * t)) (hs : 0 ≤ s) (ha : Off d s x a) (hb : Off e t y b)
    (boundx : |x| ≤ 3 / 2 * s) (boundy : |y| ≤ t) (hd : d ≤ 1 / 10) (he : e ≤ 1 / 10) :
    Off (d + 2 * e + 1 / 1000) (s * t) (x * y) (a * b) := by
  obtain ⟨p, hp, offp⟩ := ha
  obtain ⟨q, hq, offq⟩ := hb
  have ht : 0 ≤ t := (abs_nonneg y).trans boundy
  have sizep : |p| ≤ 2 * s := by
    have share : d * s ≤ 1 / 10 * s := mul_le_mul_of_nonneg_right hd hs
    rw [abs_le] at offp boundx ⊢
    constructor <;> linarith
  have exact : |x * y| ≤ 3 / 2 * (s * t) := by
    rw [abs_mul, ← mul_assoc]
    exact mul_le_mul boundx boundy (abs_nonneg _) (by positivity)
  refine round size (near_mul hp hq) ?_ exact (by linarith)
  calc |p * q - x * y| = |p * (q - y) + (p - x) * y| := by congr 1; ring
    _ ≤ |p| * |q - y| + |p - x| * |y| := by
      rw [← abs_mul, ← abs_mul]
      exact abs_add_le _ _
    _ ≤ 2 * s * (e * t) + d * s * t := add_le_add
      (mul_le_mul sizep offq (abs_nonneg _) (by positivity))
      (mul_le_mul offp boundy (abs_nonneg _) ((abs_nonneg _).trans offp))
    _ = (d + 2 * e) * (s * t) := by ring

/-- A small multiple. -/
theorem scale (size : Moderate s) (hk : valueOf k = some ↑c) (hc : 0 ≤ c) (few : c ≤ 4)
    (ha : Off e s x a) (bound : |c * x| ≤ 3 / 2 * s) (small : e ≤ 1 / 10) :
    Off (4 * e + 1 / 1000) s (c * x) (k * a) := by
  obtain ⟨p, hp, offp⟩ := ha
  refine round size (near_mul hk hp) ?_ bound (by linarith)
  rw [← mul_sub, abs_mul, abs_of_nonneg hc, mul_assoc]
  exact mul_le_mul few offp (abs_nonneg _) (by norm_num)

theorem mono (ha : Off d s x a) (le : d ≤ e) (hs : 0 ≤ s) : Off e s x a := by
  obtain ⟨r, here, off⟩ := ha
  exact ⟨r, here, off.trans (mul_le_mul_of_nonneg_right le hs)⟩

end Off

theorem value_two : valueOf 2.0 = some ↑(2 : ℝ) := by
  have power : IsPower .positive 1 2.0 := rfl
  simpa using power.value_positive

theorem value_four : valueOf 4.0 = some ↑(4 : ℝ) := by
  have power : IsPower .positive 2 4.0 := rfl
  rw [power.value_positive]
  norm_num

section

variable {ax ay h : Float} {x y z : ℝ}

/-- The correction of the root for legs of nearly the same length is about what the square of the
root is off. -/
theorem off_correction_even (size : Moderate x) (square : Moderate (x * x))
    (hx : valueOf ax = some ↑x) (hy : valueOf ay = some ↑y) (hh : valueOf h = some ↑z)
    (nonneg : 0 ≤ y) (le : y ≤ 1001 / 1000 * x) (long : y ≤ z) (even : z ≤ 201 / 100 * y)
    (low : 99 / 100 * x ≤ z) (high : z ≤ 142 / 100 * x)
    (root : |z * z - x * x - y * y| ≤ x * x / 100) :
    Off (1 / 40) (x * x) (z * z - x * x - y * y)
      (ax * (2.0 * (h - ay) - ax) + ((h - ay) - 2.0 * (ax - ay)) * (h - ay)) := by
  have positive := size.pos
  have bound {r : ℝ} (lo : -x ≤ r) (hi : r ≤ x) : |r| ≤ x := abs_le.mpr ⟨lo, hi⟩
  have delta := Off.sub size (.of_value hh) (.of_value hy)
    (by rw [abs_le]; constructor <;> linarith) (by norm_num)
  have twice := delta.scale size value_two (by norm_num) (by norm_num)
    (by rw [abs_le]; constructor <;> linarith) (by norm_num)
  have left := (Off.of_value hx).mul square positive.le (twice.sub size (Off.of_value hx)
    (by rw [abs_le]; constructor <;> linarith) (by norm_num))
    (by rw [abs_of_pos positive]; linarith) (bound (by linarith) (by linarith))
    (by norm_num) (by norm_num)
  have apart := ((Off.of_value hx).sub size (Off.of_value hy)
    (by rw [abs_le]; constructor <;> linarith) (by norm_num)).scale size value_two (by norm_num)
    (by norm_num) (by rw [abs_le]; constructor <;> linarith) (by norm_num)
  have right := (delta.sub size apart (by rw [abs_le]; constructor <;> linarith)
    (by norm_num)).mul square positive.le delta (by rw [abs_le]; constructor <;> linarith)
    (bound (by linarith) (by linarith)) (by norm_num) (by norm_num)
  have exact : x * (2 * (z - y) - x) + (z - y - 2 * (x - y)) * (z - y) = z * z - x * x - y * y := by
    ring
  have sum := left.add square right (by rw [exact]; linarith [square.pos]) (by norm_num)
  rw [exact] at sum
  exact sum.mono (by norm_num) square.nonneg

/-- The same for legs of which one is longer than the other. -/
theorem off_correction_uneven (size : Moderate x) (square : Moderate (x * x))
    (hx : valueOf ax = some ↑x) (hy : valueOf ay = some ↑y) (hh : valueOf h = some ↑z)
    (nonneg : 0 ≤ y) (short : y ≤ 6 / 10 * x) (low : 99 / 100 * x ≤ z) (high : z ≤ 117 / 100 * x)
    (root : |z * z - x * x - y * y| ≤ x * x / 100) :
    Off (1 / 40) (x * x) (z * z - x * x - y * y)
      (2.0 * (h - ax) * (ax - 2.0 * ay) + ((4.0 * (h - ax) - ay) * ay + (h - ax) * (h - ax))) := by
  have positive := size.pos
  have bound {r : ℝ} (lo : -x ≤ r) (hi : r ≤ x) : |r| ≤ x := abs_le.mpr ⟨lo, hi⟩
  have delta := Off.sub size (.of_value hh) (.of_value hx)
    (by rw [abs_le]; constructor <;> linarith) (by norm_num)
  have twice := delta.scale size value_two (by norm_num) (by norm_num)
    (by rw [abs_le]; constructor <;> linarith) (by norm_num)
  have rest := Off.sub size (.of_value hx) (Off.scale size value_two (by norm_num) (by norm_num)
    (.of_value hy) (by rw [abs_le]; constructor <;> linarith) (by norm_num))
    (by rw [abs_le]; constructor <;> linarith) (by norm_num)
  have left := twice.mul square positive.le rest (by rw [abs_le]; constructor <;> linarith)
    (bound (by linarith) (by linarith)) (by norm_num) (by norm_num)
  have four := (delta.scale size value_four (by norm_num) (by norm_num)
    (by rw [abs_le]; constructor <;> linarith) (by norm_num)).sub size (.of_value hy)
    (by rw [abs_le]; constructor <;> linarith) (by norm_num)
  have middle := four.mul square positive.le (.of_value hy)
    (by rw [abs_le]; constructor <;> linarith) (bound (by linarith) (by linarith))
    (by norm_num) (by norm_num)
  have right := delta.mul square positive.le delta (by rw [abs_le]; constructor <;> linarith)
    (bound (by linarith) (by linarith)) (by norm_num) (by norm_num)
  have inner := middle.add square right ?_ (by norm_num)
  · have exact : 2 * (z - x) * (x - 2 * y) + ((4 * (z - x) - y) * y + (z - x) * (z - x)) =
        z * z - x * x - y * y := by
      ring
    have sum := left.add square inner (by rw [exact]; linarith [square.pos]) (by norm_num)
    rw [exact] at sum
    exact sum.mono (by norm_num) square.nonneg
  · have long : |4 * (z - x) - y| ≤ x := bound (by linarith) (by linarith)
    have off : |z - x| ≤ 1 / 2 * x := by rw [abs_le]; constructor <;> linarith
    calc |(4 * (z - x) - y) * y + (z - x) * (z - x)|
        ≤ |4 * (z - x) - y| * |y| + |z - x| * |z - x| := by
          rw [← abs_mul, ← abs_mul]
          exact abs_add_le _ _
      _ ≤ x * x + 1 / 2 * x * (1 / 2 * x) := add_le_add
          (mul_le_mul long (bound (by linarith) (by linarith)) (abs_nonneg _) positive.le)
          (mul_le_mul off off (abs_nonneg _) (by positivity))
      _ ≤ 3 / 2 * (x * x) := by linarith [square.pos]

end

theorem moderate_square {x : ℝ} (low : 2 ^ (-491 : ℤ) ≤ x) (high : x ≤ 2 ^ (511 : ℤ)) :
    Moderate (x * x) where
  low := by
    calc (2 : ℝ) ^ (-990 : ℤ) ≤ 2 ^ (-491 : ℤ) * 2 ^ (-491 : ℤ) := by
          rw [← zpow_add₀ two_ne_zero]
          exact zpow_le_zpow_right₀ one_le_two (by norm_num)
      _ ≤ x * x := mul_le_mul low low (zpow_pos two_pos _).le ((zpow_pos two_pos _).le.trans low)
  high := by
    calc x * x ≤ 2 ^ (511 : ℤ) * 2 ^ (511 : ℤ) :=
          mul_le_mul high high ((zpow_pos two_pos _).le.trans low) (zpow_pos two_pos _).le
      _ = 2 ^ (1022 : ℤ) := by
        rw [← zpow_add₀ two_ne_zero]
        norm_num

theorem exists_square {a : Float} {x : ℝ} (here : valueOf a = some ↑x) (low : 2 ^ (-491 : ℤ) ≤ x)
    (high : x ≤ 2 ^ (511 : ℤ)) : ∃ s : ℝ, valueOf (a * a) = some ↑s ∧
      |s - x * x| ≤ x * x / 4000 ∧ s ≤ 2 ^ (1022 : ℤ) := by
  have positive : 0 < x := (zpow_pos two_pos _).trans_le low
  have square := moderate_square low high
  have size : |x * x| = x * x := abs_of_pos square.pos
  obtain ⟨s, value, close⟩ := near_mul here here (square.fits (by linarith [square.pos]))
  have within : Within 511 a := ⟨x, here, (abs_of_pos positive).trans_le high⟩
  obtain ⟨s', value', bound⟩ := within.mul within (by norm_num)
  obtain rfl : s = s' := EReal.coe_eq_coe_iff.mp (Option.mem_unique value value')
  rw [size] at close
  exact ⟨s, value, close.trans (slack_le square.far), (le_abs_self s).trans bound⟩

/-- The legs of a right triangle, the longer one first but for a rounding, of which no square
overflows or underflows. -/
structure Legs (x y : ℝ) : Prop where
  low : 2 ^ (-490 : ℤ) ≤ y
  ordered : y ≤ 1001 / 1000 * x
  long : x ≤ 2 ^ (511 : ℤ)
  short : y ≤ 2 ^ (511 : ℤ)

namespace Legs

variable {x y : ℝ} (legs : Legs x y)
include legs

theorem pos : 0 < y := (zpow_pos two_pos _).trans_le legs.low

theorem low_long : 2 ^ (-491 : ℤ) ≤ x :=
  zpow_le_of_succ_le legs.low (by linarith [legs.ordered, legs.pos])

theorem low_short : 2 ^ (-491 : ℤ) ≤ y :=
  (zpow_le_zpow_right₀ one_le_two (by norm_num)).trans legs.low

theorem moderate : Moderate x where
  low := (zpow_le_zpow_right₀ one_le_two (by norm_num)).trans legs.low_long
  high := legs.long.trans (zpow_le_zpow_right₀ one_le_two (by norm_num))

theorem moderate_short : Moderate y where
  low := (zpow_le_zpow_right₀ one_le_two (by norm_num)).trans legs.low
  high := legs.short.trans (zpow_le_zpow_right₀ one_le_two (by norm_num))

theorem square : Moderate (x * x) := moderate_square legs.low_long legs.long

/-- What is about as long as a leg. -/
theorem moderate_near {r : ℝ} (low : x / 2 ≤ r) (high : r ≤ 2 * x) : Moderate r where
  low := (zpow_le_zpow_right₀ one_le_two (by norm_num)).trans
    (zpow_le_of_succ_le (k := -492) legs.low_long (by linarith))
  high := (le_zpow_succ legs.long high).trans (zpow_le_zpow_right₀ one_le_two (by norm_num))

theorem ratio : y * y ≤ 1003 / 1000 * (x * x) := by
  have grown := mul_self_le_mul_self legs.pos.le legs.ordered
  linarith [legs.square.pos]

end Legs

section

variable {ax ay : Float} {x y : ℝ}

/-- The root of the sum of the squares before it is corrected. -/
theorem exists_root (legs : Legs x y) (hx : valueOf ax = some ↑x) (hy : valueOf ay = some ↑y) :
    ∃ z : ℝ, valueOf (Float.sqrt (ax * ax + ay * ay)) = some ↑z ∧ 0 ≤ z ∧
      |z * z - x * x - y * y| ≤ x * x / 100 := by
  obtain ⟨p, hp, closep, highp⟩ := exists_square hx legs.low_long legs.long
  obtain ⟨q, hq, closeq, highq⟩ := exists_square hy legs.low_short legs.short
  have px := legs.square
  have py := moderate_square legs.low_short legs.short
  rw [abs_le] at closep closeq
  have ratio := legs.ratio
  have lowp : x * x / 2 ≤ p := by linarith [px.pos]
  have lowq : 0 ≤ q := by linarith [py.pos]
  have sum : |p + q| = p + q := abs_of_nonneg (by linarith [px.pos])
  obtain ⟨s, hs, closes⟩ := near_add hp hq
    (le_zpow_succ (max_le highp highq) (by
      rw [sum]
      linarith [le_max_left p q, le_max_right p q]))
  rw [sum] at closes
  replace closes := closes.trans (slack_le (by linarith [px.far_half]))
  rw [abs_le] at closes
  have lows : x * x / 4 ≤ s := by linarith
  have highs : s ≤ 9 / 4 * (x * x) := by linarith
  have nonneg : 0 ≤ s := by linarith [px.pos]
  have lowroot : x / 2 ≤ √s := Real.le_sqrt_of_sq_le (by linarith [sq x])
  have highroot : √s ≤ 3 / 2 * x := (Real.sqrt_le_left (by linarith [legs.moderate.pos])).mpr (by
    linarith [sq (3 / 2 * x)])
  obtain ⟨z, hz, closez⟩ := near_sqrt hs nonneg
    ((le_abs_self _).trans (legs.moderate.fits (by
      rw [abs_of_nonneg (Real.sqrt_nonneg s)]
      linarith [legs.moderate.pos])))
  rw [abs_of_nonneg (Real.sqrt_nonneg s)] at closez
  replace closez := closez.trans (slack_le (legs.moderate.far_half.trans lowroot))
  have exact : √s * √s = s := Real.mul_self_sqrt nonneg
  refine ⟨z, hz, ?_, ?_⟩
  · rw [abs_le] at closez
    linarith [Real.sqrt_nonneg s]
  · have off : |z * z - s| ≤ s / 900 := by
      calc |z * z - s| = |z - √s| * |z - √s + 2 * √s| := by
            rw [← abs_mul]
            congr 1
            linear_combination exact
        _ ≤ √s / 4000 * (√s / 4000 + 2 * √s) := by
          refine mul_le_mul closez ((abs_add_le _ _).trans (add_le_add closez ?_)) (abs_nonneg _)
            (by positivity)
          rw [abs_of_nonneg (by positivity)]
        _ = (√s * √s) * (8001 / 16000000) := by ring
        _ ≤ s / 900 := by linarith
    rw [abs_le] at off ⊢
    constructor <;> linarith

theorem exists_double (hx : valueOf ax = some ↑x) (size : Moderate x) :
    ∃ t : ℝ, valueOf (2.0 * ax) = some ↑t ∧ |t - 2 * x| ≤ x / 1000 := by
  have twice : |2 * x| = 2 * x := abs_of_pos (by linarith [size.pos])
  obtain ⟨t, value, close⟩ := near_mul value_two hx (size.fits twice.le)
  refine ⟨t, value, ?_⟩
  rw [twice] at close
  linarith [close.trans (slack_le (by linarith [size.far, size.pos])), size.pos]

/-- A correction that is small against the square of the longer leg changes the root little. -/
theorem exists_corrected {h correction : Float} {z c : ℝ} (legs : Legs x y)
    (hz : valueOf h = some ↑z) (low : 99 / 100 * x ≤ z) (high : z ≤ 142 / 100 * x)
    (hc : valueOf correction = some ↑c) (small : |c| ≤ x * x / 25) :
    ∃ l : ℝ, valueOf (h - correction / (2.0 * h)) = some ↑l ∧ 9 / 10 * x ≤ l ∧ l ≤ 2 * x := by
  have size := legs.moderate
  have px := size.pos
  obtain ⟨w, hw, double⟩ := exists_double hz (legs.moderate_near (by linarith) (by linarith))
  rw [abs_le] at double
  have wide : 19 / 10 * x ≤ w := by linarith
  have positive : 0 < w := by linarith
  have quotient : |c / w| ≤ x / 20 := by
    have grown := mul_le_mul_of_nonneg_left wide px.le
    rw [abs_div, abs_of_pos positive, div_le_div_iff₀ positive (by norm_num)]
    linarith [legs.square.pos]
  obtain ⟨q, hq, close⟩ := near_div hc hw positive.ne' (size.fits (by linarith))
  replace close := close.trans ((slack_mono (y := x) (by linarith)).trans (slack_le size.far))
  have difference : |z - q| ≤ 2 * x := by
    rw [abs_le] at close quotient ⊢
    constructor <;> linarith
  obtain ⟨l, hl, close'⟩ := near_sub hz hq (size.fits difference)
  replace close' := close'.trans ((slack_mono difference).trans (slack_le (by linarith [size.far])))
  rw [abs_le] at close quotient close'
  exact ⟨l, hl, by linarith, by linarith⟩

/-- The corrected root is about as long as the longer leg, or as the diagonal of its square. -/
theorem hypotCore_bounds (legs : Legs x y) (hx : valueOf ax = some ↑x) (hy : valueOf ay = some ↑y) :
    ∃ l : ℝ, valueOf (hypotCore ax ay) = some ↑l ∧ 9 / 10 * x ≤ l ∧ l ≤ 2 * x := by
  obtain ⟨z, hz, nonneg, root⟩ := exists_root legs hx hy
  have size := legs.moderate
  have square := legs.square
  have px := size.pos
  have bounds := abs_le.mp root
  have low : 99 / 100 * x ≤ z := by
    rw [mul_self_le_mul_self_iff (by positivity) nonneg]
    linarith [square.pos, legs.moderate_short.nonneg, mul_self_nonneg y]
  have high : z ≤ 142 / 100 * x := by
    rw [mul_self_le_mul_self_iff nonneg (by positivity)]
    linarith [square.pos, legs.ratio]
  unfold hypotCore
  generalize Float.sqrt (ax * ax + ay * ay) = h at hz
  obtain ⟨t, ht, close⟩ := exists_double hy legs.moderate_short
  rw [abs_le] at close
  obtain ⟨c, hc, off⟩ : Off (1 / 40) (x * x) (z * z - x * x - y * y)
      (if h <= 2.0 * ay then
        ax * (2.0 * (h - ay) - ax) + ((h - ay) - 2.0 * (ax - ay)) * (h - ay)
      else 2.0 * (h - ax) * (ax - 2.0 * ay) +
        ((4.0 * (h - ax) - ay) * ay + (h - ax) * (h - ax))) := by
    split
    · rename_i even
      have le := (le_iff_real hz ht).mp even
      refine off_correction_even size square hx hy hz legs.pos.le legs.ordered ?_
        (by linarith [legs.pos]) low high root
      rw [mul_self_le_mul_self_iff legs.pos.le nonneg]
      linarith [square.pos]
    · rename_i uneven
      have less : t < z := not_le.mp fun le => uneven ((le_iff_real hz ht).mpr le)
      have share : y ≤ 1001 / 2000 * z := by linarith
      have grown := mul_self_le_mul_self legs.pos.le share
      have short : z ≤ 117 / 100 * x := by
        rw [mul_self_le_mul_self_iff nonneg (by positivity)]
        linarith [square.pos]
      exact off_correction_uneven size square hx hy hz legs.pos.le (by linarith) low short root
  refine exists_corrected legs hz low high hc ?_
  rw [abs_le] at off ⊢
  constructor <;> linarith

end

end Geospatial.Double
