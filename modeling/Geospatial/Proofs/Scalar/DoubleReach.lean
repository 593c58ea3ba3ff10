import Mathlib
import Geospatial.Proofs.Scalar.DoubleLength

/-! The hypotenuse of doubles is finite and at least a quarter of each leg, whatever their lengths,
as long as the legs stay clear of the greatest doubles. -/
namespace Geospatial.Double

open Float.Model (UnpackedFloat)

section

variable {a : Float} {x : ℝ} (here : valueOf a = some ↑x)
include here

/-- Values are whole multiples of the least positive one. -/
theorem exists_multiple : ∃ n : ℤ, x = n * 2 ^ (-1074 : ℤ) := by
  have canonical := canonical_unpack a.toModel.toBits.toBitVec
  change Canonical a.toModel.unpack at canonical
  rw [valueOf] at here
  rcases real_cases here with ⟨s, -, rfl⟩ | ⟨s, m, e, h, finite, rfl⟩
  · exact ⟨0, by simp⟩
  · rw [finite] at canonical
    exact ⟨_, (signed_shiftLeft s m canonical.2.1).symm⟩

theorem least_le (positive : 0 < x) : 2 ^ (-1074 : ℤ) ≤ x := by
  obtain ⟨n, rfl⟩ := exists_multiple here
  have unit : (0 : ℝ) < 2 ^ (-1074 : ℤ) := zpow_pos two_pos _
  have whole : 0 < n := by exact_mod_cast pos_of_mul_pos_left positive unit.le
  exact le_mul_of_one_le_left unit.le (by exact_mod_cast whole)

theorem value_abs_of_le (fits : |x| ≤ 2 ^ (1023 : ℤ)) : valueOf a.abs = some ↑|x| := by
  have below : |x| < 2 ^ 1024 := by
    refine fits.trans_lt ?_
    exact_mod_cast zpow_lt_zpow_right₀ (one_lt_two : (1 : ℝ) < 2) (by norm_num : (1023 : ℤ) < 1024)
  have kept : value (stored a.toModel.unpack.abs) = some (overflow |x|) :=
    value_stored (canonical_abs (canonical_unpack _)) (abs_nonneg x) (value_abs here)
  rwa [overflow, if_pos below] at kept

end

theorem value_up : valueOf (powerOfTwo 600) = some ↑((2 : ℝ) ^ (600 : ℤ)) :=
  IsPower.value_positive rfl

theorem value_negligible : valueOf (powerOfTwo (-54)) = some ↑((2 : ℝ) ^ (-54 : ℤ)) :=
  IsPower.value_positive rfl

theorem value_long : valueOf (powerOfTwo 511) = some ↑((2 : ℝ) ^ (511 : ℤ)) :=
  IsPower.value_positive rfl

theorem value_short : valueOf (powerOfTwo (-459)) = some ↑((2 : ℝ) ^ (-459 : ℤ)) :=
  IsPower.value_positive rfl

theorem lt_iff_real {a b : Float} {x y : ℝ} (ha : valueOf a = some ↑x) (hb : valueOf b = some ↑y) :
    a < b ↔ x < y := by
  rw [lt_iff_value, ha, hb]
  simp

theorem finite_of_value {a : Float} {x : ℝ} (here : valueOf a = some ↑x) :
    a.isInf = false ∧ a.isNaN = false := by
  change a.toModel.unpack.isInf = false ∧ a.toModel.unpack.isNaN = false
  rcases real_cases here with ⟨s, zero, -⟩ | ⟨s, m, e, h, finite, -⟩
  · rw [zero]
    exact ⟨rfl, rfl⟩
  · rw [finite]
    exact ⟨rfl, rfl⟩

section

variable {ax ay a b : Float} {x y : ℝ}

/-- The legs may be scaled before the root is taken. -/
theorem exists_core (near : Near x a) (near' : Near y b) (le : y ≤ x) (low : 2 ^ (-489 : ℤ) ≤ y)
    (high : x ≤ 2 ^ (510 : ℤ)) :
    ∃ l : ℝ, valueOf (hypotCore a b) = some ↑l ∧ 4 / 5 * x ≤ l ∧ l ≤ 3 * x := by
  have far : (2 : ℝ) ^ (-1000 : ℤ) ≤ 2 ^ (-489 : ℤ) := zpow_le_zpow_right₀ one_le_two (by norm_num)
  have positive : 0 < y := (zpow_pos two_pos _).trans_le low
  obtain ⟨p, hp, closep⟩ := near.share (far.trans (low.trans le))
  obtain ⟨q, hq, closeq⟩ := near'.share (far.trans low)
  rw [abs_le] at closep closeq
  have legs : Legs p q :=
    { low := zpow_le_of_succ_le low (by linarith)
      ordered := by linarith
      long := le_zpow_succ high (by linarith)
      short := le_zpow_succ high (by linarith) }
  obtain ⟨l, hl, lo, hi⟩ := hypotCore_bounds legs hp hq
  exact ⟨l, hl, by linarith, by linarith⟩

variable (hx : valueOf ax = some ↑x) (hy : valueOf ay = some ↑y) (nonneg : 0 ≤ y) (le : y ≤ x)
  (fits : x ≤ 2 ^ (1020 : ℤ))
include hx hy nonneg le fits

theorem exists_sum : ∃ l : ℝ, valueOf (ax + ay) = some ↑l ∧ x / 4 ≤ l := by
  have sum : |x + y| = x + y := abs_of_nonneg (by linarith)
  obtain ⟨l, hl, close⟩ := near_add hx hy
    ((le_zpow_succ fits (by rw [sum]; linarith)).trans
      (zpow_le_zpow_right₀ one_le_two (by norm_num)))
  refine ⟨l, hl, ?_⟩
  rcases (nonneg.trans le).eq_or_lt with rfl | positive
  · have above := Scalar.LawfulRounding.add_nonneg ((le_iff_real value_zero hx).mpr le_rfl)
      ((le_iff_real value_zero hy).mpr nonneg)
    simpa using (le_iff_real value_zero hl).mp above
  · have least := zpow_le_of_succ_le (k := -1075) (x := x / 2) (least_le hx positive) (by linarith)
    rw [sum, slack, abs_le] at close
    linarith

variable (alike : ¬ay ≤ ax * powerOfTwo (-54))
include alike

/-- The shorter leg is not negligible. -/
theorem exists_alike : 0 < y ∧ x * 2 ^ (-54 : ℤ) - slack (x * 2 ^ (-54 : ℤ)) < y := by
  have hx0 : 0 ≤ x := nonneg.trans le
  have exact : |x * 2 ^ (-54 : ℤ)| = x * 2 ^ (-54 : ℤ) := abs_of_nonneg (by positivity)
  have small : x * 2 ^ (-54 : ℤ) ≤ x := mul_le_of_le_one_right hx0 (by norm_num)
  obtain ⟨r, hr, close⟩ := near_mul hx value_negligible (by
    rw [exact]
    exact (small.trans fits).trans (zpow_le_zpow_right₀ one_le_two (by norm_num)))
  have less : r < y := lt_of_not_ge fun back => alike ((le_iff_real hy hr).mpr back)
  rw [exact, abs_le] at close
  refine ⟨lt_of_le_of_lt ?_ less, by linarith⟩
  have product := hasRounded_mul (canonical_unpack _) (canonical_unpack _) hx value_negligible hx0
    (zpow_pos two_pos _).le
  exact (le_iff_real value_zero hr).mp (le_of_hasRounded hasRounded_number_zero product
    (EReal.coe_le_coe_iff.mpr (by positivity)))

theorem exists_far (long : 2 ^ (511 : ℤ) < x) :
    ∃ l : ℝ, valueOf (hypotCore (ax / powerOfTwo 600) (ay / powerOfTwo 600) * powerOfTwo 600) =
      some ↑l ∧ x / 4 ≤ l := by
  have up : (0 : ℝ) < 2 ^ (600 : ℤ) := zpow_pos two_pos _
  have positive : 0 < x := (zpow_pos two_pos _).trans long
  have far : (2 : ℝ) ^ (-1000 : ℤ) ≤ x * 2 ^ (-54 : ℤ) := by
    rw [← div_le_iff₀ (zpow_pos two_pos _), ← zpow_sub₀ two_ne_zero]
    exact (zpow_le_zpow_right₀ one_le_two (by norm_num)).trans long.le
  obtain ⟨above, less⟩ := exists_alike hx hy nonneg le fits alike
  have slight := slack_le far
  have share : x ≤ 2 ^ (55 : ℤ) * y := by
    norm_num at less slight ⊢
    linarith only [less, slight, above]
  have low : 2 ^ (-489 : ℤ) ≤ y / 2 ^ (600 : ℤ) := by
    rw [le_div_iff₀ up, ← zpow_add₀ two_ne_zero]
    refine le_of_mul_le_mul_left (share.trans' ?_) (zpow_pos two_pos 55)
    rw [← zpow_add₀ two_ne_zero]
    exact (zpow_le_zpow_right₀ one_le_two (by norm_num)).trans long.le
  have high : x / 2 ^ (600 : ℤ) ≤ 2 ^ (510 : ℤ) := by
    rw [div_le_iff₀ up, ← zpow_add₀ two_ne_zero]
    exact fits.trans (zpow_le_zpow_right₀ one_le_two (by norm_num))
  have bound {r : ℝ} (hr : 0 ≤ r) (below : r ≤ x) : |r / 2 ^ (600 : ℤ)| ≤ 2 ^ (1023 : ℤ) := by
    rw [abs_of_nonneg (div_nonneg hr up.le)]
    exact ((div_le_div_of_nonneg_right below up.le).trans high).trans
      (zpow_le_zpow_right₀ one_le_two (by norm_num))
  obtain ⟨l, hl, lo, hi⟩ := exists_core (near_div hx value_up up.ne' (bound positive.le le_rfl))
    (near_div hy value_up up.ne' (bound nonneg le)) (div_le_div_of_nonneg_right le up.le) low high
  rw [← mul_div_assoc, div_le_iff₀ up] at lo
  rw [← mul_div_assoc, le_div_iff₀ up] at hi
  have least : (2 : ℝ) ^ (-999 : ℤ) ≤ x :=
    (zpow_le_zpow_right₀ one_le_two (by norm_num)).trans long.le
  have most : |l * 2 ^ (600 : ℤ)| ≤ 2 ^ (1022 : ℤ) := by
    rw [abs_of_nonneg (by linarith only [positive, lo])]
    exact le_zpow_succ (le_zpow_succ fits le_rfl) (by linarith only [positive, hi])
  obtain ⟨r, hr, close⟩ := (near_mul hl value_up
    (most.trans (zpow_le_zpow_right₀ one_le_two (by norm_num)))).share
    (zpow_le_of_succ_le (k := -1000) least (by linarith only [positive, lo]))
  rw [abs_le] at close
  exact ⟨r, hr, by linarith only [positive, lo, close.1]⟩

theorem exists_short (short : y < 2 ^ (-459 : ℤ)) :
    ∃ l : ℝ, valueOf (hypotCore (ax * powerOfTwo 600) (ay * powerOfTwo 600) / powerOfTwo 600) =
      some ↑l ∧ x / 4 ≤ l := by
  have up : (0 : ℝ) < 2 ^ (600 : ℤ) := zpow_pos two_pos _
  obtain ⟨above, less⟩ := exists_alike hx hy nonneg le fits alike
  have positive : 0 < x := above.trans_le le
  have narrow : x ≤ 2 ^ (-90 : ℤ) := by
    by_contra wide
    have wide : 2 ^ (-144 : ℤ) ≤ x * 2 ^ (-54 : ℤ) := by
      rw [← div_le_iff₀ (zpow_pos two_pos _), ← zpow_sub₀ two_ne_zero]
      exact (not_le.mp wide).le
    have slight := slack_le ((zpow_le_zpow_right₀ one_le_two (by norm_num)).trans wide)
    have far : (2 : ℝ) ^ (-459 : ℤ) ≤ 2 ^ (-145 : ℤ) := zpow_le_zpow_right₀ one_le_two (by norm_num)
    generalize x * 2 ^ (-54 : ℤ) = s at less wide slight
    have half := zpow_le_of_succ_le (k := -145) (x := y) wide
      (by linarith only [slight, less, above])
    exact absurd (half.trans_lt short) far.not_gt
  have low : 2 ^ (-489 : ℤ) ≤ y * 2 ^ (600 : ℤ) := by
    rw [← div_le_iff₀ up, ← zpow_sub₀ two_ne_zero]
    exact (zpow_le_zpow_right₀ one_le_two (by norm_num)).trans (least_le hy above)
  have high : x * 2 ^ (600 : ℤ) ≤ 2 ^ (510 : ℤ) := by
    rw [← le_div_iff₀ up, ← zpow_sub₀ two_ne_zero]
    exact narrow
  have bound {r : ℝ} (hr : 0 ≤ r) (below : r ≤ x) : |r * 2 ^ (600 : ℤ)| ≤ 2 ^ (1023 : ℤ) := by
    rw [abs_of_nonneg (mul_nonneg hr up.le)]
    exact ((mul_le_mul_of_nonneg_right below up.le).trans high).trans
      (zpow_le_zpow_right₀ one_le_two (by norm_num))
  obtain ⟨l, hl, lo, hi⟩ := exists_core (near_mul hx value_up (bound positive.le le_rfl))
    (near_mul hy value_up (bound nonneg le)) (mul_le_mul_of_nonneg_right le up.le) low high
  rw [← mul_assoc, ← le_div_iff₀ up] at lo
  rw [← mul_assoc, ← div_le_iff₀ up] at hi
  have size : |l / 2 ^ (600 : ℤ)| = l / 2 ^ (600 : ℤ) :=
    abs_of_nonneg (by linarith only [positive, lo])
  have most : |l / 2 ^ (600 : ℤ)| ≤ 2 ^ (1022 : ℤ) := by
    rw [size]
    exact le_zpow_succ (le_zpow_succ fits le_rfl) (by linarith only [positive, hi])
  obtain ⟨r, hr, close⟩ := near_div hl value_up up.ne'
    (most.trans (zpow_le_zpow_right₀ one_le_two (by norm_num)))
  have least := zpow_le_of_succ_le (k := -1075) (x := x / 2) (least_le hx positive) (by linarith)
  rw [size, slack, abs_le] at close
  exact ⟨r, hr, by linarith only [positive, lo, hi, close.1, least]⟩

omit alike in
/-- The legs in the order of their lengths. -/
theorem exists_ordered : ∃ l : ℝ, valueOf (if ay <= ax * powerOfTwo (-54) then ax + ay
    else if powerOfTwo 511 < ax then
      hypotCore (ax / powerOfTwo 600) (ay / powerOfTwo 600) * powerOfTwo 600
    else if ay < powerOfTwo (-459) then
      hypotCore (ax * powerOfTwo 600) (ay * powerOfTwo 600) / powerOfTwo 600
    else hypotCore ax ay) = some ↑l ∧ x / 4 ≤ l := by
  split
  · exact exists_sum hx hy nonneg le fits
  rename_i alike
  split
  · rename_i long
    exact exists_far hx hy nonneg le fits alike ((lt_iff_real value_long hx).mp long)
  rename_i moderate
  split
  · rename_i short
    exact exists_short hx hy nonneg le fits alike ((lt_iff_real hy value_short).mp short)
  rename_i plain
  have low : 2 ^ (-459 : ℤ) ≤ y :=
    not_lt.mp fun less => plain ((lt_iff_real hy value_short).mpr less)
  have high : x ≤ 2 ^ (511 : ℤ) :=
    not_lt.mp fun less => moderate ((lt_iff_real value_long hx).mpr less)
  have legs : Legs x y :=
    { low := (zpow_le_zpow_right₀ one_le_two (by norm_num)).trans low
      ordered := by linarith
      long := high
      short := le.trans high }
  obtain ⟨l, hl, lo, -⟩ := hypotCore_bounds legs hx hy
  exact ⟨l, hl, by linarith⟩

end

/-- The hypotenuse over legs that are not among the greatest doubles. -/
theorem exists_hypot {a b : Float} {x y : ℝ} (ha : valueOf a = some ↑x) (hb : valueOf b = some ↑y)
    (fitx : |x| ≤ 2 ^ (1020 : ℤ)) (fity : |y| ≤ 2 ^ (1020 : ℤ)) :
    ∃ l : ℝ, valueOf (hypot a b) = some ↑l ∧ |x| ≤ 4 * l ∧ |y| ≤ 4 * l := by
  have far : (2 : ℝ) ^ (1020 : ℤ) ≤ 2 ^ (1023 : ℤ) := zpow_le_zpow_right₀ one_le_two (by norm_num)
  have hx := value_abs_of_le ha (fitx.trans far)
  have hy := value_abs_of_le hb (fity.trans far)
  simp only [hypot, (finite_of_value ha).1, (finite_of_value ha).2, (finite_of_value hb).1,
    (finite_of_value hb).2, Bool.or_self, Bool.false_eq_true, if_false]
  split
  · rename_i less
    have le : |x| ≤ |y| := ((lt_iff_real hx hy).mp less).le
    obtain ⟨l, hl, lo⟩ := exists_ordered hy hx (abs_nonneg x) le fity
    exact ⟨l, hl, by linarith only [lo, le], by linarith only [lo, le]⟩
  · rename_i more
    have le : |y| ≤ |x| := not_lt.mp fun less => more ((lt_iff_real hx hy).mpr less)
    obtain ⟨l, hl, lo⟩ := exists_ordered hx hy (abs_nonneg y) le fitx
    exact ⟨l, hl, by linarith only [lo, le], by linarith only [lo, le]⟩

theorem hypot_number {a b : Float} (ha : Within 1020 a) (hb : Within 1020 b) :
    hypot a b ≤ hypot a b := by
  obtain ⟨x, hx, boundx⟩ := ha
  obtain ⟨y, hy, boundy⟩ := hb
  obtain ⟨l, hl, -, -⟩ := exists_hypot hx hy boundx boundy
  exact (le_iff_real hl hl).mpr le_rfl

end Geospatial.Double
