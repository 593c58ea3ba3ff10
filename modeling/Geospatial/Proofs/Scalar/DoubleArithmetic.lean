import Mathlib
import Geospatial.Proofs.Scalar.DoubleOrder
import Geospatial.Proofs.Scalar.DoubleRounding
import Geospatial.Proofs.Scalar.Rounding
import Geospatial.Proofs.Scalar.DoubleValue
import Geospatial.Proofs.Scalar.Exact

/-! Doubles obey the laws of rounding and of sums. Each operation whose result is zero or more has
the value that the exact result is rounded to, infinite operands and results included. The only sum
of numbers that is none is that of two infinities of unlike sign; rounding makes a number of a
number, and so do the bits of a double. -/
namespace Geospatial.Double

open Float.Model (UnpackedFloat Format totalExponent)
open Float.Model.UnpackedFloat (Sign)

/-- The value of a double that is finite and not zero. -/
noncomputable def signed (s : Sign) (m : ℕ) (e : ℤ) : ℝ := (s.apply m : ℤ) * 2 ^ e

theorem signed_positive (m : ℕ) (e : ℤ) : signed .positive m e = magnitude m e := rfl

theorem signed_negative (m : ℕ) (e : ℤ) : signed .negative m e = -magnitude m e := by
  change ((-(m : ℤ) : ℤ) : ℝ) * 2 ^ e = _
  rw [Int.cast_neg, Int.cast_natCast, neg_mul]
  rfl

theorem value_finite (s : Sign) (m : ℕ) (e : ℤ) (h : 0 < m) :
    value (.finite s m e h) = some ↑(signed s m e) := by
  cases s with
  | negative => rw [signed_negative]; rfl
  | positive => rfl

theorem eq_positive_of_signed {s : Sign} {m : ℕ} {e : ℤ} (h : 0 < m) (nonneg : 0 ≤ signed s m e) :
    s = .positive := by
  cases s with
  | negative =>
    rw [signed_negative] at nonneg
    linarith [magnitude_pos h e]
  | positive => rfl

theorem signed_shiftLeft (s : Sign) (m : ℕ) {e f : ℤ} (le : f ≤ e) :
    (s.apply (m <<< (e - f).toNat : ℕ) : ℤ) * (2 : ℝ) ^ f = signed s m e := by
  have same := magnitude_shiftLeft m le
  rw [magnitude, magnitude] at same
  cases s with
  | negative =>
    change ((-((m <<< (e - f).toNat : ℕ) : ℤ) : ℤ) : ℝ) * 2 ^ f = ((-(m : ℤ) : ℤ) : ℝ) * 2 ^ e
    rw [Int.cast_neg, Int.cast_neg, Int.cast_natCast, Int.cast_natCast, neg_mul, neg_mul, same]
  | positive => exact same

theorem value_cases {u : UnpackedFloat} {x : EReal} (here : value u = some x) :
    (u = .infinity .negative ∧ x = ⊥) ∨ (u = .infinity .positive ∧ x = ⊤) ∨
      (∃ s, u = .zero s ∧ x = ↑(0 : ℝ)) ∨ ∃ s m e h, u = .finite s m e h ∧ x = ↑(signed s m e) := by
  rcases u with (_ | _) | _ | s | ⟨s, m, e, h⟩
  case notANumber => contradiction
  case finite =>
    rw [value_finite] at here
    exact .inr (.inr (.inr ⟨s, m, e, h, rfl, (Option.some.inj here).symm⟩))
  all_goals
    obtain rfl := Option.some.inj here
    simp

theorem hasRounded_infinity : HasRounded (stored (.infinity .positive)) ⊤ := ⟨⊤, .infinite, rfl⟩

theorem hasRounded_sub {a b : UnpackedFloat} (ca : Canonical a) (cb : Canonical b) {x y : EReal}
    (ha : value a = some x) (hb : value b = some y) (less : y < x) :
    HasRounded (stored (UnpackedFloat.sub .binary64 a b)) (x - y) := by
  rcases value_cases ha with ⟨rfl, rfl⟩ | ⟨rfl, rfl⟩ | ⟨s, rfl, rfl⟩ | ⟨s, m, e, h, rfl, rfl⟩
  · exact absurd less not_lt_bot
  · rcases value_cases hb with ⟨rfl, rfl⟩ | ⟨rfl, rfl⟩ | ⟨s', rfl, rfl⟩ | ⟨s', m', e', h', rfl, rfl⟩
    · exact hasRounded_infinity
    · exact absurd less (lt_irrefl _)
    · exact hasRounded_infinity
    · exact hasRounded_infinity
  · rcases value_cases hb with ⟨rfl, rfl⟩ | ⟨rfl, rfl⟩ | ⟨s', rfl, rfl⟩ | ⟨s', m', e', h', rfl, rfl⟩
    · exact hasRounded_infinity
    · exact absurd less not_top_lt
    · exact absurd less (lt_irrefl _)
    · cases s' with
      | negative =>
        rw [signed_negative, ← EReal.coe_sub, sub_neg_eq_add, zero_add]
        exact hasRounded_canonical (s := .negative) cb
      | positive => exact absurd (EReal.coe_lt_coe_iff.mp less) (magnitude_pos h' e').not_gt
  · rcases value_cases hb with ⟨rfl, rfl⟩ | ⟨rfl, rfl⟩ | ⟨s', rfl, rfl⟩ | ⟨s', m', e', h', rfl, rfl⟩
    · exact hasRounded_infinity
    · exact absurd less not_top_lt
    · obtain rfl := eq_positive_of_signed h (EReal.coe_lt_coe_iff.mp less).le
      rw [← EReal.coe_sub, sub_zero]
      exact hasRounded_canonical ca
    · rw [← EReal.coe_sub]
      refine hasRounded_normalize _ ?_ (sub_nonneg.mpr (EReal.coe_lt_coe_iff.mp less).le)
      rw [Int.cast_sub, sub_mul, signed_shiftLeft s m (min_le_left e e'),
        signed_shiftLeft s' m' (min_le_right e e')]

theorem hasRounded_add {a b : UnpackedFloat} (ca : Canonical a) (cb : Canonical b) {x y : EReal}
    (ha : value a = some x) (hb : value b = some y) (hx : 0 ≤ x) (hy : 0 ≤ y) :
    HasRounded (stored (UnpackedFloat.add .binary64 a b)) (x + y) := by
  rcases value_cases ha with ⟨rfl, rfl⟩ | ⟨rfl, rfl⟩ | ⟨s, rfl, rfl⟩ | ⟨s, m, e, h, rfl, rfl⟩
  · exact absurd hx (not_le.mpr EReal.bot_lt_zero)
  · rw [EReal.top_add_of_ne_bot (EReal.bot_lt_zero.trans_le hy).ne']
    rcases value_cases hb with ⟨rfl, rfl⟩ | ⟨rfl, rfl⟩ | ⟨s', rfl, rfl⟩ | ⟨s', m', e', h', rfl, rfl⟩
    · exact absurd hy (not_le.mpr EReal.bot_lt_zero)
    all_goals exact hasRounded_infinity
  · rw [EReal.coe_zero, zero_add]
    rcases value_cases hb with ⟨rfl, rfl⟩ | ⟨rfl, rfl⟩ | ⟨s', rfl, rfl⟩ | ⟨s', m', e', h', rfl, rfl⟩
    · exact absurd hy (not_le.mpr EReal.bot_lt_zero)
    · exact hasRounded_infinity
    · cases s <;> cases s' <;> exact hasRounded_zero _
    · obtain rfl := eq_positive_of_signed h' (EReal.coe_le_coe_iff.mp hy)
      exact hasRounded_canonical cb
  · obtain rfl := eq_positive_of_signed h (EReal.coe_le_coe_iff.mp hx)
    rcases value_cases hb with ⟨rfl, rfl⟩ | ⟨rfl, rfl⟩ | ⟨s', rfl, rfl⟩ | ⟨s', m', e', h', rfl, rfl⟩
    · exact absurd hy (not_le.mpr EReal.bot_lt_zero)
    · exact hasRounded_infinity
    · rw [EReal.coe_zero, add_zero]
      exact hasRounded_canonical ca
    · rw [← EReal.coe_add]
      refine hasRounded_normalize _ ?_ (add_nonneg (EReal.coe_le_coe_iff.mp hx)
        (EReal.coe_le_coe_iff.mp hy))
      rw [Int.cast_add, add_mul, signed_shiftLeft _ m (min_le_left e e'),
        signed_shiftLeft s' m' (min_le_right e e')]

theorem hasRounded_square {a : UnpackedFloat} (ca : Canonical a) {x : EReal}
    (ha : value a = some x) (hx : 0 ≤ x) :
    HasRounded (stored (UnpackedFloat.mul .binary64 a a)) (x * x) := by
  rcases value_cases ha with ⟨rfl, rfl⟩ | ⟨rfl, rfl⟩ | ⟨s, rfl, rfl⟩ | ⟨s, m, e, h, rfl, rfl⟩
  · exact absurd hx (not_le.mpr EReal.bot_lt_zero)
  · rw [EReal.top_mul_top]
    exact hasRounded_infinity
  · rw [← EReal.coe_mul, mul_zero]
    cases s <;> exact hasRounded_zero _
  · obtain rfl := eq_positive_of_signed h (EReal.coe_le_coe_iff.mp hx)
    have positive : 0 < m * m := Nat.mul_pos h h
    rw [← EReal.coe_mul, signed_positive]
    refine hasRounded_roundWithAccuracy positive ?_ ?_
    · rw [magnitude, zpow_add₀ two_ne_zero, mul_mul_mul_comm, mul_div_cancel_right₀ _ (by positivity),
        ← Nat.cast_mul]
      rfl
    · obtain ⟨_, least, full⟩ := ca
      rw [targetExponent_eq]
      rcases full with rfl | full
      · omega
      · have length : 104 ≤ (m * m).log2 := by
          rw [Nat.le_log2 positive.ne']
          exact (Nat.mul_le_mul full full).trans' (by norm_num)
        omega

/-- The root of a value, infinite where the value is. -/
noncomputable def root (x : EReal) : EReal := if x = ⊤ then ⊤ else ↑(√x.toReal)

theorem root_mono {x y : EReal} (hx : 0 ≤ x) (le : x ≤ y) : root x ≤ root y := by
  unfold root
  split
  · rename_i infinite
    rw [if_pos (top_unique (infinite.symm.trans_le le))]
  · split
    · exact le_top
    · rename_i finite
      refine EReal.coe_le_coe_iff.mpr (Real.sqrt_le_sqrt (EReal.toReal_le_toReal le ?_ finite))
      exact (EReal.bot_lt_zero.trans_le hx).ne'

/-- Whether the root of a whole number lies before or after the middle of two others is told by
what its square leaves over. -/
theorem truncates_sqrt (n : ℕ) : Truncates (.ofMantissaAndAccuracy n.sqrt
    (if n - n.sqrt * n.sqrt = 0 then .exact
      else .inexact (if n - n.sqrt * n.sqrt ≤ n.sqrt then .lt else .gt))) √(n : ℝ) := by
  have low := Nat.sqrt_le n
  have high := Nat.sqrt_le_add n
  generalize n.sqrt = r at *
  have nonneg : (0 : ℝ) ≤ r := Nat.cast_nonneg r
  split
  · obtain rfl : n = r * r := by omega
    change √((r * r : ℕ) : ℝ) = r
    rw [Nat.cast_mul, Real.sqrt_mul_self nonneg]
  · split
    · have above : (r * r : ℝ) + 1 ≤ n := by exact_mod_cast (by omega : r * r + 1 ≤ n)
      have below : (n : ℝ) ≤ r * r + r := by exact_mod_cast (by omega : n ≤ r * r + r)
      change (r : ℝ) < √n ∧ √n < r + 1 / 2
      rw [Real.lt_sqrt nonneg, Real.sqrt_lt' (by linarith)]
      constructor <;> linarith
    · have above : (r * r : ℝ) + r + 1 ≤ n := by exact_mod_cast (by omega : r * r + r + 1 ≤ n)
      have below : (n : ℝ) ≤ r * r + r + r := by exact_mod_cast high
      change r + 1 / 2 < √(n : ℝ) ∧ √n < r + 1
      rw [Real.lt_sqrt (by linarith), Real.sqrt_lt' (by linarith)]
      constructor <;> linarith

theorem hasRounded_sqrt {a : UnpackedFloat} {x : EReal} (ha : value a = some x) (hx : 0 ≤ x) :
    HasRounded (stored (UnpackedFloat.sqrt .binary64 a)) (root x) := by
  rcases value_cases ha with ⟨rfl, rfl⟩ | ⟨rfl, rfl⟩ | ⟨s, rfl, rfl⟩ | ⟨s, m, e, h, rfl, rfl⟩
  · exact absurd hx (not_le.mpr EReal.bot_lt_zero)
  · rw [root, if_pos rfl]
    exact hasRounded_infinity
  · rw [root, if_neg (EReal.coe_ne_top 0), EReal.toReal_coe, Real.sqrt_zero]
    exact hasRounded_zero s
  · obtain rfl := eq_positive_of_signed h (EReal.coe_le_coe_iff.mp hx)
    rw [root, if_neg (EReal.coe_ne_top _), EReal.toReal_coe, signed_positive]
    unfold UnpackedFloat.sqrt UnpackedFloat.sqrtCore
    dsimp only
    generalize places : min (e.ediv 2) (Format.binary64.targetExponent
      ((totalExponent m e + 1).ediv 2)) = t
    have target : Format.binary64.targetExponent ((totalExponent m e + 1).ediv 2) =
        max ((m.log2 + 1 + e + 1) / 2 - 53) (-1074) := rfl
    have half : e.ediv 2 = e / 2 := rfl
    rw [target, half] at places
    have length := log2_shiftLeft h (e - 2 * t).toNat
    have exact := magnitude_shiftLeft m (e := e) (f := 2 * t) (by omega)
    have filled : m <<< (e - 2 * t).toNat ≠ 0 := by
      rw [Nat.shiftLeft_eq]
      positivity
    generalize m <<< (e - 2 * t).toNat = n at *
    refine hasRounded_roundWithAccuracy ?_ ?_ ?_
    · exact Nat.sqrt_pos.mpr (Nat.pos_of_ne_zero filled)
    · have unit : (0 : ℝ) ≤ 2 ^ t := (zpow_pos two_pos t).le
      rw [← exact, magnitude, two_mul t, zpow_add₀ two_ne_zero, Real.sqrt_mul (Nat.cast_nonneg n),
        Real.sqrt_mul_self unit, mul_div_cancel_right₀ _ (zpow_ne_zero t two_ne_zero)]
      exact truncates_sqrt n
    · rw [targetExponent_eq]
      rcases le_or_gt t (-1074) with least | more
      · omega
      · have long : 2 ^ 104 ≤ n := (Nat.le_log2 filled).mp (by omega)
        have leading : 2 ^ 52 ≤ n.sqrt := Nat.le_sqrt.mpr (long.trans' (by norm_num))
        have := (Nat.le_log2 (by omega)).mpr leading
        omega

/-- Results of rounding are in the order of what is rounded. -/
theorem le_of_hasRounded {a b : Float} {x y : EReal} (ha : HasRounded a.toModel.unpack x)
    (hb : HasRounded b.toModel.unpack y) (le : x ≤ y) : a ≤ b := by
  obtain ⟨r, near, here⟩ := ha
  obtain ⟨s, near', here'⟩ := hb
  exact (le_iff_value a b).mpr ⟨r, here, s, here', near.mono near' le⟩

theorem lt_iff_value (a b : Float) : a < b ↔ ∃ x ∈ valueOf a, ∃ y ∈ valueOf b, x < y := by
  rw [Scalar.lt_iff, le_iff_value, le_iff_value]
  cases valueOf a with
  | none => simp
  | some x =>
    cases valueOf b with
    | none => simp
    | some y => simpa using (le_of_lt : x < y → x ≤ y)

theorem zero_le_iff_value (a : Float) : 0 ≤ a ↔ ∃ x ∈ valueOf a, 0 ≤ x := by
  have zero : valueOf 0 = some 0 := rfl
  rw [le_iff_value, zero]
  simp

theorem hasRounded_number_zero : HasRounded (0 : Float).toModel.unpack 0 :=
  hasRounded_zero .positive

section

variable {a b : Float} {x y : EReal} (ha : valueOf a = some x) (hb : valueOf b = some y)
include ha hb

theorem hasRounded_difference (less : y < x) : HasRounded (a - b).toModel.unpack (x - y) :=
  hasRounded_sub (canonical_unpack _) (canonical_unpack _) ha hb less

theorem hasRounded_sum (hx : 0 ≤ x) (hy : 0 ≤ y) : HasRounded (a + b).toModel.unpack (x + y) :=
  hasRounded_add (canonical_unpack _) (canonical_unpack _) ha hb hx hy

end

instance : Scalar.LawfulRounding Float where
  zero_le_zero := by decide +kernel
  sub_nonneg {a b} less := by
    obtain ⟨y, hb, x, ha, less⟩ := (lt_iff_value b a).mp less
    refine le_of_hasRounded hasRounded_number_zero (hasRounded_difference ha hb less) ?_
    exact (EReal.sub_nonneg (.inr less.ne_top) (.inl (bot_le.trans_lt less).ne')).mpr less.le
  sub_le_sub_right {a b c} less le := by
    obtain ⟨z, hc, x, ha, less⟩ := (lt_iff_value c a).mp less
    obtain ⟨x', ha', y, hb, le⟩ := (le_iff_value a b).mp le
    obtain rfl := Option.mem_unique ha ha'
    exact le_of_hasRounded (hasRounded_difference ha hc less)
      (hasRounded_difference hb hc (less.trans_le le)) (EReal.sub_le_sub le le_rfl)
  sub_le_sub_left {a b c} le less := by
    obtain ⟨y, hb, x, ha, le⟩ := (le_iff_value b a).mp le
    obtain ⟨x', ha', z, hc, less⟩ := (lt_iff_value a c).mp less
    obtain rfl := Option.mem_unique ha ha'
    exact le_of_hasRounded (hasRounded_difference hc ha less)
      (hasRounded_difference hc hb (le.trans_lt less)) (EReal.sub_le_sub le_rfl le)
  square_nonneg {a} nonneg := by
    obtain ⟨x, ha, hx⟩ := (zero_le_iff_value a).mp nonneg
    exact le_of_hasRounded hasRounded_number_zero (hasRounded_square (canonical_unpack _) ha hx)
      (mul_nonneg hx hx)
  square_le_square {a b} nonneg le := by
    obtain ⟨x, ha, hx⟩ := (zero_le_iff_value a).mp nonneg
    obtain ⟨x', ha', y, hb, le⟩ := (le_iff_value a b).mp le
    obtain rfl := Option.mem_unique ha ha'
    exact le_of_hasRounded (hasRounded_square (canonical_unpack _) ha hx)
      (hasRounded_square (canonical_unpack _) hb (hx.trans le))
      (mul_le_mul le le hx (hx.trans le))
  add_nonneg {a b} ha hb := by
    obtain ⟨x, ha, hx⟩ := (zero_le_iff_value a).mp ha
    obtain ⟨y, hb, hy⟩ := (zero_le_iff_value b).mp hb
    exact le_of_hasRounded hasRounded_number_zero (hasRounded_sum ha hb hx hy) (add_nonneg hx hy)
  add_le_add {a b c d} ha ab hc cd := by
    obtain ⟨x, ha, hx⟩ := (zero_le_iff_value a).mp ha
    obtain ⟨z, hc, hz⟩ := (zero_le_iff_value c).mp hc
    obtain ⟨x', ha', y, hb, ab⟩ := (le_iff_value a b).mp ab
    obtain ⟨z', hc', w, hd, cd⟩ := (le_iff_value c d).mp cd
    obtain rfl := Option.mem_unique ha ha'
    obtain rfl := Option.mem_unique hc hc'
    exact le_of_hasRounded (hasRounded_sum ha hc hx hz)
      (hasRounded_sum hb hd (hx.trans ab) (hz.trans cd)) (add_le_add ab cd)
  sqrt_le_sqrt {a b} nonneg le := by
    obtain ⟨x, ha, hx⟩ := (zero_le_iff_value a).mp nonneg
    obtain ⟨x', ha', y, hb, le⟩ := (le_iff_value a b).mp le
    obtain rfl := Option.mem_unique ha ha'
    exact le_of_hasRounded (hasRounded_sqrt ha hx) (hasRounded_sqrt hb (hx.trans le))
      (root_mono hx le)
  totalOrder_trans := inferInstanceAs (Std.TransCmp (compareOn orderKey))
  totalOrder_of_lt less := compare_orderKey less

theorem number_iff (x : Float) : x ≤ x ↔ x.toModel.unpack ≠ .notANumber := by
  rw [le_iff_rank, rankOf]
  rcases x.toModel.unpack with (_ | _) | _ | _ | ⟨_ | _, _, _, _⟩ <;> simp [rank]

theorem unpack_number {s : Sign} {x : BitVec 11} (notTop : x ≠ -1#_) (m : BitVec 52) :
    UnpackedFloat.unpack .binary64 (UnpackedFloat.packComponents .binary64 s x m) ≠ .notANumber := by
  rw [UnpackedFloat.unpack, UnpackedFloat.unpackExponent_packComponents]
  dsimp only
  rw [if_neg notTop]
  split
  · split <;> nofun
  · nofun

theorem stored_infinity (s : Sign) : stored (.infinity s) = .infinity s := by cases s <;> rfl

theorem stored_zero (s : Sign) : stored (.zero s) = .zero s := by cases s <;> rfl

theorem stored_number {f : UnpackedFloat} (number : f ≠ .notANumber) : stored f ≠ .notANumber := by
  cases f with
  | notANumber => exact absurd rfl number
  | infinity s => rwa [stored_infinity]
  | zero s => rwa [stored_zero]
  | finite s m e h =>
    rw [stored, pack_finite]
    split
    · have infinite := stored_infinity s
      rw [stored, UnpackedFloat.pack] at infinite
      simp [infinite]
    · rename_i bounded
      have notTop : BitVec.ofNat 11 (e + 1023 + 52).toNat ≠ -1#_ := by
        intro top
        have code : _ = 2047 := congrArg BitVec.toNat top
        rw [BitVec.toNat_ofNat] at code
        omega
      split
      · exact unpack_number notTop _
      · exact unpack_number (by decide) _

theorem roundWithAccuracy_number (s : Sign) (m : ℕ) (e : ℤ) (accuracy : UnpackedFloat.Accuracy) :
    UnpackedFloat.roundWithAccuracy .binary64 s m e accuracy ≠ .notANumber := by
  rw [UnpackedFloat.roundWithAccuracy]
  dsimp only
  split <;> nofun

theorem normalize_number (n e : ℤ) (z : Sign) :
    UnpackedFloat.normalize .binary64 n e z ≠ .notANumber := by
  rw [UnpackedFloat.normalize]
  split
  · exact roundWithAccuracy_number _ _ _ _
  · exact UnpackedFloat.noConfusion
  · exact roundWithAccuracy_number _ _ _ _

theorem add_number {a b : UnpackedFloat} (number : a ≠ .notANumber) (finite : b.isFinite = true) :
    UnpackedFloat.add .binary64 a b ≠ .notANumber := by
  cases b with
  | notANumber => contradiction
  | infinity => contradiction
  | zero s' =>
    cases a with
    | notANumber => exact absurd rfl number
    | infinity s => nofun
    | zero s =>
      rw [UnpackedFloat.add]
      split <;> nofun
    | finite => nofun
  | finite s' m' e' h' =>
    cases a with
    | notANumber => exact absurd rfl number
    | infinity s => nofun
    | zero s => nofun
    | finite s m e h => exact normalize_number _ _ _

instance : Scalar.LawfulSum Float where
  zero_number := by decide +kernel
  add_number {a b} number finite := by
    rw [number_iff] at number ⊢
    exact stored_number (add_number number finite)

end Geospatial.Double
