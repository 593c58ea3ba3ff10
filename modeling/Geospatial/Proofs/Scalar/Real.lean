import Mathlib.Analysis.SpecialFunctions.Complex.Arg
import Mathlib.Analysis.SpecialFunctions.Pow.Real
import Mathlib.Analysis.SpecialFunctions.Trigonometric.Arctan
import Mathlib.Analysis.SpecialFunctions.Trigonometric.Inverse
import Mathlib.Analysis.Real.Hyperreal
import Geospatial.Metric
import Geospatial.Proofs.Scalar.Exact
import Geospatial.Proofs.Scalar.Rounding

/-! The real and the hyperreal numbers are exact scalars, and measure as they should. Every real
number is finite, so that the value of an unbounded quantity has no meaning; the hyperreal numbers
have infinite values. Sums of finite values are finite, and an infinite value that is not negative
exceeds every finite one. Finite values have whole parts and remainders, since a finite hyperreal
number is that of a bounded sequence, and of the whole parts of its members there are finitely many.
Where all values have them, whole parts are counted without end or up to the greatest word. -/
namespace Geospatial

section Real

/-- Decimal constants have the values they spell wherever there are fractions. -/
theorem ofScientific_eq_fraction {F : Type} [DivisionRing F] [CharZero F] (m : ℕ) (down : Bool)
    (e : ℕ) : (OfScientific.ofScientific m down e : F) =
      if down then (m : F) / ((10 ^ e : ℕ) : F) else ((m * 10 ^ e : ℕ) : F) := by
  rw [← Rat.cast_ofScientific, Rat.ofScientific_def']
  cases down <;> simp [div_eq_mul_inv]

open Classical in
noncomputable instance : Exact ℝ where
  __ := (inferInstance : Field ℝ)
  __ := (inferInstance : LinearOrder ℝ)
  __ := (inferInstance : IsStrictOrderedRing ℝ)
  ofScientific := OfScientific.ofScientific
  decLT := inferInstance
  decLE := inferInstance
  beq := ⟨fun a b => decide (a = b)⟩
  totalOrder := compare
  isFinite _ := true
  infinity := 0
  pi := Real.pi
  abs := abs
  signum x := if x < 0 then -1 else 1
  floor x := ⌊x⌋
  ceil x := ⌈x⌉
  remainder a b := a - b * if a / b < 0 then ⌈a / b⌉ else ⌊a / b⌋
  toNat x := ⌊x⌋₊
  sqrt := Real.sqrt
  hypot x y := √(x ^ 2 + y ^ 2)
  exp := Real.exp
  log := Real.log
  pow := Real.rpow
  sin := Real.sin
  cos := Real.cos
  tan := Real.tan
  asin := Real.arcsin
  acos := Real.arccos
  atan := Real.arctan
  atan2 y x := Complex.arg ⟨x, y⟩
  sinh := Real.sinh
  cosh := Real.cosh
  atanh x := Real.log ((1 + x) / (1 - x)) / 2
  beq_iff_eq _ _ := decide_eq_true_iff

noncomputable instance : Euclidean ℝ where
  abs_eq _ := rfl
  ofScientific_eq := ofScientific_eq_fraction
  hypot_nonneg _ _ := Real.sqrt_nonneg _
  hypot_mul_self a b := by
    change √(a ^ 2 + b ^ 2) * √(a ^ 2 + b ^ 2) = a * a + b * b
    rw [Real.mul_self_sqrt (by positivity)]
    ring

/-- Places on the earth are measured by the formulas. -/
noncomputable instance : Geodesy ℝ := Geodesy.formulas

instance : Scalar.LawfulSign ℝ where
  lt_of_sub_pos := sub_pos.mp
  lt_of_sub_neg := sub_neg.mp
  div_sign b := by
    have diagonal : (0 : ℝ) < Scalar.sqrt 2 := Real.sqrt_pos.mpr (Nat.cast_pos.mpr two_pos)
    have turned {a c : ℝ} (hc : c < 0) (quotient : 0 < a / c) : a < 0 :=
      ((div_pos_iff.mp quotient).resolve_left fun both => hc.not_gt both.2).1
    rcases lt_trichotomy b 0 with negative | rfl | positive
    · right
      rintro a (quotient | quotient)
      · exact turned negative quotient
      · exact turned (mul_neg_of_neg_of_pos negative diagonal) quotient
    · left
      rintro a (quotient | quotient) <;> simp at quotient
    · left
      rintro a (quotient | quotient)
      · exact (div_pos_iff_of_pos_right positive).mp quotient
      · exact (div_pos_iff_of_pos_right (mul_pos positive diagonal)).mp quotient
  zero_lt_bit := Nat.cast_pos.mpr one_pos
  bit_lt_succ {n} _ := Nat.cast_lt.mpr (Nat.pow_lt_pow_right one_lt_two n.lt_succ_self)

end Real

section Finite

open ArchimedeanClass Filter
open Hyperreal (ofSeq ofSeq_surjective ofSeq_le_ofSeq ofSeq_lt_ofSeq)

class Scalar.LawfulFinite (K : Type) [Exact K] : Prop where
  finite_zero : Scalar.isFinite (0 : K) = true
  finite_add {a b : K} : Scalar.isFinite a = true → Scalar.isFinite b = true →
    Scalar.isFinite (a + b) = true
  le_of_infinite {a b : K} : Scalar.isFinite a = true → Scalar.isFinite b = false → 0 ≤ b → a ≤ b

instance : Scalar.LawfulFinite ℝ where
  finite_zero := rfl
  finite_add _ _ := rfl
  le_of_infinite _ infinite := absurd infinite nofun

/-- Whole parts are those of the order, and every value has one: there is no infinite value. -/
class Scalar.LawfulFloor (K : Type) [Exact K] [FloorRing K] : Prop where
  floor_eq (a : K) : Scalar.floor a = (⌊a⌋ : K)
  toNat_eq (a : K) : Scalar.toNat a = ⌊a⌋₊
  isFinite_eq (a : K) : Scalar.isFinite a = true

instance : Scalar.LawfulFloor ℝ where
  floor_eq _ := rfl
  toNat_eq _ := rfl
  isFinite_eq _ := rfl

/-- Whole parts are those of the order, and they are counted as far as `limit`: the count of one
that is greater is not below the limit. -/
class Scalar.LawfulCount (K : Type) [Exact K] [FloorRing K] (limit : ℕ) : Prop where
  floor_eq (a : K) : Scalar.floor a = (⌊a⌋ : K)
  isFinite_eq (a : K) : Scalar.isFinite a = true
  toNat_eq {a : K} : ⌊a⌋₊ ≤ limit → Scalar.toNat a = ⌊a⌋₊
  le_toNat {a : K} : limit ≤ ⌊a⌋₊ → limit ≤ Scalar.toNat a

theorem floor_intCast {K : Type} [Exact K] [FloorRing K] (n : ℤ) : ⌊(n : K)⌋₊ = n.toNat := by
  rw [← Int.floor_toNat, Int.floor_intCast]

theorem floor_ceil {K : Type} [Exact K] [FloorRing K] (a : K) : ⌊(⌈a⌉ : K)⌋₊ = ⌈a⌉₊ := by
  rw [floor_intCast, Int.ceil_toNat]

class Scalar.LawfulCeil (K : Type) [Exact K] [FloorRing K] : Prop where
  ceil_eq (a : K) : Scalar.ceil a = (⌈a⌉ : K)

instance {K : Type} [Exact K] [FloorRing K] [Scalar.LawfulFloor K] (limit : ℕ) :
    Scalar.LawfulCount K limit where
  floor_eq := Scalar.LawfulFloor.floor_eq
  isFinite_eq := Scalar.LawfulFloor.isFinite_eq
  toNat_eq _ := Scalar.LawfulFloor.toNat_eq _
  le_toNat {a} many := many.trans_eq (Scalar.LawfulFloor.toNat_eq a).symm

instance : Scalar.LawfulCeil ℝ where
  ceil_eq _ := rfl

theorem Scalar.toNat_eq_iff {K : Type} [Exact K] [FloorRing K] {limit : ℕ}
    [Scalar.LawfulCount K limit] {n k : ℕ} (counted : n ≤ limit) {a : K} :
    Scalar.toNat a = k ∧ k < n ↔ ⌊a⌋₊ = k ∧ k < n := by
  rcases Nat.le_total ⌊a⌋₊ limit with few | many
  · rw [LawfulCount.toNat_eq few]
  · have beyond := LawfulCount.le_toNat many
    omega

/-- Real numbers that are counted in words of sixty-four bits: a whole part greater than all words
counts as the greatest. -/
def WordReal : Type := ℝ

noncomputable instance : Euclidean WordReal where
  __ := (inferInstance : Euclidean ℝ)
  toNat x := min (Scalar.toNat (K := ℝ) x) (UInt64.size - 1)

noncomputable instance : FloorRing WordReal := (inferInstance : FloorRing ℝ)

instance : Scalar.LawfulCount WordReal (UInt64.size - 1) where
  floor_eq _ := rfl
  isFinite_eq _ := rfl
  toNat_eq few := min_eq_left few
  le_toNat many := le_min many le_rfl

instance : Scalar.LawfulCeil WordReal where
  ceil_eq _ := rfl

/-- The order on all values is that of the numbers, as no two values are equal as numbers. -/
class Scalar.LawfulTotalOrder (K : Type) [Exact K] : Prop where
  totalOrder_eq (a b : K) : Scalar.totalOrder a b = compare a b

instance : Scalar.LawfulTotalOrder ℝ where
  totalOrder_eq _ _ := rfl

theorem Scalar.totalOrder_eq_order {K : Type} [Exact K] [Scalar.LawfulTotalOrder K] :
    (Scalar.totalOrder : K → K → Ordering) = Scalar.order := by
  funext a b
  rw [LawfulTotalOrder.totalOrder_eq]
  rcases lt_trichotomy a b with below | rfl | above
  · rw [compare_lt_iff_lt.mpr below, Scalar.order_eq_lt.mpr below]
  · rw [compare_eq_iff_eq.mpr rfl, Exact.order_eq_eq.mpr rfl]
  · rw [compare_gt_iff_gt.mpr above, Scalar.order_eq_gt.mpr above]

/-- Functions of real numbers act on the members of a sequence. -/
noncomputable def Hyperreal.lift (f : ℝ → ℝ) : Hyperreal → Hyperreal := Germ.map f

noncomputable def Hyperreal.lift₂ (f : ℝ → ℝ → ℝ) : Hyperreal → Hyperreal → Hyperreal :=
  Germ.map₂ f

open Classical in
/-- A number is finite where some natural number exceeds its absolute value. -/
noncomputable instance : Exact Hyperreal where
  __ := (inferInstance : Field Hyperreal)
  __ := (inferInstance : LinearOrder Hyperreal)
  __ := (inferInstance : IsStrictOrderedRing Hyperreal)
  ofScientific := OfScientific.ofScientific
  decLT := inferInstance
  decLE := inferInstance
  beq := ⟨fun a b => decide (a = b)⟩
  totalOrder := compare
  isFinite a := decide (0 ≤ mk a)
  infinity := Hyperreal.omega
  pi := Hyperreal.ofReal Scalar.pi
  abs := abs
  signum := Hyperreal.lift Scalar.signum
  floor := Hyperreal.lift Scalar.floor
  ceil := Hyperreal.lift Scalar.ceil
  remainder := Hyperreal.lift₂ Scalar.remainder
  toNat a := Scalar.toNat (stdPart a)
  sqrt := Hyperreal.lift Scalar.sqrt
  hypot := Hyperreal.lift₂ Scalar.hypot
  exp := Hyperreal.lift Scalar.exp
  log := Hyperreal.lift Scalar.log
  pow := Hyperreal.lift₂ Scalar.pow
  sin := Hyperreal.lift Scalar.sin
  cos := Hyperreal.lift Scalar.cos
  tan := Hyperreal.lift Scalar.tan
  asin := Hyperreal.lift Scalar.asin
  acos := Hyperreal.lift Scalar.acos
  atan := Hyperreal.lift Scalar.atan
  atan2 := Hyperreal.lift₂ Scalar.atan2
  sinh := Hyperreal.lift Scalar.sinh
  cosh := Hyperreal.lift Scalar.cosh
  atanh := Hyperreal.lift Scalar.atanh
  beq_iff_eq _ _ := decide_eq_true_iff

noncomputable instance : Euclidean Hyperreal where
  abs_eq _ := rfl
  ofScientific_eq := ofScientific_eq_fraction
  hypot_nonneg a b := by
    obtain ⟨f, rfl⟩ := Hyperreal.ofSeq_surjective a
    obtain ⟨g, rfl⟩ := Hyperreal.ofSeq_surjective b
    exact Hyperreal.ofSeq_le_ofSeq.mpr (.of_forall fun i => Euclidean.hypot_nonneg (f i) (g i))
  hypot_mul_self a b := by
    obtain ⟨f, rfl⟩ := Hyperreal.ofSeq_surjective a
    obtain ⟨g, rfl⟩ := Hyperreal.ofSeq_surjective b
    exact Germ.coe_eq.mpr (.of_forall fun i => Euclidean.hypot_mul_self (f i) (g i))

theorem Hyperreal.isFinite_iff {a : Hyperreal} : Scalar.isFinite a = true ↔ 0 ≤ mk a :=
  decide_eq_true_iff

theorem Hyperreal.isFinite_omega : Scalar.isFinite Hyperreal.omega = false :=
  decide_eq_false Hyperreal.archimedeanClassMk_omega_neg.not_ge

instance : Scalar.LawfulTotalOrder Hyperreal where
  totalOrder_eq _ _ := rfl

instance : Scalar.LawfulFinite Hyperreal where
  finite_zero := Hyperreal.isFinite_iff.mpr (by simp)
  finite_add ha hb := by
    rw [Hyperreal.isFinite_iff] at ha hb ⊢
    exact (le_min ha hb).trans (min_le_mk_add _ _)
  le_of_infinite {a b} ha hb nonneg := by
    rw [Hyperreal.isFinite_iff] at ha
    have infinite : mk b < 0 := not_le.mp (decide_eq_false_iff_not.mp hb)
    exact (lt_of_mk_lt_mk_of_nonneg (infinite.trans_le ha) nonneg).le

/-- Finite values have whole parts, and remainders by whole numbers. What is between finite values
is finite, and so are whole numbers. -/
class Scalar.LawfulWhole (K : Type) [Exact K] : Prop extends Scalar.LawfulFinite K where
  abs_eq (a : K) : Scalar.abs a = |a|
  finite_intCast (n : ℤ) : Scalar.isFinite (n : K) = true
  finite_of_between {a b c : K} : Scalar.isFinite a = true → Scalar.isFinite c = true → a ≤ b →
    b ≤ c → Scalar.isFinite b = true
  exists_floor {a : K} : Scalar.isFinite a = true →
    ∃ n : ℤ, Scalar.floor a = n ∧ n ≤ a ∧ a < n + 1
  exists_remainder {a : K} {b : ℕ} : Scalar.isFinite a = true → 0 < b →
    ∃ n : ℤ, Scalar.remainder a b = a - b * n ∧ |a - b * n| < b
  toNat_natCast {n : ℕ} : n < UInt64.size → Scalar.toNat (n : K) = n

theorem exists_remainder_real (a : ℝ) {b : ℕ} (positive : 0 < b) :
    ∃ n : ℤ, Scalar.remainder a b = a - b * n ∧ |a - b * n| < b := by
  have length : (0 : ℝ) < b := Nat.cast_pos.mpr positive
  have close (n : ℤ) (near : |a / b - n| < 1) : |a - b * n| < b := by
    have split : a - b * n = b * (a / b - n) := by field_simp
    rw [split, abs_mul, abs_of_pos length]
    exact mul_lt_of_lt_one_right length near
  refine ⟨if a / b < 0 then ⌈a / b⌉ else ⌊a / b⌋, rfl, close _ (abs_lt.mpr ?_)⟩
  split
  · constructor <;> linarith [Int.le_ceil (a / b), Int.ceil_lt_add_one (a / b)]
  · constructor <;> linarith [Int.floor_le (a / b), Int.lt_floor_add_one (a / b)]

instance : Scalar.LawfulWhole ℝ where
  abs_eq _ := rfl
  finite_intCast _ := rfl
  finite_of_between _ _ _ _ := rfl
  exists_floor {a} _ := ⟨⌊a⌋, rfl, Int.floor_le a, Int.lt_floor_add_one a⟩
  exists_remainder {a} _ _ positive := exists_remainder_real a positive
  toNat_natCast _ := Nat.floor_natCast _

namespace Hyperreal

theorem isFinite_iff_abs_le {a : Hyperreal} : Scalar.isFinite a = true ↔ ∃ n : ℕ, |a| ≤ n := by
  rw [isFinite_iff, ← mk_one, mk_le_mk]
  simp

/-- Of finitely many whole numbers, a sequence takes one almost everywhere. -/
theorem exists_constant {P : ℕ → ℤ → Prop} {size : ℤ}
    (each : ∀ᶠ i in hyperfilter ℕ, ∃ n, |n| ≤ size ∧ P i n) :
    ∃ n, ∀ᶠ i in hyperfilter ℕ, P i n := by
  have few : (Set.Icc (-size) size).Finite := Set.finite_Icc _ _
  have among : ∀ᶠ i in hyperfilter ℕ, ∃ n ∈ Set.Icc (-size) size, P i n :=
    each.mono fun i ⟨n, bound, here⟩ => ⟨n, abs_le.mp bound, here⟩
  obtain ⟨n, -, always⟩ := (Ultrafilter.eventually_exists_mem_iff few).mp among
  exact ⟨n, always⟩

theorem exists_bound {f : ℕ → ℝ} (finite : Scalar.isFinite (ofSeq f) = true) :
    ∃ n : ℕ, ∀ᶠ i in hyperfilter ℕ, |f i| ≤ n := by
  obtain ⟨n, bound⟩ := isFinite_iff_abs_le.mp finite
  exact ⟨n, (ofSeq_le_ofSeq (g := fun _ => (n : ℝ))).mp bound⟩

theorem exists_floor {a : Hyperreal} (finite : Scalar.isFinite a = true) :
    ∃ n : ℤ, Scalar.floor a = n ∧ n ≤ a ∧ a < n + 1 := by
  obtain ⟨f, rfl⟩ := ofSeq_surjective a
  obtain ⟨size, bound⟩ := exists_bound finite
  have each : ∀ᶠ i in hyperfilter ℕ, ∃ n : ℤ, |n| ≤ size + 1 ∧ ⌊f i⌋ = n := by
    refine bound.mono fun i near => ⟨_, abs_le.mpr ?_, rfl⟩
    obtain ⟨low, high⟩ := abs_le.mp near
    exact ⟨Int.le_floor.mpr (by push_cast; linarith), Int.floor_le_iff.mpr (by push_cast; linarith)⟩
  obtain ⟨n, same⟩ := exists_constant each
  refine ⟨n, ?_, ?_, ?_⟩
  · exact Germ.coe_eq.mpr (same.mono fun i here => congrArg Int.cast here)
  · exact ofSeq_le_ofSeq.mpr (same.mono fun i here => (Int.floor_eq_iff.mp here).1)
  · exact ofSeq_lt_ofSeq.mpr (same.mono fun i here => (Int.floor_eq_iff.mp here).2)

theorem exists_remainder {a : Hyperreal} {b : ℕ} (finite : Scalar.isFinite a = true)
    (positive : 0 < b) : ∃ n : ℤ, Scalar.remainder a b = a - b * n ∧ |a - b * n| < b := by
  obtain ⟨f, rfl⟩ := ofSeq_surjective a
  obtain ⟨size, bound⟩ := exists_bound finite
  have length : (1 : ℝ) ≤ b := Nat.one_le_cast.mpr positive
  have each : ∀ᶠ i in hyperfilter ℕ, ∃ n : ℤ, |n| ≤ size + 1 ∧
      Scalar.remainder (f i) b = f i - b * n ∧ |f i - b * n| < b := by
    refine bound.mono fun i near => ?_
    obtain ⟨n, exact, rest⟩ := exists_remainder_real (f i) positive
    refine ⟨n, ?_, exact, rest⟩
    have part : (b : ℝ) * |(n : ℝ)| ≤ b * (size + 1) := by
      calc (b : ℝ) * |(n : ℝ)| = |f i - (f i - b * n)| := by
            rw [sub_sub_cancel, abs_mul, Nat.abs_cast]
        _ ≤ |f i| + |f i - b * n| := abs_sub _ _
        _ ≤ size + b := by linarith
        _ ≤ b * (size + 1) := by linarith [le_mul_of_one_le_left (Nat.cast_nonneg size) length]
    exact_mod_cast le_of_mul_le_mul_left part (by linarith)
  obtain ⟨n, same⟩ := exists_constant each
  refine ⟨n, ?_, ?_⟩
  · exact Germ.coe_eq.mpr (same.mono fun i here => here.1)
  · exact ofSeq_lt_ofSeq.mpr (same.mono fun i here => here.2)

instance : Scalar.LawfulWhole Hyperreal where
  abs_eq _ := rfl
  finite_intCast n := isFinite_iff_abs_le.mpr ⟨n.natAbs, by simp⟩
  finite_of_between {a b c} ha hc ab bc := by
    obtain ⟨m, low⟩ := isFinite_iff_abs_le.mp ha
    obtain ⟨n, high⟩ := isFinite_iff_abs_le.mp hc
    refine isFinite_iff_abs_le.mpr ⟨m + n, abs_le.mpr ?_⟩
    push_cast
    constructor <;> linarith [abs_le.mp low, abs_le.mp high]
  exists_floor := exists_floor
  exists_remainder := exists_remainder
  toNat_natCast {n} _ := by
    change Scalar.toNat (stdPart (n : Hyperreal)) = n
    rw [stdPart_natCast]
    exact Nat.floor_natCast n
end Hyperreal

end Finite

end Geospatial
