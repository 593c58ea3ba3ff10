import Mathlib
import Geospatial.Proofs.Scalar.DoubleOrder
import Geospatial.Proofs.Scalar.Real

/-! Rounding to doubles as a relation of exact values, of which only the order matters: a greater
value is not rounded to a lesser one. The significand that is computed from the bits of a value is
the nearest whole number in units of its last place, and the even one of two. -/
namespace Geospatial.Double

open Float.Model (UnpackedFloat Format totalExponent)
open Float.Model.UnpackedFloat (Accuracy ExtendedMantissa Sign)

/-- The whole number nearest to `x`, the even one of two. -/
structure Nearest (x : ℝ) (n : ℕ) : Prop where
  low : (n : ℝ) - 1 / 2 ≤ x
  high : x ≤ n + 1 / 2
  even : x = n - 1 / 2 ∨ x = n + 1 / 2 → Even n

theorem nearest_natCast (n : ℕ) : Nearest n n where
  low := by linarith
  high := by linarith
  even := by
    rintro (tie | tie) <;> linarith

theorem Nearest.mono {x y : ℝ} {n k : ℕ} (hx : Nearest x n) (hy : Nearest y k) (le : x ≤ y) :
    n ≤ k := by
  by_contra less
  have next : (k : ℝ) + 1 ≤ n := by exact_mod_cast not_le.mp less
  have low := hx.low
  have high := hy.high
  -- both lie in the middle between two neighbors, of which only one is even
  obtain ⟨i, hi⟩ := hx.even (.inl (by linarith))
  obtain ⟨j, hj⟩ := hy.even (.inr (by linarith))
  have neighbors : n = k + 1 := by exact_mod_cast (by linarith : (n : ℝ) = k + 1)
  omega

/-- The exponent of the double that a value is rounded to: the least one, or one that leaves all 53
bits of the significand before the point. -/
structure Fits (x : ℝ) (e : ℤ) : Prop where
  least : -1074 ≤ e
  below : x < 2 ^ 53 * 2 ^ e
  full : e = -1074 ∨ 2 ^ 52 * 2 ^ e ≤ x

theorem binade_le {e f : ℤ} (less : e < f) : (2 : ℝ) ^ 53 * 2 ^ e ≤ 2 ^ 52 * 2 ^ f := by
  have next : (2 : ℝ) ^ (e + 1) ≤ 2 ^ f := zpow_le_zpow_right₀ one_le_two less
  rw [zpow_add_one₀ two_ne_zero] at next
  linarith

theorem Fits.mono {x y : ℝ} {e f : ℤ} (hx : Fits x e) (hy : Fits y f) (le : x ≤ y) : e ≤ f := by
  by_contra more
  rcases hx.full with least | full
  · have := hy.least
    omega
  · exact (hy.below.trans_le (binade_le (not_le.mp more))).not_ge (full.trans le)

theorem Fits.nearest_le {x : ℝ} {e : ℤ} {n : ℕ} (fits : Fits x e) (near : Nearest (x / 2 ^ e) n) :
    n ≤ 2 ^ 53 :=
  near.mono (nearest_natCast _)
    ((div_le_iff₀ (zpow_pos two_pos e)).mpr (by exact_mod_cast fits.below.le))

theorem Fits.le_nearest {x : ℝ} {e : ℤ} {n : ℕ} (fits : Fits x e) (near : Nearest (x / 2 ^ e) n) :
    e = -1074 ∨ 2 ^ 52 ≤ n :=
  fits.full.imp_right fun full => (nearest_natCast _).mono near
    ((le_div_iff₀ (zpow_pos two_pos e)).mpr (by exact_mod_cast full))

/-- The value `r` is the one that `x` is rounded to where the exponent has no upper limit. -/
inductive Rounds (x : ℝ) : ℝ → Prop where
  | intro {e : ℤ} {n : ℕ} : Fits x e → Nearest (x / 2 ^ e) n → Rounds x (n * 2 ^ e)

/-- A greater value is not rounded to a lesser one. -/
theorem Rounds.mono {x y r s : ℝ} (hx : Rounds x r) (hy : Rounds y s) (le : x ≤ y) : r ≤ s := by
  obtain @⟨e, n, fits, near⟩ := hx
  obtain @⟨f, k, fits', near'⟩ := hy
  have unit (e : ℤ) : (0 : ℝ) < 2 ^ e := zpow_pos two_pos e
  rcases (fits.mono fits' le).eq_or_lt with rfl | less
  · have order : n ≤ k := near.mono near' (div_le_div_of_nonneg_right le (unit e).le)
    exact mul_le_mul_of_nonneg_right (Nat.cast_le.mpr order) (unit e).le
  · have small : n ≤ 2 ^ 53 := fits.nearest_le near
    have great : 2 ^ 52 ≤ k := (fits'.le_nearest near').resolve_left (by
      have := fits.least
      omega)
    calc (n : ℝ) * 2 ^ e ≤ 2 ^ 53 * 2 ^ e :=
          mul_le_mul_of_nonneg_right (by exact_mod_cast small) (unit e).le
      _ ≤ 2 ^ 52 * 2 ^ f := binade_le less
      _ ≤ k * 2 ^ f := mul_le_mul_of_nonneg_right (by exact_mod_cast great) (unit f).le

/-- The significand is the whole part of a value, and its two last bits tell on which side of the
middle the rest lies. -/
def Truncates (em : ExtendedMantissa) (x : ℝ) : Prop :=
  match em.roundBit, em.stickyBit with
  | false, false => x = em.mantissa
  | false, true => em.mantissa < x ∧ x < em.mantissa + 1 / 2
  | true, false => x = em.mantissa + 1 / 2
  | true, true => em.mantissa + 1 / 2 < x ∧ x < em.mantissa + 1

namespace Truncates

variable {em : ExtendedMantissa} {x : ℝ}

theorem bounds (h : Truncates em x) : em.mantissa ≤ x ∧ x < em.mantissa + 1 := by
  rcases em with ⟨m, _ | _, _ | _⟩ <;> simp only [Truncates] at h ⊢ <;> constructor <;> linarith

theorem nearest (h : Truncates em x) : Nearest x em.roundedMantissa := by
  rcases em with ⟨m, _ | _, _ | _⟩
  · obtain rfl : x = m := h
    exact nearest_natCast m
  · obtain ⟨low, high⟩ : m < x ∧ x < m + 1 / 2 := h
    change Nearest x m
    exact ⟨by linarith, by linarith, by rintro (tie | tie) <;> linarith⟩
  · obtain rfl : x = m + 1 / 2 := h
    change Nearest _ (m + m % 2)
    obtain ⟨k, rfl | rfl⟩ := m.even_or_odd'
    · rw [Nat.mul_mod_right, Nat.add_zero]
      exact ⟨by linarith, by linarith, fun _ => even_two_mul k⟩
    · rw [Nat.mul_add_mod]
      refine ⟨?_, ?_, fun _ => ⟨k + 1, by omega⟩⟩ <;> push_cast <;> linarith
  · obtain ⟨low, high⟩ : m + 1 / 2 < x ∧ x < m + 1 := h
    change Nearest x (m + 1)
    constructor
    · push_cast
      linarith
    · push_cast
      linarith
    · push_cast
      rintro (tie | tie) <;> linarith

theorem shiftRightOne (h : Truncates em x) : Truncates em.shiftRightOne (x / 2) := by
  rcases em with ⟨m, round, sticky⟩
  obtain ⟨k, rfl | rfl⟩ := m.even_or_odd'
  · have half : 2 * k / 2 = k := by omega
    have last : (2 * k % 2 != 0) = false := by simp
    cases round <;> cases sticky <;>
      simp only [Truncates, ExtendedMantissa.shiftRightOne, half, last, Bool.or_self, Bool.or_true,
        Bool.or_false, Nat.cast_mul, Nat.cast_ofNat] at h ⊢
    · linarith
    all_goals constructor <;> linarith
  · have half : (2 * k + 1) / 2 = k := by omega
    have last : ((2 * k + 1) % 2 != 0) = true := by simp
    cases round <;> cases sticky <;>
      simp only [Truncates, ExtendedMantissa.shiftRightOne, half, last, Bool.or_self, Bool.or_true,
        Bool.or_false, Nat.cast_add, Nat.cast_mul, Nat.cast_ofNat, Nat.cast_one] at h ⊢
    · linarith
    all_goals constructor <;> linarith

theorem shiftRight (h : Truncates em x) (k : ℕ) : Truncates (em >>> k) (x / 2 ^ k) := by
  change Truncates (k.repeat ExtendedMantissa.shiftRightOne em) _
  induction k with
  | zero => simpa [Nat.repeat] using h
  | succ k ih =>
    rw [Nat.repeat, pow_succ, ← div_div]
    exact ih.shiftRightOne

end Truncates

end Geospatial.Double
