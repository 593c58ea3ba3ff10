import Mathlib
import Geospatial.Proofs.Scalar.DoubleNearest

/-! The exact values of doubles. Doubles compare as their values do, since a double has the one
exponent that fits its value; and a significand with its exponent is kept in the bits of a double,
up to where values overflow. -/
namespace Geospatial.Double

open Float.Model (UnpackedFloat Format)
open Float.Model.UnpackedFloat (Sign)

/-- The value of a significand with an exponent. -/
noncomputable def magnitude (m : ℕ) (e : ℤ) : ℝ := m * 2 ^ e

/-- None for what is not a number. -/
noncomputable def value : UnpackedFloat → Option EReal
  | .notANumber => none
  | .infinity .negative => some ⊥
  | .finite .negative m e _ => some ↑(-magnitude m e)
  | .zero _ => some 0
  | .finite .positive m e _ => some ↑(magnitude m e)
  | .infinity .positive => some ⊤

theorem magnitude_pos {m : ℕ} (positive : 0 < m) (e : ℤ) : 0 < magnitude m e :=
  mul_pos (Nat.cast_pos.mpr positive) (zpow_pos two_pos e)

theorem fits_of_canonical {s : Sign} {m : ℕ} {e : ℤ} {h : 0 < m} (c : Canonical (.finite s m e h)) :
    Fits (magnitude m e) e := by
  obtain ⟨bound, least, full⟩ := c
  have unit : (0 : ℝ) < 2 ^ e := zpow_pos two_pos e
  refine ⟨least, ?_, full.imp_right fun full => ?_⟩
  · exact mul_lt_mul_of_pos_right (by exact_mod_cast bound) unit
  · exact mul_le_mul_of_nonneg_right (by exact_mod_cast full) unit.le

/-- Significands and exponents are in lexical order. -/
theorem magnitude_le_iff {s s' : Sign} {m m' : ℕ} {e e' : ℤ} {h : 0 < m} {h' : 0 < m'}
    (c : Canonical (.finite s m e h)) (c' : Canonical (.finite s' m' e' h')) :
    magnitude m e ≤ magnitude m' e' ↔ e < e' ∨ e = e' ∧ m ≤ m' := by
  have fits := fits_of_canonical c
  have fits' := fits_of_canonical c'
  constructor
  · intro le
    rcases (fits.mono fits' le).eq_or_lt with rfl | less
    · exact .inr ⟨rfl, Nat.cast_le.mp (le_of_mul_le_mul_right le (zpow_pos two_pos e))⟩
    · exact .inl less
  · rintro (less | ⟨rfl, le⟩)
    · exact (lt_of_not_ge fun back => (fits'.mono fits back).not_gt less).le
    · exact mul_le_mul_of_nonneg_right (Nat.cast_le.mpr le) (zpow_pos two_pos e).le

theorem rank_le_iff_value_le {a b : UnpackedFloat} (ca : Canonical a) (cb : Canonical b) :
    (∃ x ∈ rank a, ∃ y ∈ rank b, x ≤ y) ↔ ∃ x ∈ value a, ∃ y ∈ value b, x ≤ y := by
  rcases a with (_ | _) | _ | _ | ⟨_ | _, m, e, h⟩ <;>
    rcases b with (_ | _) | _ | _ | ⟨_ | _, m', e', h'⟩ <;>
    simp [rank, value, Prod.Lex.toLex_le_toLex, -EReal.coe_neg]
  case zero.finite.negative => exact magnitude_pos h' e'
  case zero.finite.positive => exact (magnitude_pos h' e').le
  case finite.negative.zero => exact (magnitude_pos h e).le
  case finite.negative.finite.negative => rw [magnitude_le_iff cb ca, eq_comm]
  case finite.negative.finite.positive => linarith [magnitude_pos h e, magnitude_pos h' e']
  case finite.positive.zero => exact magnitude_pos h e
  case finite.positive.finite.negative => linarith [magnitude_pos h e, magnitude_pos h' e']
  case finite.positive.finite.positive => rw [magnitude_le_iff ca cb]

/-- The exact value of a double that is a number. -/
noncomputable def valueOf (x : Float) : Option EReal := value x.toModel.unpack

theorem le_iff_value (a b : Float) : a ≤ b ↔ ∃ x ∈ valueOf a, ∃ y ∈ valueOf b, x ≤ y :=
  (le_iff_rank a b).trans (rank_le_iff_value_le (canonical_unpack _) (canonical_unpack _))

/-- What is left of a value without a limit to its exponent. -/
noncomputable def overflow (r : ℝ) : EReal := if r < 2 ^ 1024 then r else ⊤

theorem overflow_mono {r s : ℝ} (le : r ≤ s) : overflow r ≤ overflow s := by
  unfold overflow
  split
  · split
    · exact EReal.coe_le_coe_iff.mpr le
    · exact le_top
  · rename_i beyond
    rw [if_neg fun below => beyond (le.trans_lt below)]

/-- What a result is after it was put into the bits of a double. -/
def stored (f : UnpackedFloat) : UnpackedFloat :=
  UnpackedFloat.unpack .binary64 (UnpackedFloat.pack .binary64 f)

theorem unpack_subnormal (s : Sign) {m : BitVec 52} (positive : 0 < m.toNat) :
    UnpackedFloat.unpack .binary64 (UnpackedFloat.packComponents .binary64 s 0#_ m) =
      .finite s m.toNat (-1074) positive := by
  have filled : m ≠ 0#_ := by
    rintro rfl
    exact absurd positive (by decide)
  unfold UnpackedFloat.unpack
  simp only [UnpackedFloat.unpackMantissa_packComponents,
    UnpackedFloat.unpackExponent_packComponents, UnpackedFloat.unpackSign_packComponents,
    Sign.ofBitVec_toBitVec]
  rw [if_neg (by decide), if_pos trivial, dif_neg filled]
  rfl

theorem unpack_normal (s : Sign) {x : BitVec 11} {m : BitVec 52} (low : 0 < x.toNat)
    (high : x.toNat < 2047) (positive : 0 < 2 ^ 52 + m.toNat) :
    UnpackedFloat.unpack .binary64 (UnpackedFloat.packComponents .binary64 s x m) =
      .finite s (2 ^ 52 + m.toNat) (x.toNat - 1075) positive := by
  have notTop : x ≠ -1#_ := by
    rintro rfl
    exact absurd high (by decide)
  have notLeast : x ≠ 0#_ := by
    rintro rfl
    exact absurd low (by decide)
  have leading : (1#1 ++ m).toNat = 2 ^ 52 + m.toNat := by
    rw [BitVec.toNat_append, ← Nat.shiftLeft_add_eq_or_of_lt m.isLt]
    rfl
  unfold UnpackedFloat.unpack
  simp only [UnpackedFloat.unpackMantissa_packComponents,
    UnpackedFloat.unpackExponent_packComponents, UnpackedFloat.unpackSign_packComponents,
    Sign.ofBitVec_toBitVec]
  rw [if_neg notTop, if_neg notLeast]
  simp only [leading]
  rfl

theorem pack_finite {s : Sign} {m : ℕ} {e : ℤ} {h : 0 < m} :
    UnpackedFloat.pack .binary64 (.finite s m e h) =
      if 2048 ≤ (e + 1023 + 52).toNat + 1 then UnpackedFloat.packedInfinity .binary64 s
      else if m.log2 + 1 = 53 then UnpackedFloat.packComponents .binary64 s
        (BitVec.ofNat 11 (e + 1023 + 52).toNat) (BitVec.ofNat 52 m)
      else UnpackedFloat.packComponents .binary64 s 0#11 (BitVec.ofNat 52 m) := rfl

theorem stored_finite {s : Sign} {m : ℕ} {e : ℤ} {h : 0 < m} (c : Canonical (.finite s m e h))
    (bounded : e ≤ 971) : stored (.finite s m e h) = .finite s m e h := by
  obtain ⟨bound, least, full⟩ := c
  rw [stored, pack_finite, if_neg (by omega)]
  split
  · rename_i length
    have leading : 2 ^ 52 ≤ m := by
      have := Nat.log2_self_le h.ne'
      rwa [show m.log2 = 52 by omega] at this
    have exponent : (BitVec.ofNat 11 (e + 1023 + 52).toNat).toNat = (e + 1075).toNat := by
      rw [BitVec.toNat_ofNat]
      omega
    have rest : (BitVec.ofNat 52 m).toNat = m - 2 ^ 52 := by
      rw [BitVec.toNat_ofNat]
      omega
    rw [unpack_normal s (by omega) (by omega) (by omega), UnpackedFloat.finite.injEq]
    exact ⟨rfl, by omega, by omega⟩
  · rename_i length
    have short : m < 2 ^ 52 := by
      by_contra leading
      have := (Nat.log2_eq_iff h.ne').mpr ⟨not_lt.mp leading, bound⟩
      omega
    have rest : (BitVec.ofNat 52 m).toNat = m := by
      rw [BitVec.toNat_ofNat]
      omega
    rw [unpack_subnormal s (by omega), UnpackedFloat.finite.injEq]
    exact ⟨rfl, by omega, by omega⟩

theorem stored_overflow {s : Sign} {m : ℕ} {e : ℤ} {h : 0 < m} (beyond : 972 ≤ e) :
    stored (.finite s m e h) = .infinity s := by
  rw [stored, pack_finite, if_pos (by omega)]
  cases s <;> rfl

/-- A result that is zero or more keeps its value in a double, or overflows. -/
theorem value_stored {f : UnpackedFloat} (canonical : Canonical f) {r : ℝ} (nonneg : 0 ≤ r)
    (here : value f = some ↑r) : value (stored f) = some (overflow r) := by
  rcases f with (_ | _) | _ | s | ⟨_ | _, m, e, h⟩
  case infinity.negative => exact absurd (Option.some.inj here).symm (EReal.coe_ne_bot r)
  case infinity.positive => exact absurd (Option.some.inj here).symm (EReal.coe_ne_top r)
  case notANumber => contradiction
  case zero =>
    obtain rfl : 0 = r := EReal.coe_eq_coe_iff.mp (Option.some.inj here)
    rw [overflow, if_pos (by positivity)]
    cases s <;> rfl
  case finite.negative =>
    obtain rfl : -magnitude m e = r := EReal.coe_eq_coe_iff.mp (Option.some.inj here)
    linarith [magnitude_pos h e]
  case finite.positive =>
    obtain rfl : magnitude m e = r := EReal.coe_eq_coe_iff.mp (Option.some.inj here)
    have fits := fits_of_canonical canonical
    rcases le_or_gt e 971 with bounded | beyond
    · rw [stored_finite canonical bounded, here, overflow, if_pos]
      calc magnitude m e < 2 ^ 53 * 2 ^ e := fits.below
        _ ≤ 2 ^ 53 * 2 ^ (971 : ℤ) :=
          mul_le_mul_of_nonneg_left (zpow_le_zpow_right₀ one_le_two bounded) (by positivity)
        _ = 2 ^ 1024 := by rw [zpow_ofNat, ← pow_add]
    · rw [stored_overflow beyond, overflow, if_neg]
      · rfl
      · rw [not_lt]
        calc (2 : ℝ) ^ 1024 = 2 ^ 52 * 2 ^ (972 : ℤ) := by rw [zpow_ofNat, ← pow_add]
          _ ≤ 2 ^ 52 * 2 ^ e :=
            mul_le_mul_of_nonneg_left (zpow_le_zpow_right₀ one_le_two beyond) (by positivity)
          _ ≤ magnitude m e := fits.full.resolve_left (by omega)

end Geospatial.Double
