import Geospatial.Proofs.Scalar.DoubleOrder

/-! Doubles in units of the least positive one are whole numbers, and in the order of the doubles.
Infinite doubles count as if the exponent of their bits were one like the others, which puts them
beyond all finite ones. -/
namespace Geospatial.Double

open Float.Model (UnpackedFloat Format)
open Float.Model.UnpackedFloat (Sign)

/-- A significand with its exponent. -/
def scaledUnits (m : ℕ) (e : ℤ) : ℕ := m * 2 ^ (e + 1074).toNat

def unitsOf : UnpackedFloat → ℤ
  | .infinity .negative => -scaledUnits (2 ^ 52) 972
  | .finite .negative m e _ => -scaledUnits m e
  | .zero _ => 0
  | .finite .positive m e _ => scaledUnits m e
  | .infinity .positive => scaledUnits (2 ^ 52) 972
  | .notANumber => 0

theorem unitsOf_unpack {b : BitVec Format.binary64.numBits}
    (number : UnpackedFloat.unpack .binary64 b ≠ .notANumber) :
    unitsOf (UnpackedFloat.unpack .binary64 b) =
      let field := b.toNat / 2 ^ 52 % 2 ^ 11
      let low := b.toNat % 2 ^ 52
      let n : ℤ := ((if field = 0 then low else low + 2 ^ 52) * 2 ^ (field - 1) : ℕ)
      if b.toNat < 2 ^ 63 then n else -n := by
  have exponent := toNat_unpackExponent b
  have mantissa := toNat_unpackMantissa b
  have bias : Format.binary64.exponentBias = 1023 := rfl
  unfold UnpackedFloat.unpack at number ⊢
  dsimp only at number ⊢
  rw [ofBitVec_unpackSign] at number ⊢
  rw [← exponent, ← mantissa]
  split
  · rename_i top
    rw [if_pos top] at number
    split
    · rename_i empty
      have greatest : (-1#11).toNat = 2047 := rfl
      have nothing : (0#52).toNat = 0 := rfl
      have places : ((972 : ℤ) + 1074).toNat = 2047 - 1 := rfl
      rw [top, empty, greatest, nothing, if_neg (show 2047 ≠ 0 by decide), Nat.zero_add]
      split <;> simp only [unitsOf, scaledUnits, places]
    · rename_i filled
      rw [if_neg filled] at number
      contradiction
  · split
    · rename_i least
      rw [least]
      split
      · rename_i empty
        rw [empty]
        split <;> simp [unitsOf]
      · split <;> simp [unitsOf, scaledUnits, bias]
    · rename_i more
      have normal : (UnpackedFloat.unpackExponent b).toNat ≠ 0 :=
        fun zero => more (BitVec.eq_of_toNat_eq zero)
      have leading : (1#1 ++ UnpackedFloat.unpackMantissa b).toNat =
          (UnpackedFloat.unpackMantissa b).toNat + 2 ^ 52 := by
        rw [BitVec.toNat_append,
          ← Nat.shiftLeft_add_eq_or_of_lt (UnpackedFloat.unpackMantissa b).isLt, Nat.add_comm]
        rfl
      have places : (((UnpackedFloat.unpackExponent b).toNat : ℤ) -
          ((1023 : ℕ) + (52 : ℕ)) + 1074).toNat = (UnpackedFloat.unpackExponent b).toNat - 1 := by
        omega
      rw [if_neg normal, bias, ← leading, ← places]
      split <;> rfl

theorem units_eq {x : Float} (number : x.toModel.unpack ≠ .notANumber) :
    units x = unitsOf x.toModel.unpack := by
  have bound : x.toBits.toNat < 2 ^ 64 := x.toBits.toNat_lt
  have half : 2048 * leadingBit = 2 ^ 63 := rfl
  have unit : leadingBit = 2 ^ 52 := rfl
  have fields : 2048 = 2 ^ 11 := rfl
  rw [Float.Model.unpack, unitsOf_unpack number]
  change _ = if x.toBits.toNat < 2 ^ 63 then _ else _
  have sign : (x.toBits.toNat / 2 ^ 63 == 1) = !decide (x.toBits.toNat < 2 ^ 63) := by
    rw [Bool.eq_iff_iff, beq_iff_eq, Bool.not_eq_true', decide_eq_false_iff_not]
    omega
  have significand (field : ℕ) (low : ℕ) :
      (if field == 0 then low else low + 2 ^ 52) <<<
          ((((if field == 0 then 1 else field : ℕ) : ℤ) - 1075 + 1074).toNat) =
        (if field = 0 then low else low + 2 ^ 52) * 2 ^ (field - 1) := by
    rw [Nat.shiftLeft_eq]
    rcases Nat.eq_zero_or_pos field with rfl | positive
    · rfl
    · have places : ((field : ℤ) - 1075 + 1074).toNat = field - 1 := by omega
      rw [if_neg (by simpa using positive.ne'), if_neg (by simpa using positive.ne'),
        if_neg positive.ne', places]
  unfold units parts
  rw [half]
  simp only [unit, fields, sign, significand]
  by_cases below : x.toBits.toNat < 2 ^ 63
  · rw [if_pos below, if_neg (by simpa using below)]
    rfl
  · rw [if_neg below, if_pos (by simpa using below)]
    rfl

theorem scaledUnits_pos {m : ℕ} (h : 0 < m) (e : ℤ) : 0 < scaledUnits m e :=
  Nat.mul_pos h (Nat.two_pow_pos _)

theorem scaledUnits_lt {m m' : ℕ} {e e' : ℤ} {h : 0 < m} {h' : 0 < m'} {s s' : Sign}
    (c : Canonical (.finite s m e h)) (c' : Canonical (.finite s' m' e' h'))
    (less : e < e' ∨ e = e' ∧ m < m') : scaledUnits m e < scaledUnits m' e' := by
  obtain ⟨bound, least, _⟩ := c
  obtain ⟨_, _, full⟩ := c'
  rcases less with below | ⟨rfl, less⟩
  · obtain ⟨n, shift⟩ : ∃ n, (e' + 1074).toNat = (e + 1074).toNat + 1 + n :=
      ⟨(e' - e - 1).toNat, by omega⟩
    calc scaledUnits m e < 2 ^ 53 * 2 ^ (e + 1074).toNat :=
          Nat.mul_lt_mul_of_pos_right bound (Nat.two_pow_pos _)
      _ = 2 ^ 52 * 2 ^ ((e + 1074).toNat + 1) := by ring
      _ ≤ m' * 2 ^ ((e + 1074).toNat + 1 + n) :=
          Nat.mul_le_mul (full.resolve_left (by omega)) (Nat.pow_le_pow_right two_pos (by omega))
      _ = scaledUnits m' e' := by rw [scaledUnits, shift]
  · exact Nat.mul_lt_mul_of_pos_right less (Nat.two_pow_pos _)

theorem unitsOf_lt_of_rank_lt {a b : UnpackedFloat} (ca : Canonical a) (cb : Canonical b)
    (la : Bounded a) (lb : Bounded b) (less : ∃ x ∈ rank a, ∃ y ∈ rank b, x < y) :
    unitsOf a < unitsOf b := by
  have top : Canonical (.finite .positive (2 ^ 52) 972 (Nat.two_pow_pos 52)) :=
    ⟨by decide, by decide, .inr le_rfl⟩
  have belowTop {s : Sign} {m : ℕ} {e : ℤ} {h : 0 < m} (c : Canonical (.finite s m e h))
      (bounded : Bounded (.finite s m e h)) : scaledUnits m e < scaledUnits (2 ^ 52) 972 :=
    scaledUnits_lt c top (.inl (Int.lt_of_le_sub_one bounded))
  have topPos := scaledUnits_pos (Nat.two_pow_pos 52) 972
  rcases a with (_ | _) | _ | _ | ⟨_ | _, m, e, h⟩ <;>
    rcases b with (_ | _) | _ | _ | ⟨_ | _, m', e', h'⟩ <;>
    simp [rank, Prod.Lex.toLex_lt_toLex, -Nat.reducePow] at less <;>
    simp only [unitsOf]
  case infinity.negative.finite.negative =>
    have := belowTop cb lb
    omega
  case finite.negative.finite.negative =>
    have := scaledUnits_lt cb ca (by omega)
    omega
  case finite.positive.finite.positive =>
    have := scaledUnits_lt ca cb less
    omega
  case finite.positive.infinity.positive =>
    have := belowTop ca la
    omega
  case zero.finite.positive =>
    have := scaledUnits_pos h' e'
    omega
  case finite.negative.zero =>
    have := scaledUnits_pos h e
    omega
  case finite.negative.finite.positive =>
    have := scaledUnits_pos h e
    omega
  all_goals omega

theorem unitsOf_eq_of_rank_eq {a b : UnpackedFloat} {r : ℤ ×ₗ ℤ ×ₗ ℤ} (ha : rank a = some r)
    (hb : rank b = some r) : unitsOf a = unitsOf b := by
  have same : rank a = rank b := ha.trans hb.symm
  rcases a with (_ | _) | _ | _ | ⟨_ | _, m, e, h⟩ <;>
    rcases b with (_ | _) | _ | _ | ⟨_ | _, m', e', h'⟩ <;>
    simp [rank] at same <;>
    simp only [unitsOf]
  all_goals rw [same.1, same.2]

/-- Doubles that are numbers have the order of their units. -/
theorem units_lt_iff {a b : Float} (ha : a ≤ a) (hb : b ≤ b) : units a < units b ↔ a < b := by
  have numeric {x : Float} (hx : x ≤ x) : ∃ r, rankOf x = some r ∧
      units x = unitsOf x.toModel.unpack := by
    obtain ⟨r, hr, _⟩ := (le_iff_rank x x).mp hx
    refine ⟨r, hr, units_eq fun missing => ?_⟩
    rw [rankOf, missing] at hr
    contradiction
  have ordered {a b : Float} (less : ∃ x ∈ rankOf a, ∃ y ∈ rankOf b, x < y) :
      unitsOf a.toModel.unpack < unitsOf b.toModel.unpack :=
    unitsOf_lt_of_rank_lt (canonical_unpack _) (canonical_unpack _) (bounded_unpack _)
      (bounded_unpack _) less
  obtain ⟨r, hr, unitsA⟩ := numeric ha
  obtain ⟨s, hs, unitsB⟩ := numeric hb
  rw [unitsA, unitsB, lt_iff_rank]
  refine ⟨fun below => ?_, ordered⟩
  rcases lt_trichotomy r s with less | rfl | greater
  · exact ⟨r, hr, s, hs, less⟩
  · have same := unitsOf_eq_of_rank_eq hr hs
    omega
  · have above := ordered (a := b) (b := a) ⟨s, hs, r, hr, greater⟩
    omega

end Geospatial.Double
