import Mathlib
import Geospatial.Proofs.Scalar.Double
import Geospatial.Proofs.Scalar.Rounding

/-! Doubles obey the laws of sign, and their total order agrees with the order of the numbers. A
result is rounded as a sign and a magnitude, so that its sign is that of the exact result; and where
a difference is not rounded to zero, the two doubles have different ranks, since each has the one
exponent that its significand allows. The bits of a double, read as a whole number, are its exponent
and its significand one behind the other, so that they are in lexical order. -/
namespace Geospatial.Double

open Float.Model (UnpackedFloat Format)
open Float.Model.UnpackedFloat (Sign)

/-- The sign bit; what is not a number counts as positive. -/
def sign : UnpackedFloat → Sign
  | .infinity s | .zero s | .finite s _ _ _ => s
  | .notANumber => .positive

/-- Of the given sign, and not zero. -/
def Signed (s : Sign) : UnpackedFloat → Prop
  | .infinity s' | .finite s' _ _ _ => s' = s
  | _ => False

theorem sign_of_signed {s : Sign} {u : UnpackedFloat} (signed : Signed s u) : sign u = s := by
  cases u <;> first | exact signed | exact signed.elim

theorem zero_lt_iff (x : Float) : 0 < x ↔ Signed .positive x.toModel.unpack := by
  have zero : rankOf 0 = some (toLex (0, toLex (0, 0))) := rfl
  rw [lt_iff_rank, zero, rankOf]
  rcases x.toModel.unpack with (_ | _) | _ | _ | ⟨_ | _, _, _, _⟩ <;>
    simp [rank, Signed, Prod.Lex.toLex_lt_toLex]

theorem lt_zero_iff (x : Float) : x < 0 ↔ Signed .negative x.toModel.unpack := by
  have zero : rankOf 0 = some (toLex (0, toLex (0, 0))) := rfl
  rw [lt_iff_rank, zero, rankOf]
  rcases x.toModel.unpack with (_ | _) | _ | _ | ⟨_ | _, _, _, _⟩ <;>
    simp [rank, Signed, Prod.Lex.toLex_lt_toLex]

theorem exists_packComponents (f : UnpackedFloat) : ∃ e m, UnpackedFloat.pack .binary64 f =
    UnpackedFloat.packComponents .binary64 (sign f) e m := by
  cases f with
  | infinity => exact ⟨_, _, rfl⟩
  | notANumber => exact ⟨_, _, rfl⟩
  | zero => exact ⟨_, _, rfl⟩
  | finite s m e =>
    simp only [UnpackedFloat.pack]
    split
    · exact ⟨_, _, rfl⟩
    · split <;> exact ⟨_, _, rfl⟩

theorem sign_unpack_pack (f : UnpackedFloat) :
    UnpackedFloat.unpack .binary64 (UnpackedFloat.pack .binary64 f) = .notANumber ∨
      sign (UnpackedFloat.unpack .binary64 (UnpackedFloat.pack .binary64 f)) = sign f := by
  obtain ⟨e, m, packed⟩ := exists_packComponents f
  rw [packed, UnpackedFloat.unpack, UnpackedFloat.unpackSign_packComponents, Sign.ofBitVec_toBitVec]
  dsimp only
  split
  · split
    · exact Or.inr rfl
    · exact Or.inl rfl
  · split
    · split <;> exact Or.inr rfl
    · exact Or.inr rfl

theorem signed_of_unpack_pack {s : Sign} {f : UnpackedFloat}
    (signed : Signed s (UnpackedFloat.unpack .binary64 (UnpackedFloat.pack .binary64 f))) :
    Signed s f := by
  have kept : sign f = s := by
    rcases sign_unpack_pack f with missing | same
    · rw [missing] at signed
      exact signed.elim
    · exact same.symm.trans (sign_of_signed signed)
  cases f with
  | notANumber => exact signed.elim
  | zero s' => cases s' <;> exact signed.elim
  | infinity => exact kept
  | finite => exact kept

theorem sign_roundWithAccuracy (s : Sign) (m : ℕ) (e : ℤ) (acc : UnpackedFloat.Accuracy) :
    sign (UnpackedFloat.roundWithAccuracy .binary64 s m e acc) = s := by
  unfold UnpackedFloat.roundWithAccuracy
  dsimp only
  split <;> rfl

theorem mul_positive (s : Sign) : s * .positive = s := by cases s <;> rfl

theorem eq_of_div_eq_positive {s s' : Sign} (same : s / s' = .positive) : s = s' := by
  cases s <;> cases s' <;> first | rfl | contradiction

/-- A product with a value of positive sign keeps its sign, also where it is rounded to zero. -/
theorem sign_mul {a b : UnpackedFloat} (hb : sign b = .positive) :
    UnpackedFloat.mul .binary64 a b = .notANumber ∨
      sign (UnpackedFloat.mul .binary64 a b) = sign a := by
  cases a <;> cases b <;> try exact Or.inl rfl
  all_goals
    obtain rfl : _ = Sign.positive := hb
    right
  case finite.finite => exact (sign_roundWithAccuracy ..).trans (mul_positive _)
  all_goals exact mul_positive _

/-- A positive quotient has a dividend with the sign of the divisor. -/
theorem signed_of_div {a b : UnpackedFloat}
    (quotient : Signed .positive (UnpackedFloat.div .binary64 a b)) :
    b ≠ .notANumber ∧ Signed (sign b) a := by
  cases a <;> cases b <;> try exact quotient.elim
  case finite.finite =>
    have kept := sign_of_signed quotient
    unfold UnpackedFloat.div at kept
    dsimp only at kept
    rw [sign_roundWithAccuracy] at kept
    exact ⟨nofun, eq_of_div_eq_positive kept⟩
  all_goals exact ⟨nofun, eq_of_div_eq_positive quotient⟩

/-- A double has the least exponent, or its significand has all the bits there are. -/
def Canonical : UnpackedFloat → Prop
  | .finite _ m e _ => m < 2 ^ 53 ∧ -1074 ≤ e ∧ (e = -1074 ∨ 2 ^ 52 ≤ m)
  | _ => True

theorem canonical_unpack (b : BitVec Format.binary64.numBits) :
    Canonical (UnpackedFloat.unpack .binary64 b) := by
  have bias : Format.binary64.exponentBias = 1023 := rfl
  unfold UnpackedFloat.unpack
  dsimp only
  split
  · split <;> trivial
  · split
    · rename_i least
      have zero : (UnpackedFloat.unpackExponent b).toNat = 0 := congrArg BitVec.toNat least
      split
      · trivial
      · refine ⟨(UnpackedFloat.unpackMantissa b).isLt.trans (by decide), ?_, Or.inl ?_⟩ <;>
          rw [bias, zero] <;> rfl
    · rename_i more
      have positive : 0 < (UnpackedFloat.unpackExponent b).toNat :=
        Nat.pos_of_ne_zero fun zero => more (BitVec.eq_of_toNat_eq zero)
      have leading : (1#1 ++ UnpackedFloat.unpackMantissa b).toNat =
          2 ^ 52 + (UnpackedFloat.unpackMantissa b).toNat := by
        rw [BitVec.toNat_append,
          ← Nat.shiftLeft_add_eq_or_of_lt (UnpackedFloat.unpackMantissa b).isLt]
        rfl
      refine ⟨(1#1 ++ UnpackedFloat.unpackMantissa b).isLt, ?_, Or.inr ?_⟩
      · rw [bias]
        omega
      · rw [leading]
        exact Nat.le_add_right _ _

/-- Significands that are brought to one exponent compare as the ranks do. -/
theorem lt_of_shifted_lt {m m' : ℕ} {e e' : ℤ} {h : 0 < m} {h' : 0 < m'} {s s' : Sign}
    (c : Canonical (.finite s m e h)) (c' : Canonical (.finite s' m' e' h'))
    (less : m <<< (e - min e e').toNat < m' <<< (e' - min e e').toNat) :
    e < e' ∨ e = e' ∧ m < m' := by
  obtain ⟨_, _, full⟩ := c
  obtain ⟨bound', least', _⟩ := c'
  rw [Nat.shiftLeft_eq, Nat.shiftLeft_eq] at less
  rcases lt_trichotomy e e' with below | rfl | above
  · exact Or.inl below
  · rw [min_self, Int.sub_self, Int.toNat_zero, pow_zero, Nat.mul_one, Nat.mul_one] at less
    exact Or.inr ⟨rfl, less⟩
  · -- the first significand has all its bits, and would be shifted beyond the second
    have places : (e - min e e').toNat ≠ 0 := by omega
    have shifted : m * 2 ≤ m * 2 ^ (e - min e e').toNat :=
      Nat.mul_le_mul_left m (Nat.le_self_pow places 2)
    rw [min_eq_right above.le, Int.sub_self, Int.toNat_zero, pow_zero, Nat.mul_one] at less
    rw [min_eq_right above.le] at shifted
    have all : 2 ^ 52 ≤ m := full.resolve_left (by omega)
    omega

theorem apply_pos_of_normalize {n e : ℤ} {s z : Sign}
    (signed : Signed s (UnpackedFloat.normalize .binary64 n e z)) : 0 < s.apply n := by
  have rounded (s : Sign) (m : ℕ) (e : ℤ) : sign (UnpackedFloat.round .binary64 s m e) = s := by
    unfold UnpackedFloat.round
    exact sign_roundWithAccuracy ..
  unfold UnpackedFloat.normalize at signed
  split at signed
  · rename_i less
    obtain rfl := (rounded ..).symm.trans (sign_of_signed signed)
    exact Int.neg_pos_of_neg (compare_lt_iff_lt.mp less)
  · exact signed.elim
  · rename_i greater
    obtain rfl := (rounded ..).symm.trans (sign_of_signed signed)
    exact compare_gt_iff_gt.mp greater

/-- One has a lesser rank than the other. -/
def Below (a b : UnpackedFloat) : Prop := ∃ x ∈ rank a, ∃ y ∈ rank b, x < y

theorem below_of_shifted_lt {m m' : ℕ} {e e' : ℤ} {h : 0 < m} {h' : 0 < m'} {s s' : Sign}
    (c : Canonical (.finite s m e h)) (c' : Canonical (.finite s' m' e' h'))
    (less : s.apply (m <<< (e - min e e').toNat : ℕ) <
      s'.apply (m' <<< (e' - min e e').toNat : ℕ)) :
    Below (.finite s m e h) (.finite s' m' e' h') := by
  have left := Int.natCast_nonneg (m <<< (e - min e e').toNat)
  have right := Int.natCast_nonneg (m' <<< (e' - min e e').toNat)
  cases s <;> cases s' <;> refine ⟨_, rfl, _, rfl, ?_⟩
  · change -((m <<< (e - min e e').toNat : ℕ) : ℤ) < -((m' <<< (e' - min e e').toNat : ℕ) : ℤ)
      at less
    rw [min_comm] at less
    have above := lt_of_shifted_lt c' c (by omega)
    rw [Prod.Lex.toLex_lt_toLex, Prod.Lex.toLex_lt_toLex]
    dsimp only
    omega
  · simp [Prod.Lex.toLex_lt_toLex]
  · change ((m <<< (e - min e e').toNat : ℕ) : ℤ) < -((m' <<< (e' - min e e').toNat : ℕ) : ℤ)
      at less
    omega
  · change ((m <<< (e - min e e').toNat : ℕ) : ℤ) < ((m' <<< (e' - min e e').toNat : ℕ) : ℤ)
      at less
    have below := lt_of_shifted_lt c c' (by omega)
    rw [Prod.Lex.toLex_lt_toLex, Prod.Lex.toLex_lt_toLex]
    dsimp only
    omega

theorem below_of_sub_finite {m m' : ℕ} {e e' : ℤ} {h : 0 < m} {h' : 0 < m'} {s s' : Sign}
    (c : Canonical (.finite s m e h)) (c' : Canonical (.finite s' m' e' h')) :
    (Signed .positive (UnpackedFloat.sub .binary64 (.finite s m e h) (.finite s' m' e' h')) →
      Below (.finite s' m' e' h') (.finite s m e h)) ∧
    (Signed .negative (UnpackedFloat.sub .binary64 (.finite s m e h) (.finite s' m' e' h')) →
      Below (.finite s m e h) (.finite s' m' e' h')) := by
  constructor
  · intro difference
    have exact := apply_pos_of_normalize difference
    refine below_of_shifted_lt c' c ?_
    rw [min_comm]
    exact sub_pos.mp exact
  · intro difference
    have exact := apply_pos_of_normalize difference
    exact below_of_shifted_lt c c' (sub_neg.mp (neg_pos.mp exact))

/-- A difference is not rounded to the other side of zero. -/
theorem below_of_sub {a b : UnpackedFloat} (ca : Canonical a) (cb : Canonical b) :
    (Signed .positive (UnpackedFloat.sub .binary64 a b) → Below b a) ∧
      (Signed .negative (UnpackedFloat.sub .binary64 a b) → Below a b) := by
  rcases a with (_ | _) | _ | (_ | _) | ⟨_ | _, _, _, _⟩ <;>
    rcases b with (_ | _) | _ | (_ | _) | ⟨_ | _, _, _, _⟩ <;>
    try exact below_of_sub_finite ca cb
  -- with an infinity, a zero or no number, the sign of the difference is read off
  all_goals
    constructor <;> intro difference <;>
      first
      | exact difference.elim
      | contradiction
      | exact ⟨_, rfl, _, rfl, by simp [Prod.Lex.toLex_lt_toLex]⟩

theorem signed_of_quotient {a b : Float} (quotient : 0 < a / b) :
    b.toModel.unpack ≠ .notANumber ∧ Signed (sign b.toModel.unpack) a.toModel.unpack := by
  rw [zero_lt_iff] at quotient
  have kept : Signed .positive (UnpackedFloat.div .binary64 a.toModel.unpack b.toModel.unpack) :=
    signed_of_unpack_pack quotient
  exact signed_of_div kept

theorem sign_sqrt_two : sign (Scalar.sqrt (2 : Float)).toModel.unpack = .positive := by
  have two : ∃ m e h, (2 : Float).toModel.unpack = .finite .positive m e h := ⟨_, _, _, rfl⟩
  obtain ⟨m, e, h, two⟩ := two
  have root : sign (UnpackedFloat.sqrt .binary64 (2 : Float).toModel.unpack) = .positive := by
    rw [two]
    exact sign_roundWithAccuracy ..
  rcases sign_unpack_pack (UnpackedFloat.sqrt .binary64 (2 : Float).toModel.unpack) with lost | same
  · exact congrArg sign lost
  · exact same.trans root

/-- A positive value may take a product to zero, but not over it. -/
theorem signed_of_scaled {a b c : Float} (hc : sign c.toModel.unpack = .positive)
    (quotient : 0 < a / (b * c)) : Signed (sign b.toModel.unpack) a.toModel.unpack := by
  obtain ⟨number, signed⟩ := signed_of_quotient quotient
  have packed : (b * c).toModel.unpack = UnpackedFloat.unpack .binary64 (UnpackedFloat.pack .binary64
      (UnpackedFloat.mul .binary64 b.toModel.unpack c.toModel.unpack)) := rfl
  rw [packed] at number signed
  rcases sign_unpack_pack (UnpackedFloat.mul .binary64 b.toModel.unpack c.toModel.unpack) with
    missing | kept
  · contradiction
  · rcases sign_mul hc with missing | same
    · rw [missing] at number
      exact absurd rfl number
    · rwa [kept, same] at signed

instance : Scalar.LawfulSign Float where
  lt_of_sub_pos {a b} difference := by
    have kept := signed_of_unpack_pack ((zero_lt_iff (a - b)).mp difference)
    exact (lt_iff_rank b a).mpr ((below_of_sub (canonical_unpack _) (canonical_unpack _)).1 kept)
  lt_of_sub_neg {a b} difference := by
    have kept := signed_of_unpack_pack ((lt_zero_iff (a - b)).mp difference)
    exact (lt_iff_rank a b).mpr ((below_of_sub (canonical_unpack _) (canonical_unpack _)).2 kept)
  div_sign b := by
    have signed {a : Float} (quotient : 0 < a / b ∨ 0 < a / (b * Scalar.sqrt 2)) :
        Signed (sign b.toModel.unpack) a.toModel.unpack :=
      quotient.elim (fun q => (signed_of_quotient q).2) (signed_of_scaled sign_sqrt_two)
    cases same : sign b.toModel.unpack with
    | positive => exact Or.inl fun a quotient => (zero_lt_iff a).mpr (same ▸ signed quotient)
    | negative => exact Or.inr fun a quotient => (lt_zero_iff a).mpr (same ▸ signed quotient)
  zero_lt_bit := by decide +kernel
  bit_lt_succ {n} below := by
    have all : ∀ n < 7, ((2 ^ n : ℕ) : Float) < ((2 ^ (n + 1) : ℕ) : Float) := by decide +kernel
    exact all n below

/-- The key that the total order of doubles compares. -/
def key : UnpackedFloat → ℤ
  | .infinity .negative => -(2047 * 2 ^ 52) - 1
  | .finite .negative m e _ => -((e + 1074) * 2 ^ 52 + m) - 1
  | .zero .negative => -1
  | .zero .positive => 0
  | .finite .positive m e _ => (e + 1074) * 2 ^ 52 + m
  | .infinity .positive => 2047 * 2 ^ 52
  | .notANumber => 0

theorem toNat_unpackMantissa (b : BitVec Format.binary64.numBits) :
    (UnpackedFloat.unpackMantissa b).toNat = b.toNat % 2 ^ 52 := by
  simp [UnpackedFloat.unpackMantissa]

theorem toNat_unpackExponent (b : BitVec Format.binary64.numBits) :
    (UnpackedFloat.unpackExponent b).toNat = b.toNat / 2 ^ 52 % 2 ^ 11 := by
  simp [UnpackedFloat.unpackExponent, Nat.shiftRight_eq_div_pow]

theorem toNat_unpackSign (b : BitVec Format.binary64.numBits) :
    (UnpackedFloat.unpackSign b).toNat = b.toNat / 2 ^ 63 % 2 := by
  simp [UnpackedFloat.unpackSign, Nat.shiftRight_eq_div_pow]

theorem ofBitVec_unpackSign (b : BitVec Format.binary64.numBits) :
    Sign.ofBitVec (UnpackedFloat.unpackSign b) =
      if b.toNat < 2 ^ 63 then .positive else .negative := by
  have bound := b.isLt
  have bit := toNat_unpackSign b
  unfold Sign.ofBitVec
  split
  · rename_i zero
    rw [zero] at bit
    rw [if_pos]
    change 0 = _ at bit
    change b.toNat < 2 ^ 64 at bound
    omega
  · rename_i one
    rw [if_neg]
    intro below
    refine one (BitVec.eq_of_toNat_eq ?_)
    rw [bit]
    change _ = 0
    omega

/-- The key is in the bits of a double, reversed for negative ones. -/
theorem key_unpack {b : BitVec Format.binary64.numBits}
    (number : UnpackedFloat.unpack .binary64 b ≠ .notANumber) :
    key (UnpackedFloat.unpack .binary64 b) =
      if b.toNat < 2 ^ 63 then (b.toNat : ℤ) else 2 ^ 63 - b.toNat - 1 := by
  have bound : b.toNat < 2 ^ 64 := b.isLt
  have exponent := toNat_unpackExponent b
  have mantissa := toNat_unpackMantissa b
  have bias : Format.binary64.exponentBias = 1023 := rfl
  unfold UnpackedFloat.unpack at number ⊢
  dsimp only at number ⊢
  rw [ofBitVec_unpackSign] at number ⊢
  split
  · rename_i top
    rw [if_pos top] at number
    have exponent : 2047 = b.toNat / 2 ^ 52 % 2 ^ 11 := (congrArg BitVec.toNat top).symm.trans exponent
    split
    · rename_i empty
      have mantissa : 0 = b.toNat % 2 ^ 52 := (congrArg BitVec.toNat empty).symm.trans mantissa
      split <;> simp only [key] <;> omega
    · rename_i filled
      rw [if_neg filled] at number
      contradiction
  · split
    · rename_i least
      have zero : 0 = b.toNat / 2 ^ 52 % 2 ^ 11 :=
        (congrArg BitVec.toNat least).symm.trans exponent
      split
      · rename_i empty
        have mantissa : 0 = b.toNat % 2 ^ 52 := (congrArg BitVec.toNat empty).symm.trans mantissa
        split <;> simp only [key] <;> omega
      · split <;> simp only [key, mantissa, bias, exponent] <;> omega
    · have leading : (1#1 ++ UnpackedFloat.unpackMantissa b).toNat = 2 ^ 52 + b.toNat % 2 ^ 52 := by
        rw [BitVec.toNat_append,
          ← Nat.shiftLeft_add_eq_or_of_lt (UnpackedFloat.unpackMantissa b).isLt, mantissa]
        rfl
      split <;> simp only [key, leading, bias, exponent] <;> omega

/-- Below what overflows. -/
def Bounded : UnpackedFloat → Prop
  | .finite _ _ e _ => e ≤ 971
  | _ => True

theorem bounded_unpack (b : BitVec Format.binary64.numBits) :
    Bounded (UnpackedFloat.unpack .binary64 b) := by
  have bias : Format.binary64.exponentBias = 1023 := rfl
  unfold UnpackedFloat.unpack
  dsimp only
  split
  · split <;> trivial
  · rename_i notTop
    have exponent : (UnpackedFloat.unpackExponent b).toNat ≠ 2047 := fun top =>
      notTop (BitVec.eq_of_toNat_eq top)
    have bound : (UnpackedFloat.unpackExponent b).toNat < 2048 := BitVec.isLt _
    split
    · rename_i least
      have zero : (UnpackedFloat.unpackExponent b).toNat = 0 := congrArg BitVec.toNat least
      split
      · trivial
      · change (_ : ℤ) ≤ 971
        rw [bias, zero]
        omega
    · change (_ : ℤ) ≤ 971
      rw [bias]
      omega

theorem key_lt_of_rank_lt {a b : UnpackedFloat} (ca : Canonical a) (cb : Canonical b)
    (la : Bounded a) (lb : Bounded b) (less : ∃ x ∈ rank a, ∃ y ∈ rank b, x < y) :
    key a < key b := by
  rcases a with (_ | _) | _ | (_ | _) | ⟨_ | _, m, e, h⟩ <;>
    rcases b with (_ | _) | _ | (_ | _) | ⟨_ | _, m', e', h'⟩ <;>
    simp [rank, Prod.Lex.toLex_lt_toLex, key, Canonical, Bounded] at ca cb la lb less ⊢ <;> omega

theorem orderKey_eq_key {x : Float} (number : x.toModel.unpack ≠ .notANumber) :
    orderKey x = key x.toModel.unpack := by
  have half : 2048 * leadingBit = 2 ^ 63 := rfl
  rw [Float.Model.unpack, key_unpack number, orderKey, half]
  rfl

theorem compare_orderKey {a b : Float} (less : a < b) :
    compare (orderKey a) (orderKey b) = .lt := by
  obtain ⟨x, hx, y, hy, below⟩ := (lt_iff_rank a b).mp less
  have number {u : UnpackedFloat} {r : ℤ ×ₗ ℤ ×ₗ ℤ} (here : r ∈ rank u) : u ≠ .notANumber := by
    rintro rfl
    contradiction
  rw [compare_lt_iff_lt, orderKey_eq_key (number hx), orderKey_eq_key (number hy)]
  exact key_lt_of_rank_lt (canonical_unpack _) (canonical_unpack _) (bounded_unpack _)
    (bounded_unpack _) ⟨x, hx, y, hy, below⟩

end Geospatial.Double
