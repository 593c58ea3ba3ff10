import Mathlib
import Geospatial.Proofs.Scalar.DoubleError

/-! Sums of doubles as a rounding of either sign. Exact sums that are in order stay so when they are
rounded, and an infinite term decides the sum, so that a sum does not fall below a term when the
other one is not negative. -/
namespace Geospatial.Double

open Float.Model (UnpackedFloat Format)
open Float.Model.UnpackedFloat (Sign)

/-- What a value of either sign is rounded to: its size is rounded, and it stays on its side. -/
inductive RoundsEither (x : ℝ) : EReal → Prop where
  | up {r : EReal} : 0 ≤ x → RoundsTo ↑|x| r → RoundsEither x r
  | down {r : EReal} : x < 0 → RoundsTo ↑|x| r → RoundsEither x (-r)

theorem roundsTo_zero : RoundsTo ↑(0 : ℝ) 0 := by
  obtain ⟨r, near, zero⟩ := hasRounded_number_zero
  obtain rfl : 0 = r := Option.some.inj zero
  exact near

theorem RoundsTo.nonneg {x : ℝ} {r : EReal} (rounds : RoundsTo ↑|x| r) : 0 ≤ r :=
  roundsTo_zero.mono rounds (EReal.coe_le_coe_iff.mpr (abs_nonneg x))

theorem RoundsEither.mono {x y : ℝ} {r s : EReal} (hx : RoundsEither x r) (hy : RoundsEither y s)
    (le : x ≤ y) : r ≤ s := by
  cases hx with
  | up nonneg near =>
    cases hy with
    | up _ near' => exact near.mono near' (EReal.coe_le_coe_iff.mpr (abs_le_abs_of_nonneg nonneg le))
    | down negative _ => exact absurd (nonneg.trans le) negative.not_ge
  | down negative near =>
    cases hy with
    | up _ near' =>
      have below := EReal.neg_le_neg_iff.mpr near.nonneg
      rw [neg_zero] at below
      exact below.trans near'.nonneg
    | down negative' near' =>
      have size : |y| ≤ |x| := by
        rw [abs_of_neg negative, abs_of_neg negative']
        exact neg_le_neg le
      exact EReal.neg_le_neg_iff.mpr (near'.mono near (EReal.coe_le_coe_iff.mpr size))

theorem roundsEither_of_value {a : Float} {x : ℝ} (here : valueOf a = some ↑x) :
    RoundsEither x ↑x := by
  have canonical := canonical_unpack a.toModel.toBits.toBitVec
  have bounded := bounded_unpack a.toModel.toBits.toBitVec
  change Canonical a.toModel.unpack at canonical
  change Bounded a.toModel.unpack at bounded
  rcases real_cases here with ⟨s, -, rfl⟩ | ⟨s, m, e, h, finite, rfl⟩
  · exact .up le_rfl (by simpa using roundsTo_zero)
  · rw [finite] at canonical bounded
    have size : RoundsTo ↑|signed s m e| ↑(magnitude m e) := by
      obtain ⟨r, near, kept⟩ := hasRounded_canonical canonical
      rw [stored_finite (s := .positive) canonical bounded] at kept
      obtain rfl : ↑(magnitude m e) = r := Option.some.inj kept
      rwa [abs_signed s e h]
    cases s with
    | positive => exact .up (magnitude_pos h e).le size
    | negative =>
      rw [signed_negative] at size ⊢
      exact .down (neg_neg_of_pos (magnitude_pos h e)) size

/-- A result is rounded if its size is, and its sign is not the other one. -/
theorem exists_roundsEither {u : UnpackedFloat} {x : ℝ} (rounded : HasRounded u.abs ↑|x|)
    (above : Signed .positive u → 0 ≤ x) (below : Signed .negative u → x ≤ 0) :
    ∃ r, value u = some r ∧ RoundsEither x r := by
  obtain ⟨r, near, here⟩ := rounded
  have flat (zero : x = 0) : r = 0 := by
    rw [zero, abs_zero] at near
    exact le_antisymm (near.mono roundsTo_zero le_rfl) (roundsTo_zero.mono near le_rfl)
  have lower (nonpos : x ≤ 0) : RoundsEither x (-r) := by
    rcases nonpos.lt_or_eq with negative | zero
    · exact .down negative near
    · obtain rfl := flat zero
      rw [neg_zero]
      exact .up zero.ge near
  rcases u with (_ | _) | _ | s | ⟨_ | _, m, e, h⟩
  case notANumber => contradiction
  case zero =>
    obtain rfl : 0 = r := Option.some.inj here
    refine ⟨0, rfl, ?_⟩
    rcases le_total 0 x with nonneg | nonpos
    · exact .up nonneg near
    · simpa using lower nonpos
  case infinity.positive | finite.positive => exact ⟨r, here, .up (above rfl) near⟩
  case infinity.negative =>
    obtain rfl : ⊤ = r := Option.some.inj here
    exact ⟨⊥, rfl, lower (below rfl)⟩
  case finite.negative =>
    obtain rfl : ↑(magnitude m e) = r := Option.some.inj here
    exact ⟨_, rfl, lower (below rfl)⟩

theorem exists_rounded_sum {a b : UnpackedFloat} (ca : Canonical a) (cb : Canonical b) {x y : ℝ}
    (ha : value a = some ↑x) (hb : value b = some ↑y) :
    ∃ r, value (stored (UnpackedFloat.add .binary64 a b)) = some r ∧ RoundsEither (x + y) r := by
  have order := below_of_sub ca (canonical_neg cb)
  rw [← add_eq_sub] at order
  refine exists_roundsEither (hasRounded_abs_add ca cb ha hb) (fun signed => ?_) fun signed => ?_
  · have le := le_of_below (canonical_neg cb) ca (value_neg hb) ha
      (order.1 (signed_of_unpack_pack signed))
    linarith
  · have le := le_of_below ca (canonical_neg cb) ha (value_neg hb)
      (order.2 (signed_of_unpack_pack signed))
    linarith

/-- A sum is not on the other side of its first term than the second one says. -/
theorem exists_sum_beside {a : Float} {u : UnpackedFloat} {x : EReal} {y : ℝ}
    (ha : valueOf a = some x) (cu : Canonical u) (hu : value u = some ↑y) :
    ∃ r, value (stored (UnpackedFloat.add .binary64 a.toModel.unpack u)) = some r ∧
      (0 ≤ y → x ≤ r) ∧ (y ≤ 0 → r ≤ x) := by
  have unmoved {s : Sign} (infinite : a.toModel.unpack = .infinity s) :
      value (stored (UnpackedFloat.add .binary64 a.toModel.unpack u)) = some x := by
    rw [← ha, valueOf, infinite, ← stored_infinity s]
    rcases real_cases hu with ⟨s', rfl, -⟩ | ⟨s', m, e, h, rfl, -⟩ <;> cases s <;> rfl
  rcases value_cases ha with ⟨infinite, -⟩ | ⟨infinite, -⟩ | finite
  · exact ⟨x, unmoved infinite, fun _ => le_rfl, fun _ => le_rfl⟩
  · exact ⟨x, unmoved infinite, fun _ => le_rfl, fun _ => le_rfl⟩
  · obtain ⟨x, rfl⟩ : ∃ z : ℝ, x = ↑z := by
      rcases finite with ⟨_, _, same⟩ | ⟨_, _, _, _, _, same⟩ <;> exact ⟨_, same⟩
    obtain ⟨r, here, rounded⟩ := exists_rounded_sum (canonical_unpack _) cu ha hu
    have self := roundsEither_of_value ha
    exact ⟨r, here, fun nonneg => self.mono rounded (by linarith),
      fun nonpos => rounded.mono self (by linarith)⟩

theorem exists_value_of_isFinite {a : Float} (finite : a.isFinite = true) :
    ∃ x : ℝ, valueOf a = some ↑x := by
  have unpacked : a.toModel.unpack.isFinite = true := finite
  rw [valueOf]
  generalize a.toModel.unpack = u at unpacked
  rcases u with (_ | _) | _ | s | ⟨_ | _, m, e, h⟩
  case notANumber | infinity.negative | infinity.positive => contradiction
  case zero => exact ⟨0, rfl⟩
  case finite.negative | finite.positive => exact ⟨_, rfl⟩

instance : Scalar.LawfulGrowth Float where
  le_add {a d} number finite nonneg := by
    obtain ⟨x, ha, -⟩ := (le_iff_value a a).mp number
    obtain ⟨y, hd⟩ := exists_value_of_isFinite finite
    obtain ⟨r, here, above, -⟩ := exists_sum_beside ha (canonical_unpack _) hd
    have hy := (le_iff_real value_zero hd).mp nonneg
    exact (le_iff_value a (a + d)).mpr ⟨x, ha, r, here, above hy⟩
  sub_le {a d} number finite nonneg := by
    obtain ⟨x, ha, -⟩ := (le_iff_value a a).mp number
    obtain ⟨y, hd⟩ := exists_value_of_isFinite finite
    obtain ⟨r, here, -, below⟩ := exists_sum_beside ha (canonical_neg (canonical_unpack _))
      (value_neg hd)
    rw [← sub_eq_add] at here
    have hy := (le_iff_real value_zero hd).mp nonneg
    exact (le_iff_value (a - d) a).mpr ⟨r, here, x, ha, below (neg_nonpos.mpr hy)⟩

end Geospatial.Double
