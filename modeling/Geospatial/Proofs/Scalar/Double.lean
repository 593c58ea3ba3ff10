import Geospatial.Proofs.Scalar.Order
import Geospatial.Scalar.Double
import Mathlib.Data.Prod.Lex

/-! Doubles obey the laws of comparison. A double that is a number has a rank by sign, then
exponent, then significand, and doubles compare as their ranks do; both zeros have the same
rank. -/
namespace Geospatial.Double

open Float.Model (UnpackedFloat)

/-- None for what is not a number. -/
def rank : UnpackedFloat → Option (ℤ ×ₗ ℤ ×ₗ ℤ)
  | .notANumber => none
  | .infinity .negative => some (toLex (-2, toLex (0, 0)))
  | .finite .negative m e _ => some (toLex (-1, toLex (-e, -(m : ℤ))))
  | .zero _ => some (toLex (0, toLex (0, 0)))
  | .finite .positive m e _ => some (toLex (1, toLex (e, (m : ℤ))))
  | .infinity .positive => some (toLex (2, toLex (0, 0)))

theorem compare_toLex (s e m s' e' m' : ℤ) :
    compare (toLex (s, toLex (e, m))) (toLex (s', toLex (e', m'))) =
      (compare s s').then ((compare e e').then (compare m m')) := rfl

theorem compare_neg (x y : ℤ) : compare (-x) (-y) = (compare x y).swap := by
  rcases lt_trichotomy x y with below | rfl | above
  · rw [compare_lt_iff_lt.mpr below, compare_gt_iff_gt.mpr (by omega)]
    rfl
  · rw [compare_eq_iff_eq.mpr rfl, compare_eq_iff_eq.mpr rfl]
    rfl
  · rw [compare_gt_iff_gt.mpr above, compare_lt_iff_lt.mpr (by omega)]
    rfl

theorem compare_natCast (m n : ℕ) : compare (m : ℤ) (n : ℤ) = compare m n := by
  rcases lt_trichotomy m n with below | rfl | above
  · rw [compare_lt_iff_lt.mpr below, compare_lt_iff_lt.mpr (by omega)]
  · rw [compare_eq_iff_eq.mpr rfl, compare_eq_iff_eq.mpr rfl]
  · rw [compare_gt_iff_gt.mpr above, compare_gt_iff_gt.mpr (by omega)]

/-- Only two finite doubles of the same sign need their exponents and significands. -/
theorem compare_rank (a b : UnpackedFloat) :
    a.compare b = (rank a).bind fun x => (rank b).map fun y => compare x y := by
  rcases a with (_ | _) | _ | _ | ⟨_ | _, m, e, _⟩ <;>
    rcases b with (_ | _) | _ | _ | ⟨_ | _, m', e', _⟩ <;>
    try rfl
  case finite.negative.finite.negative =>
    change some ((compare e e').then (compare m m')).swap =
      some (compare (toLex (-1, toLex (-e, -(m : ℤ)))) (toLex (-1, toLex (-e', -(m' : ℤ)))))
    rw [compare_toLex, compare_neg e, compare_neg m, compare_natCast, Ordering.swap_then]
    rfl
  case finite.positive.finite.positive =>
    change some ((compare e e').then (compare m m')) =
      some (compare (toLex (1, toLex (e, (m : ℤ)))) (toLex (1, toLex (e', (m' : ℤ)))))
    rw [compare_toLex, compare_natCast]
    rfl

/-- The rank of a double that is a number. -/
def rankOf (x : Float) : Option (ℤ ×ₗ ℤ ×ₗ ℤ) := rank x.toModel.unpack

theorem le_iff_rank (a b : Float) : a ≤ b ↔ ∃ x ∈ rankOf a, ∃ y ∈ rankOf b, x ≤ y := by
  have unfolded : a ≤ b ↔ a.toModel.unpack.le b.toModel.unpack = true := by
    change decide (a.toModel ≤ b.toModel) = true ↔ _
    rw [decide_eq_true_eq]
    rfl
  rw [unfolded, UnpackedFloat.le, compare_rank, rankOf, rankOf]
  cases rank a.toModel.unpack <;> cases rank b.toModel.unpack <;>
    simp [Ordering.isLE_iff_ne_gt, compare_le_iff_le]

theorem lt_iff_rank (a b : Float) : a < b ↔ ∃ x ∈ rankOf a, ∃ y ∈ rankOf b, x < y := by
  have unfolded : a < b ↔ a.toModel.unpack.lt b.toModel.unpack = true := by
    change decide (a.toModel < b.toModel) = true ↔ _
    rw [decide_eq_true_eq]
    rfl
  rw [unfolded, UnpackedFloat.lt, compare_rank, rankOf, rankOf]
  cases rank a.toModel.unpack <;> cases rank b.toModel.unpack <;>
    simp [compare_lt_iff_lt]

theorem beq_iff_rank (a b : Float) : (a == b) = true ↔ ∃ x ∈ rankOf a, x ∈ rankOf b := by
  have unfolded : (a == b) = (a.toModel.unpack.compare b.toModel.unpack == some .eq) := rfl
  rw [unfolded, compare_rank, rankOf, rankOf]
  cases rank a.toModel.unpack with
  | none => simp
  | some x =>
    cases rank b.toModel.unpack with
    | none => simp
    | some y =>
      rw [Option.bind_some, Option.map_some, beq_iff_eq, Option.some.injEq, compare_eq_iff_eq]
      constructor
      · rintro rfl
        exact ⟨x, rfl, rfl⟩
      · rintro ⟨z, hx, hy⟩
        exact (Option.some.inj hx).trans (Option.some.inj hy).symm

theorem rankOf_isSome_of_isFinite {x : Float} (finite : x.isFinite = true) :
    ∃ r, rankOf x = some r := by
  have unfolded : x.toModel.unpack.isFinite = true := finite
  rw [rankOf]
  generalize x.toModel.unpack = u at unfolded
  cases u with
  | infinity => contradiction
  | notANumber => contradiction
  | zero => exact ⟨_, rfl⟩
  | finite sign => cases sign <;> exact ⟨_, rfl⟩

instance : Scalar.LawfulOrder Float where
  le_trans {a b c} h k := by
    obtain ⟨x, ha, y, hb, ordered⟩ := (le_iff_rank a b).mp h
    obtain ⟨y', hb', z, hc, ordered'⟩ := (le_iff_rank b c).mp k
    obtain rfl := Option.mem_unique hb hb'
    exact (le_iff_rank a c).mpr ⟨x, ha, z, hc, ordered.trans ordered'⟩
  le_total {a b} h k := by
    obtain ⟨x, ha, _⟩ := (le_iff_rank a a).mp h
    obtain ⟨y, hb, _⟩ := (le_iff_rank b b).mp k
    rcases le_total x y with ordered | ordered
    · exact Or.inl ((le_iff_rank a b).mpr ⟨x, ha, y, hb, ordered⟩)
    · exact Or.inr ((le_iff_rank b a).mpr ⟨y, hb, x, ha, ordered⟩)
  le_left {a b} h := by
    obtain ⟨x, ha, _⟩ := (le_iff_rank a b).mp h
    exact (le_iff_rank a a).mpr ⟨x, ha, x, ha, le_refl x⟩
  le_right {a b} h := by
    obtain ⟨_, _, y, hb, _⟩ := (le_iff_rank a b).mp h
    exact (le_iff_rank b b).mpr ⟨y, hb, y, hb, le_refl y⟩
  lt_iff {a b} := by
    change a < b ↔ a ≤ b ∧ ¬b ≤ a
    rw [lt_iff_rank, le_iff_rank, le_iff_rank]
    cases rankOf a with
    | none => simp
    | some x =>
      cases rankOf b with
      | none => simp
      | some y => simpa using (le_of_lt : x < y → x ≤ y)
  beq_iff {a b} := by
    change (a == b) = true ↔ a ≤ b ∧ b ≤ a
    constructor
    · intro same
      obtain ⟨x, ha, hb⟩ := (beq_iff_rank a b).mp same
      exact ⟨(le_iff_rank a b).mpr ⟨x, ha, x, hb, le_refl x⟩,
        (le_iff_rank b a).mpr ⟨x, hb, x, ha, le_refl x⟩⟩
    · rintro ⟨below, above⟩
      obtain ⟨x, ha, y, hb, below⟩ := (le_iff_rank a b).mp below
      obtain ⟨y', hb', x', ha', above⟩ := (le_iff_rank b a).mp above
      obtain rfl := Option.mem_unique ha ha'
      obtain rfl := Option.mem_unique hb hb'
      exact (beq_iff_rank a b).mpr ⟨x, ha, le_antisymm below above ▸ hb⟩
  le_of_isFinite {a} finite := by
    obtain ⟨r, hr⟩ := rankOf_isSome_of_isFinite finite
    exact (le_iff_rank a a).mpr ⟨r, hr, r, hr, le_refl r⟩

end Geospatial.Double
