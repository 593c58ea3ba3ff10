import Mathlib.Analysis.Convex.Segment
import Geospatial.Proofs.Scalar.Real
import Geospatial.Proofs.Segment.Meeting

/-! The intersection test of two segments against the places that they share, in exact arithmetic.
Segments that share a place either cross, each with its ends on both sides of the other, or have an
end of one on the other. The test answers for all of the second kind; of the first it misses those
where an end is within the tolerance of the other line but not of the other segment. -/
namespace Geospatial.Segment

variable {K : Type} [Euclidean K] {p q x y a b c d a₁ a₂ b₁ b₂ : Position K}

/-- The place passes the part of the test that is made of the ends of the segments. -/
def touches (p a b : Position K) : Bool :=
  decide (Scalar.abs (orientation a b p) ≤ tolerance) && inBox p a b

/-- The ends of the first segment are on different sides of the line of the second. -/
def Straddles (a₁ a₂ b₁ b₂ : Position K) : Prop :=
  orientation b₁ b₂ a₁ * orientation b₁ b₂ a₂ < 0

theorem intersects_iff : intersects a₁ a₂ b₁ b₂ = true ↔
    (opposite (orientation b₁ b₂ a₁) (orientation b₁ b₂ a₂) = true ∧
      opposite (orientation a₁ a₂ b₁) (orientation a₁ a₂ b₂) = true) ∨
    touches a₁ b₁ b₂ = true ∨ touches a₂ b₁ b₂ = true ∨
    touches b₁ a₁ a₂ = true ∨ touches b₂ a₁ a₂ = true := by
  simp only [intersects, touches, Bool.or_eq_true, Bool.and_eq_true, or_assoc]

theorem touches_of_on (on : On p a b) : touches p a b = true := by
  rw [touches, orientation_of_on on, inBox_of_on on, Euclidean.abs_eq, abs_zero,
    decide_eq_true tolerance_pos.le]
  rfl

theorem opposite_iff {d e : K} :
    opposite d e = true ↔ d * e < 0 ∧ tolerance < |d| ∧ tolerance < |e| := by
  have slack : (0 : K) < tolerance := tolerance_pos
  simp only [opposite, Bool.or_eq_true, Bool.and_eq_true, decide_eq_true_eq]
  constructor
  · rintro (⟨hd, he⟩ | ⟨hd, he⟩)
    · have positive : 0 < d := by linarith
      have negative : e < 0 := by linarith
      exact ⟨mul_neg_of_pos_of_neg positive negative, by rwa [abs_of_pos positive],
        by rw [abs_of_neg negative]; linarith⟩
    · have negative : d < 0 := by linarith
      have positive : 0 < e := by linarith
      exact ⟨mul_neg_of_neg_of_pos negative positive, by rw [abs_of_neg negative]; linarith,
        by rwa [abs_of_pos positive]⟩
  · rintro ⟨signs, hd, he⟩
    rcases mul_neg_iff.mp signs with ⟨positive, negative⟩ | ⟨negative, positive⟩
    · rw [abs_of_pos positive] at hd
      rw [abs_of_neg negative] at he
      exact .inl ⟨hd, by linarith⟩
    · rw [abs_of_neg negative] at hd
      rw [abs_of_pos positive] at he
      exact .inr ⟨by linarith, he⟩

/-- An affine function that vanishes on a segment and has no signs that differ at its ends vanishes
all along it, or at an end. -/
theorem Affine.flat_of_zero {f : Position K → K} (h : Affine f) (on : On p c d) (zero : f p = 0)
    (same : 0 ≤ f c * f d) : (f c = 0 ∧ f d = 0) ∨ p.sameXY c = true ∨ p.sameXY d = true := by
  obtain ⟨t, low, high, hx, hy⟩ := on
  rw [h.eq_of_share hx hy] at zero
  rcases low.eq_or_lt with rfl | positive
  · exact .inr (.inl (Position.sameXY_iff.mpr ⟨by rw [hx]; ring, by rw [hy]; ring⟩))
  rcases high.eq_or_lt with rfl | short
  · exact .inr (.inr (Position.sameXY_iff.mpr ⟨by rw [hx]; ring, by rw [hy]; ring⟩))
  have rest : 0 < 1 - t := sub_pos.mpr short
  -- the two terms of a zero sum cancel, and they do not differ in sign
  have square : t * (f d * f d) = -((1 - t) * (f c * f d)) := by linear_combination f d * zero
  have square : f d * f d = 0 := by
    refine le_antisymm ?_ (mul_self_nonneg _)
    refine le_of_mul_le_mul_left ?_ positive
    rw [square, mul_zero, neg_nonpos]
    exact mul_nonneg rest.le same
  have last : f d = 0 := mul_self_eq_zero.mp square
  rw [last, mul_zero, add_zero] at zero
  exact .inl ⟨(mul_eq_zero.mp zero).resolve_left rest.ne', last⟩

/-- A place is on a segment whose ends are to the two sides of it on one line. -/
theorem on_of_shares {s t : K} (before : s ≤ 0) (after : 0 < t)
    (hx : a.x = p.x + s * (q.x - p.x)) (hy : a.y = p.y + s * (q.y - p.y))
    (hx' : b.x = p.x + t * (q.x - p.x)) (hy' : b.y = p.y + t * (q.y - p.y)) : On p a b := by
  have span : 0 < t - s := by linarith
  have share : -s / (t - s) * (t - s) = -s := div_mul_cancel₀ _ span.ne'
  refine ⟨-s / (t - s), div_nonneg (by linarith) span.le, (div_le_one span).mpr (by linarith),
    ?_, ?_⟩
  · rw [hx, hx']
    linear_combination (p.x - q.x) * share
  · rw [hy, hy']
    linear_combination (p.y - q.y) * share

theorem share_unique {s t : K} (apart : a.sameXY b = false)
    (hx : a.x + s * (b.x - a.x) = a.x + t * (b.x - a.x))
    (hy : a.y + s * (b.y - a.y) = a.y + t * (b.y - a.y)) : s = t := by
  by_contra differ
  have nonzero : s - t ≠ 0 := sub_ne_zero.mpr differ
  have wide : (s - t) * (b.x - a.x) = 0 := by linear_combination hx
  have tall : (s - t) * (b.y - a.y) = 0 := by linear_combination hy
  have same : a.sameXY b = true := Position.sameXY_iff.mpr
    ⟨(sub_eq_zero.mp ((mul_eq_zero.mp wide).resolve_left nonzero)).symm,
      (sub_eq_zero.mp ((mul_eq_zero.mp tall).resolve_left nonzero)).symm⟩
  exact Bool.false_ne_true (apart.symm.trans same)

/-- Segments on one line that share a place have an end of one on the other. -/
theorem end_on_of_flat (first : orientation b₁ b₂ a₁ = 0) (second : orientation b₁ b₂ a₂ = 0)
    (ha : On p a₁ a₂) (hb : On p b₁ b₂) : On a₁ b₁ b₂ ∨ On a₂ b₁ b₂ ∨ On b₁ a₁ a₂ := by
  obtain ⟨u, u₀, u₁, hx, hy⟩ := hb
  cases apart : b₁.sameXY b₂ with
  | true =>
    obtain ⟨sameX, sameY⟩ := Position.sameXY_iff.mp apart
    have single : p.sameXY b₁ = true := Position.sameXY_iff.mpr
      ⟨by rw [hx, sameX]; ring, by rw [hy, sameY]; ring⟩
    exact .inr (.inr (ha.of_sameXY single))
  | false =>
    obtain ⟨s, ax, ay⟩ := exists_share apart first
    obtain ⟨r, ax', ay'⟩ := exists_share apart second
    obtain ⟨t, t₀, t₁, px, py⟩ := ha
    have share : (1 - t) * s + t * r = u := by
      apply share_unique apart
      · rw [← hx, px, ax, ax']
        ring
      · rw [← hy, py, ay, ay']
        ring
    have least : min s r ≤ u := share ▸ Convex.min_le_combo s r (by linarith) t₀ (by ring)
    have most : u ≤ max s r := share ▸ Convex.combo_le_max s r (by linarith) t₀ (by ring)
    by_cases inside : 0 ≤ s ∧ s ≤ 1
    · exact .inl ⟨s, inside.1, inside.2, ax, ay⟩
    by_cases inside' : 0 ≤ r ∧ r ≤ 1
    · exact .inr (.inl ⟨r, inside'.1, inside'.2, ax', ay'⟩)
    rw [not_and_or, not_le, not_le] at inside inside'
    -- the ends of the first segment are off the second one: past different ends of it
    refine .inr (.inr ?_)
    rcases inside with before | after <;> rcases inside' with before' | after'
    · exact absurd (u₀.trans most) (max_lt before before').not_ge
    · exact on_of_shares before.le (by linarith) ax ay ax' ay'
    · exact (on_of_shares before'.le (by linarith) ax' ay' ax ay).symm
    · exact absurd (least.trans u₁) (lt_min after after').not_ge

theorem end_on_of_not_straddles (ha : On p a₁ a₂) (hb : On p b₁ b₂)
    (beside : ¬Straddles a₁ a₂ b₁ b₂) : On a₁ b₁ b₂ ∨ On a₂ b₁ b₂ ∨ On b₁ a₁ a₂ := by
  rcases (affine_orientation b₁ b₂).flat_of_zero ha (orientation_of_on hb) (not_lt.mp beside)
    with ⟨first, second⟩ | same | same
  · exact end_on_of_flat first second ha hb
  · exact .inl (hb.of_sameXY same)
  · exact .inr (.inl (hb.of_sameXY same))

/-- Segments that share a place cross, or have an end of one on the other. -/
theorem straddles_or_end_on (ha : On p a₁ a₂) (hb : On p b₁ b₂) :
    (Straddles a₁ a₂ b₁ b₂ ∧ Straddles b₁ b₂ a₁ a₂) ∨
      On a₁ b₁ b₂ ∨ On a₂ b₁ b₂ ∨ On b₁ a₁ a₂ ∨ On b₂ a₁ a₂ := by
  by_cases across : Straddles a₁ a₂ b₁ b₂
  · by_cases across' : Straddles b₁ b₂ a₁ a₂
    · exact .inl ⟨across, across'⟩
    · obtain on | on | on := end_on_of_not_straddles hb ha across'
      · exact .inr (.inr (.inr (.inl on)))
      · exact .inr (.inr (.inr (.inr on)))
      · exact .inr (.inl on)
  · obtain on | on | on := end_on_of_not_straddles ha hb across
    · exact .inr (.inl on)
    · exact .inr (.inr (.inl on))
    · exact .inr (.inr (.inr (.inl on)))

/-- Segments that cross where an end is too near the line of the other segment to be told from its
place on it, while no such end is near that segment. -/
structure Unseen (a₁ a₂ b₁ b₂ : Position K) : Prop where
  straddles : Straddles a₁ a₂ b₁ b₂
  straddled : Straddles b₁ b₂ a₁ a₂
  near : |orientation b₁ b₂ a₁| ≤ tolerance ∨ |orientation b₁ b₂ a₂| ≤ tolerance ∨
    |orientation a₁ a₂ b₁| ≤ tolerance ∨ |orientation a₁ a₂ b₂| ≤ tolerance
  apart : touches a₁ b₁ b₂ = false ∧ touches a₂ b₁ b₂ = false ∧
    touches b₁ a₁ a₂ = false ∧ touches b₂ a₁ a₂ = false

/-- The test misses such segments, wherever they cross. -/
theorem Unseen.missed (unseen : Unseen a₁ a₂ b₁ b₂) : intersects a₁ a₂ b₁ b₂ = false := by
  rw [← Bool.not_eq_true, intersects_iff]
  rintro (⟨sides, sides'⟩ | touch)
  · obtain ⟨-, f₁, f₂⟩ := opposite_iff.mp sides
    obtain ⟨-, f₃, f₄⟩ := opposite_iff.mp sides'
    rcases unseen.near with near | near | near | near <;> exact near.not_gt ‹_›
  · obtain ⟨h₁, h₂, h₃, h₄⟩ := unseen.apart
    simp [h₁, h₂, h₃, h₄] at touch

/-- Of the segments that share a place it misses no others. -/
theorem unseen_of_missed (ha : On p a₁ a₂) (hb : On p b₁ b₂)
    (missed : intersects a₁ a₂ b₁ b₂ = false) : Unseen a₁ a₂ b₁ b₂ := by
  rw [← Bool.not_eq_true, intersects_iff] at missed
  simp only [not_or, Bool.not_eq_true] at missed
  obtain ⟨crossing, h₁, h₂, h₃, h₄⟩ := missed
  rcases straddles_or_end_on ha hb with ⟨across, across'⟩ | on
  · refine ⟨across, across', ?_, h₁, h₂, h₃, h₄⟩
    by_contra far
    simp only [not_or, not_le] at far
    obtain ⟨f₁, f₂, f₃, f₄⟩ := far
    exact crossing ⟨opposite_iff.mpr ⟨across, f₁, f₂⟩, opposite_iff.mpr ⟨across', f₃, f₄⟩⟩
  · rcases on with on | on | on | on <;> simp_all [touches_of_on on]

/-- Segments that share a place are found to meet, at any scale, unless they cross where an end of
one is within the tolerance of the other line and none is within it of the other segment. -/
theorem intersects_of_common_place (ha : On p a₁ a₂) (hb : On p b₁ b₂) :
    intersects a₁ a₂ b₁ b₂ = true ↔ ¬Unseen a₁ a₂ b₁ b₂ := by
  refine ⟨fun met unseen => ?_, fun seen => ?_⟩
  · exact Bool.false_ne_true (unseen.missed.symm.trans met)
  · rw [← Bool.not_eq_false]
    exact fun missed => seen (unseen_of_missed ha hb missed)

/-- Crossing segments of length two meet. -/
theorem intersects_of_common_place_cross :
    let o : Position ℝ := ⟨0, 0, none⟩
    On o ⟨-1, 0, none⟩ ⟨1, 0, none⟩ ∧ On o ⟨0, -1, none⟩ ⟨0, 1, none⟩ ∧
      intersects (⟨-1, 0, none⟩ : Position ℝ) ⟨1, 0, none⟩ ⟨0, -1, none⟩ ⟨0, 1, none⟩ = true := by
  intro o
  have ha : On o ⟨-1, 0, none⟩ ⟨1, 0, none⟩ :=
    ⟨1 / 2, by norm_num, by norm_num, by norm_num [o], by norm_num [o]⟩
  have hb : On o ⟨0, -1, none⟩ ⟨0, 1, none⟩ :=
    ⟨1 / 2, by norm_num, by norm_num, by norm_num [o], by norm_num [o]⟩
  refine ⟨ha, hb, (intersects_of_common_place ha hb).mpr fun unseen => ?_⟩
  have near := unseen.near
  norm_num [orientation, tolerance_eq] at near

/-- Crossing segments of length two millionths do not. -/
theorem intersects_misses_small_cross :
    let o : Position ℝ := ⟨0, 0, none⟩
    let e : ℝ := 1 / 1000000
    On o ⟨-e, 0, none⟩ ⟨e, 0, none⟩ ∧ On o ⟨0, -e, none⟩ ⟨0, e, none⟩ ∧
      intersects (⟨-e, 0, none⟩ : Position ℝ) ⟨e, 0, none⟩ ⟨0, -e, none⟩ ⟨0, e, none⟩ = false := by
  intro o e
  have ha : On o ⟨-e, 0, none⟩ ⟨e, 0, none⟩ :=
    ⟨1 / 2, by norm_num, by norm_num, by norm_num [o, e], by norm_num [o]⟩
  have hb : On o ⟨0, -e, none⟩ ⟨0, e, none⟩ :=
    ⟨1 / 2, by norm_num, by norm_num, by norm_num [o], by norm_num [o, e]⟩
  refine ⟨ha, hb, Unseen.missed ⟨?_, ?_, ?_, ?_⟩⟩
  · norm_num [Straddles, orientation, e]
  · norm_num [Straddles, orientation, e]
  · norm_num [orientation, tolerance_eq, e]
  · norm_num [touches, inBox, Scalar.min, Scalar.max, orientation, tolerance_eq, e]

example : intersects (⟨-1e-6, 0, none⟩ : Position Float) ⟨1e-6, 0, none⟩ ⟨0, -1e-6, none⟩
    ⟨0, 1e-6, none⟩ = false := by
  decide +kernel

end Geospatial.Segment
