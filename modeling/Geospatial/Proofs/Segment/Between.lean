import Mathlib.Tactic.FieldSimp
import Mathlib.Tactic.LinearCombination
import Mathlib.Tactic.Ring
import Geospatial.Proofs.Position
import Geospatial.Proofs.Scalar.Exact
import Geospatial.Segment

/-! Places on a segment, in exact arithmetic and without tolerance, what affine functions of the
place do along it, and the orientation of three points. -/
namespace Geospatial.Segment

section Place

variable {K : Type} [Exact K] {a b c d p q v x y z : Position K} {r s t : K}

/-- The place lies on the closed segment. -/
def On (x a b : Position K) : Prop :=
  ∃ t, 0 ≤ t ∧ t ≤ 1 ∧ x.x = a.x + t * (b.x - a.x) ∧ x.y = a.y + t * (b.y - a.y)

/-- The place lies on the ray from `p` through `q`. -/
def Ahead (p q x : Position K) : Prop :=
  ∃ s, 0 ≤ s ∧ x.x = p.x + s * (q.x - p.x) ∧ x.y = p.y + s * (q.y - p.y)

theorem On.left (a b : Position K) : On a a b := ⟨0, le_rfl, zero_le_one, by ring, by ring⟩

theorem On.symm (h : On x a b) : On x b a := by
  obtain ⟨t, low, high, hx, hy⟩ := h
  exact ⟨1 - t, sub_nonneg.mpr high, sub_le_self 1 low, by rw [hx]; ring, by rw [hy]; ring⟩

theorem On.right (a b : Position K) : On b a b := (On.left b a).symm

/-- A segment has all places between two of its own. -/
theorem On.trans (hx : On x a b) (hy : On y a b) (hz : On z x y) : On z a b := by
  obtain ⟨r, low, high, hx, hx'⟩ := hx
  obtain ⟨s, low', high', hy, hy'⟩ := hy
  obtain ⟨t, start, stop, hz, hz'⟩ := hz
  have rest : 0 ≤ 1 - t := sub_nonneg.mpr stop
  refine ⟨(1 - t) * r + t * s, add_nonneg (mul_nonneg rest low) (mul_nonneg start low'), ?_,
    by rw [hz, hx, hy]; ring, by rw [hz', hx', hy']; ring⟩
  calc (1 - t) * r + t * s ≤ (1 - t) * 1 + t * 1 :=
        add_le_add (mul_le_mul_of_nonneg_left high rest) (mul_le_mul_of_nonneg_left high' start)
    _ = 1 := by ring

theorem On.congr {a₁ a₂ b₁ b₂ : Position K}
    (ha : a₁.sameXY a₂ = true) (hb : b₁.sameXY b₂ = true) (on : On x a₁ b₁) : On x a₂ b₂ := by
  obtain ⟨ax, ay⟩ := Position.sameXY_iff.mp ha
  obtain ⟨bx, by'⟩ := Position.sameXY_iff.mp hb
  obtain ⟨t, low, high, hx, hy⟩ := on
  rw [ax, bx] at hx
  rw [ay, by'] at hy
  exact ⟨t, low, high, hx, hy⟩

theorem On.of_sameXY (same : x.sameXY y = true) (on : On x a b) : On y a b := by
  obtain ⟨hx, hy⟩ := Position.sameXY_iff.mp same
  obtain ⟨t, low, high, hx', hy'⟩ := on
  exact ⟨t, low, high, hx.symm.trans hx', hy.symm.trans hy'⟩

/-- The place is at the given share of the way from one position to another. -/
def Share (a b : Position K) (t : K) (x : Position K) : Prop :=
  x.x = a.x + t * (b.x - a.x) ∧ x.y = a.y + t * (b.y - a.y)

theorem Share.between (hx : Share a b r x) (hc : Share a b s c) (hv : Share a b t v)
    (low : s ≤ r) (high : r ≤ t) : On x c v := by
  rcases (low.trans high).eq_or_lt with rfl | apart
  · obtain rfl := le_antisymm low high
    exact ⟨0, le_rfl, zero_le_one, by rw [hx.1, hc.1]; ring, by rw [hx.2, hc.2]; ring⟩
  · have length : 0 < t - s := sub_pos.mpr apart
    have split : (r - s) / (t - s) * (t - s) = r - s := div_mul_cancel₀ _ length.ne'
    refine ⟨(r - s) / (t - s), div_nonneg (sub_nonneg.mpr low) length.le,
      (div_le_one length).mpr (sub_le_sub_right high s), ?_, ?_⟩
    · rw [hx.1, hc.1, hv.1]
      linear_combination -(b.x - a.x) * split
    · rw [hx.2, hc.2, hv.2]
      linear_combination -(b.y - a.y) * split

/-- A place on the way to the end is passed also where the way goes over another place. -/
theorem On.detour (hc : On c a b) (hv : On v a b) (hx : On x c b) : On x c v ∨ On x v b := by
  obtain ⟨s, -, shortS, cx, cy⟩ := hc
  obtain ⟨t, -, shortT, vx, vy⟩ := hv
  obtain ⟨w, low, high, hx, hy⟩ := hx
  have rest : 0 ≤ 1 - s := sub_nonneg.mpr shortS
  have place : Share a b (s + w * (1 - s)) x :=
    ⟨by rw [hx, cx]; ring, by rw [hy, cy]; ring⟩
  have stop : Share a b 1 b := ⟨by ring, by ring⟩
  rcases le_total (s + w * (1 - s)) t with before | after
  · left
    exact place.between ⟨cx, cy⟩ ⟨vx, vy⟩ (le_add_of_nonneg_right (mul_nonneg low rest)) before
  · right
    refine place.between ⟨vx, vy⟩ stop after ?_
    linarith [mul_le_of_le_one_left rest high]

/-- A function of the place in the plane that is linear up to a constant. -/
def Affine (f : Position K → K) : Prop := ∃ u v w, ∀ z : Position K, f z = u * z.x + v * z.y + w

theorem affine_x : Affine (K := K) (·.x) := ⟨1, 0, 0, fun z => by ring⟩

theorem affine_y : Affine (K := K) (·.y) := ⟨0, 1, 0, fun z => by ring⟩

theorem affine_orientation (a b : Position K) : Affine (orientation a b) :=
  ⟨a.y - b.y, b.x - a.x, a.x * b.y - a.y * b.x, fun z => by rw [orientation]; ring⟩

namespace Affine

variable {f : Position K → K} (h : Affine f)
include h

theorem mul_left (k : K) : Affine fun z => k * f z := by
  obtain ⟨u, v, w, eq⟩ := h
  refine ⟨k * u, k * v, k * w, fun z => ?_⟩
  simp only [eq]
  ring

theorem congr (same : x.sameXY y = true) : f x = f y := by
  obtain ⟨u, v, w, eq⟩ := h
  obtain ⟨hx, hy⟩ := Position.sameXY_iff.mp same
  rw [eq, eq, hx, hy]

theorem eq_of_share {t : K} (hx : z.x = c.x + t * (d.x - c.x)) (hy : z.y = c.y + t * (d.y - c.y)) :
    f z = (1 - t) * f c + t * f d := by
  obtain ⟨u, v, w, eq⟩ := h
  rw [eq, eq, eq, hx, hy]
  ring

theorem le_of_on {m : K} (on : On z c d) (hc : m ≤ f c) (hd : m ≤ f d) : m ≤ f z := by
  obtain ⟨t, low, high, hx, hy⟩ := on
  rw [h.eq_of_share hx hy]
  calc m = (1 - t) * m + t * m := by ring
    _ ≤ (1 - t) * f c + t * f d := add_le_add
      (mul_le_mul_of_nonneg_left hc (sub_nonneg.mpr high)) (mul_le_mul_of_nonneg_left hd low)

theorem ge_of_on {m : K} (on : On z c d) (hc : f c ≤ m) (hd : f d ≤ m) : f z ≤ m := by
  have turned := (h.mul_left (-1)).le_of_on (m := -m) on (by linarith) (by linarith)
  linarith

/-- Where the signs at the ends differ, the function vanishes on the segment. -/
theorem exists_zero (hc : 0 ≤ f c) (hd : f d ≤ 0) : ∃ z, On z c d ∧ f z = 0 := by
  rcases hd.eq_or_lt with zero | negative
  · exact ⟨d, On.right c d, zero⟩
  · have drop : 0 < f c - f d := by linarith
    let t := f c / (f c - f d)
    have high : t ≤ 1 := (div_le_one drop).mpr (by linarith)
    refine ⟨⟨c.x + t * (d.x - c.x), c.y + t * (d.y - c.y), none⟩,
      ⟨t, div_nonneg hc drop.le, high, rfl, rfl⟩, ?_⟩
    rw [h.eq_of_share rfl rfl]
    have scaled : t * (f c - f d) = f c := div_mul_cancel₀ _ drop.ne'
    linear_combination -scaled

end Affine

/-- A place on the line of a ray lies on the ray where it is on the same side in height. -/
theorem ahead_of_flat (apart : q.y ≠ p.y) (flat : orientation p q x = 0)
    (side : 0 ≤ (x.y - p.y) * (q.y - p.y)) : Ahead p q x := by
  have rise : q.y - p.y ≠ 0 := sub_ne_zero.mpr apart
  refine ⟨(x.y - p.y) / (q.y - p.y), ?_, ?_, ?_⟩
  · rw [← mul_div_mul_right _ _ rise]
    exact div_nonneg side (mul_self_nonneg _)
  · rw [orientation] at flat
    field_simp
    linear_combination -flat
  · rw [div_mul_cancel₀ _ rise]
    ring

/-- A place on the line through two different places is some share of the way between them. -/
theorem exists_share (apart : a.sameXY b = false) (flat : orientation a b x = 0) :
    ∃ t, x.x = a.x + t * (b.x - a.x) ∧ x.y = a.y + t * (b.y - a.y) := by
  have differ : b.x - a.x ≠ 0 ∨ b.y - a.y ≠ 0 := by
    by_contra same
    simp only [not_or, not_not, sub_eq_zero] at same
    rw [Position.sameXY_iff.mpr ⟨same.1.symm, same.2.symm⟩] at apart
    contradiction
  rw [orientation] at flat
  rcases differ with width | rise
  · refine ⟨(x.x - a.x) / (b.x - a.x), by rw [div_mul_cancel₀ _ width]; ring, ?_⟩
    field_simp
    linear_combination flat
  · refine ⟨(x.y - a.y) / (b.y - a.y), ?_, by rw [div_mul_cancel₀ _ rise]; ring⟩
    field_simp
    linear_combination -flat

end Place

section Orientation

variable {K : Type} [Exact K]

theorem orientation_rotate (a b c : Position K) : orientation a b c = orientation b c a := by
  unfold orientation
  ring

theorem orientation_swap (a b c : Position K) : orientation a c b = -orientation a b c := by
  unfold orientation
  ring

theorem orientation_reverse (a b c : Position K) : orientation b a c = -orientation a b c := by
  rw [orientation_rotate, orientation_swap]

@[simp]
theorem orientation_right (a b : Position K) : orientation a b b = 0 := by
  unfold orientation
  ring

@[simp]
theorem orientation_back (a b : Position K) : orientation a b a = 0 := by
  unfold orientation
  ring

end Orientation

end Geospatial.Segment
