import Mathlib.Order.WithBot
import Mathlib.Tactic.LinearCombination
import Geospatial.Hull
import Geospatial.Proofs.Scalar.Order
import Geospatial.Proofs.Segment.Between
import Geospatial.Proofs.Position

/-! The order of points round a pivot below them. Angles from the horizontal compare as their
cotangents do, which is where the order is transitive. -/
namespace Geospatial.Hull

open Segment

variable {K : Type} [Exact K] {pivot p q r : Position K}

/-- Higher than the pivot, or as high and further to the right. -/
def Above (pivot p : Position K) : Prop := pivot.y < p.y ∨ pivot.y = p.y ∧ pivot.x < p.x

/-- The cotangent of the angle to the horizontal, without end on the horizontal itself. -/
def cotangent (pivot p : Position K) : WithTop K :=
  if p.y = pivot.y then ⊤ else ((p.x - pivot.x) / (p.y - pivot.y) : K)

theorem orientation_pos (hp : Above pivot p) (hq : Above pivot q) :
    0 < orientation pivot p q ↔ cotangent pivot q < cotangent pivot p := by
  unfold orientation cotangent
  rcases hp with hp | ⟨hp, px⟩ <;> rcases hq with hq | ⟨hq, qx⟩
  · have dp : 0 < p.y - pivot.y := sub_pos.mpr hp
    have dq : 0 < q.y - pivot.y := sub_pos.mpr hq
    rw [if_neg hp.ne', if_neg hq.ne', WithTop.coe_lt_coe, div_lt_div_iff₀ dq dp, sub_pos,
      mul_comm (p.y - pivot.y)]
  · have right := mul_pos (sub_pos.mpr hp) (sub_pos.mpr qx)
    simp [hq.symm, right.le]
  · have left := mul_pos (sub_pos.mpr px) (sub_pos.mpr hq)
    simp [hp.symm, hq.ne', left]
  · simp [hp.symm, hq.symm]

theorem orientation_nonneg (hp : Above pivot p) (hq : Above pivot q) :
    0 ≤ orientation pivot p q ↔ cotangent pivot q ≤ cotangent pivot p := by
  rw [← not_lt, ← not_lt, ← orientation_pos hq hp, orientation_swap pivot p q, neg_pos]

section

variable (hp : Above pivot p) (hq : Above pivot q) (hr : Above pivot r)
include hp hq hr

theorem orientation_pos_trans (pq : 0 < orientation pivot p q) (qr : 0 ≤ orientation pivot q r) :
    0 < orientation pivot p r :=
  (orientation_pos hp hr).mpr
    (((orientation_nonneg hq hr).mp qr).trans_lt ((orientation_pos hp hq).mp pq))

theorem orientation_trans_pos (pq : 0 ≤ orientation pivot p q) (qr : 0 < orientation pivot q r) :
    0 < orientation pivot p r :=
  (orientation_pos hp hr).mpr
    (((orientation_pos hq hr).mp qr).trans_le ((orientation_nonneg hp hq).mp pq))

end

/-- The first point lies between the pivot and the second one. -/
def Nearer (pivot p q : Position K) : Prop :=
  ∃ t : K, 0 ≤ t ∧ t ≤ 1 ∧ p.x - pivot.x = t * (q.x - pivot.x) ∧
    p.y - pivot.y = t * (q.y - pivot.y)

namespace Nearer

theorem refl (pivot p : Position K) : Nearer pivot p p := ⟨1, zero_le_one, le_rfl, by simp, by simp⟩

theorem self (pivot p : Position K) : Nearer pivot pivot p :=
  ⟨0, le_rfl, zero_le_one, by simp, by simp⟩

theorem trans (pq : Nearer pivot p q) (qr : Nearer pivot q r) : Nearer pivot p r := by
  obtain ⟨s, hs, hs', sx, sy⟩ := pq
  obtain ⟨t, ht, ht', tx, ty⟩ := qr
  refine ⟨s * t, mul_nonneg hs ht, mul_le_one₀ hs' ht ht', ?_, ?_⟩
  · rw [sx, tx, mul_assoc]
  · rw [sy, ty, mul_assoc]

theorem orientation_eq_zero (near : Nearer pivot p q) : orientation pivot p q = 0 := by
  obtain ⟨t, _, _, x, y⟩ := near
  rw [orientation, x, y]
  ring

/-- From the further point to `r`, the nearer one is on the side of the pivot. -/
theorem orientation_far (near : Nearer pivot p q) :
    ∃ t : K, 0 ≤ t ∧ ∀ r, orientation q r p = t * orientation pivot q r := by
  obtain ⟨t, _, atMost, x, y⟩ := near
  refine ⟨1 - t, sub_nonneg.mpr atMost, fun r => ?_⟩
  have px : p.x = pivot.x + t * (q.x - pivot.x) := by rw [← x, add_sub_cancel]
  have py : p.y = pivot.y + t * (q.y - pivot.y) := by rw [← y, add_sub_cancel]
  rw [orientation, orientation, px, py]
  ring

end Nearer

/-- Points above the pivot on one ray are in proportion. -/
theorem exists_ratio (hp : Above pivot p) (hq : Above pivot q) (ray : orientation pivot p q = 0) :
    ∃ t : K, 0 ≤ t ∧ p.x - pivot.x = t * (q.x - pivot.x) ∧ p.y - pivot.y = t * (q.y - pivot.y) := by
  rw [orientation, sub_eq_zero] at ray
  rcases hq with hq | ⟨hq, qx⟩
  · have dq : 0 < q.y - pivot.y := sub_pos.mpr hq
    have dp : 0 ≤ p.y - pivot.y := by
      rcases hp with hp | ⟨hp, _⟩
      · exact (sub_pos.mpr hp).le
      · exact (sub_eq_zero.mpr hp.symm).ge
    refine ⟨(p.y - pivot.y) / (q.y - pivot.y), div_nonneg dp dq.le, ?_, ?_⟩
    · rw [div_mul_eq_mul_div, ← ray, mul_div_cancel_right₀ _ dq.ne']
    · rw [div_mul_cancel₀ _ dq.ne']
  · have dq : 0 < q.x - pivot.x := sub_pos.mpr qx
    have flat : p.y - pivot.y = 0 := by
      rw [hq, sub_self, mul_zero] at ray
      rw [hq]
      exact (mul_eq_zero.mp ray.symm).resolve_right dq.ne'
    have px : pivot.x < p.x := by
      rcases hp with hp | ⟨_, px⟩
      · exact absurd flat (sub_pos.mpr hp).ne'
      · exact px
    refine ⟨(p.x - pivot.x) / (q.x - pivot.x), div_nonneg (sub_pos.mpr px).le dq.le, ?_, ?_⟩
    · rw [div_mul_cancel₀ _ dq.ne']
    · rw [flat, hq, sub_self, mul_zero]

/-- On one ray, the shorter distance is that of the nearer point. -/
theorem Nearer.of_distanceSquared (hp : Above pivot p) (hq : Above pivot q)
    (ray : orientation pivot p q = 0)
    (shorter : distanceSquared pivot p ≤ distanceSquared pivot q) : Nearer pivot p q := by
  obtain ⟨t, ht, x, y⟩ := exists_ratio hp hq ray
  refine ⟨t, ht, ?_, x, y⟩
  have scaled : distanceSquared pivot p = t * t * distanceSquared pivot q := by
    rw [distanceSquared, distanceSquared, Scalar.square, Scalar.square, Scalar.square,
      Scalar.square, ← neg_sub p.x, ← neg_sub p.y, ← neg_sub q.x, ← neg_sub q.y, x, y]
    ring
  have apart : 0 < distanceSquared pivot q := by
    rw [distanceSquared, Scalar.square, Scalar.square]
    rcases hq with hq | ⟨_, hq⟩
    · exact add_pos_of_nonneg_of_pos (mul_self_nonneg _) (mul_self_pos.mpr (sub_neg.mpr hq).ne)
    · exact add_pos_of_pos_of_nonneg (mul_self_pos.mpr (sub_neg.mpr hq).ne) (mul_self_nonneg _)
  have square : t * t ≤ 1 := by
    rw [scaled] at shorter
    exact le_of_mul_le_mul_right (by rwa [one_mul]) apart
  exact (mul_self_le_mul_self_iff ht zero_le_one).mpr (by rwa [one_mul])

/-- The order of the scan: at a smaller angle, or between the pivot and the later point. -/
def Precedes (pivot p q : Position K) : Prop := 0 < orientation pivot p q ∨ Nearer pivot p q

theorem Precedes.orientation_nonneg (before : Precedes pivot p q) : 0 ≤ orientation pivot p q := by
  rcases before with turn | near
  · exact turn.le
  · exact near.orientation_eq_zero.ge

theorem byAngle_eq (hp : Above pivot p) (hq : Above pivot q) : byAngle pivot p q =
    (compare (cotangent pivot q) (cotangent pivot p)).then
      (Scalar.order (distanceSquared pivot p) (distanceSquared pivot q)) := by
  have left := orientation_pos hp hq
  have right := orientation_pos hq hp
  rw [orientation_swap pivot p q, neg_pos] at right
  unfold byAngle
  rcases lt_trichotomy (cotangent pivot q) (cotangent pivot p) with less | same | more
  · simp [left, less, compare_lt_iff_lt.mpr less]
  · simp [left, right, same]
  · simp [left, right, more, more.not_gt, compare_gt_iff_gt.mpr more]

theorem byAngle_transOn (pivot : Position K) :
    Order.TransOn (byAngle pivot) (Above pivot) := by
  have descending : Order.TransOn (fun a b : WithTop K => compare b a) fun _ => True :=
    .of_transCmp _
  have angles : Order.TransOn (fun p q => compare (cotangent pivot q) (cotangent pivot p))
      (Above pivot) := descending.on (cotangent pivot) fun _ _ => trivial
  have distances : Order.TransOn
      (Order.on (distanceSquared pivot) Scalar.order) (Above pivot) :=
    Scalar.order_transOn.on _ fun _ _ => le_rfl
  exact (angles.lex distances).congr fun p q hp hq => byAngle_eq hp hq

theorem precedes_of_byAngle (hp : Above pivot p) (hq : Above pivot q)
    (sorted : (byAngle pivot p q).isLE) : Precedes pivot p q := by
  unfold byAngle at sorted
  by_cases left : 0 < orientation pivot p q
  · exact .inl left
  · by_cases right : orientation pivot p q < 0
    · simp [left, right] at sorted
    · simp only [left, right, if_false] at sorted
      exact .inr (.of_distanceSquared hp hq (le_antisymm (not_lt.mp left) (not_lt.mp right))
        ((Scalar.order_isLE le_rfl le_rfl).mp sorted))

end Geospatial.Hull
