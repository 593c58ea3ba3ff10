import Geospatial.Proofs.Segment.Between
import Geospatial.Proofs.Ring.Cycle

/-! Rays from a point that lies left of an odd number of edges. Going once round a ring, a place
changes between any two classes an even number of times; with the classes that a ray cuts out, the
edges that pass the point on its right could not be odd in number if the ray met no edge. -/
namespace Geospatial.Path

open Segment

variable {K : Type} [Exact K] {p q v w x y : Position K} {vertices : Path K}

theorem straddle_of_rayCrosses (crosses : rayCrosses p v w = true) :
    (decide (p.y < v.y) != decide (p.y < w.y)) = true := by
  rw [rayCrosses, Bool.and_eq_true] at crosses
  exact crosses.1

/-- An edge from above a point to below it, or back, passes it at its height. -/
theorem exists_level (straddle : (decide (p.y < v.y) != decide (p.y < w.y)) = true) :
    ∃ h, On h v w ∧ h.y = p.y ∧ rayCrosses p v w = decide (p.x < h.x) := by
  refine ⟨⟨(w.x - v.x) * (p.y - v.y) / (w.y - v.y) + v.x, p.y, none⟩, ?_, rfl, ?_⟩
  · have apart : 0 ≤ (p.y - v.y) / (w.y - v.y) ∧ (p.y - v.y) / (w.y - v.y) ≤ 1 ∧ w.y - v.y ≠ 0 := by
      by_cases above : p.y < v.y
      · have below : w.y ≤ p.y := by simpa [above] using straddle
        have fall : w.y - v.y < 0 := by linarith
        exact ⟨div_nonneg_of_nonpos (by linarith) fall.le,
          (div_le_one_of_neg fall).mpr (by linarith), fall.ne⟩
      · have higher : p.y < w.y := by simpa [above] using straddle
        have rise : 0 < w.y - v.y := by linarith
        exact ⟨div_nonneg (by linarith) rise.le, (div_le_one rise).mpr (by linarith), rise.ne'⟩
    obtain ⟨low, high, rise⟩ := apart
    refine ⟨(p.y - v.y) / (w.y - v.y), low, high, by ring, ?_⟩
    rw [div_mul_cancel₀ _ rise]
    ring
  · rw [rayCrosses, straddle, Bool.true_and]

/-- On the same side in height as `q`, seen from `p`. -/
def toward (p q z : Position K) : Bool := decide (p.y < z.y) == decide (p.y < q.y)

/-- On the side of `q` in height, and right of the line through `p` and `q`. -/
def right (p q z : Position K) : Bool :=
  toward p q z && decide ((q.y - p.y) * orientation p q z < 0)

theorem side_of_toward (h : toward p q x = true) : 0 ≤ (x.y - p.y) * (q.y - p.y) := by
  by_cases up : p.y < q.y
  · have above : p.y < x.y := by simpa [toward, up] using h
    exact mul_nonneg (by linarith) (by linarith)
  · have below : x.y ≤ p.y := by simpa [toward, up] using h
    exact mul_nonneg_of_nonpos_of_nonpos (by linarith) (by linarith)

/-- Along an edge that the ray does not meet, no place on its side is right of it unless all are. -/
theorem right_iff_of_clear (clear : ∀ z, On z v w → ¬Ahead p q z) (rise : q.y ≠ p.y)
    (hx : On x v w) (hy : On y v w) (sx : 0 ≤ (x.y - p.y) * (q.y - p.y))
    (sy : 0 ≤ (y.y - p.y) * (q.y - p.y)) :
    (q.y - p.y) * orientation p q x < 0 → (q.y - p.y) * orientation p q y < 0 := by
  intro isRight
  by_contra isLeft
  obtain ⟨z, between, zero⟩ := ((affine_orientation p q).mul_left (q.y - p.y)).exists_zero
    (not_lt.mp isLeft) isRight.le
  have flat := (mul_eq_zero.mp zero).resolve_left (sub_ne_zero.mpr rise)
  have height : Affine fun z : Position K => (z.y - p.y) * (q.y - p.y) :=
    ⟨0, q.y - p.y, -p.y * (q.y - p.y), fun z => by ring⟩
  exact clear z (hy.trans hx between) (ahead_of_flat rise flat (height.le_of_on between sy sx))

/-- An edge that the ray does not meet passes the point on the right exactly when one of its ends
is right of the ray. -/
theorem rayCrosses_of_clear (clear : ∀ z, On z v w → ¬Ahead p q z) (rise : q.y ≠ p.y) :
    rayCrosses p v w = (right p q v != right p q w) := by
  have level (h : Position K) (here : h.y = p.y) :
      decide (p.x < h.x) = decide ((q.y - p.y) * orientation p q h < 0) := by
    have square : 0 < (q.y - p.y) * (q.y - p.y) := mul_self_pos.mpr (sub_ne_zero.mpr rise)
    have value : (q.y - p.y) * orientation p q h =
        -((q.y - p.y) * (q.y - p.y) * (h.x - p.x)) := by
      rw [orientation, here]
      ring
    rw [decide_eq_decide, value, neg_lt_zero, mul_pos_iff_of_pos_left square, sub_pos]
  have steady {x y : Position K} (hx : On x v w) (hy : On y v w)
      (sx : 0 ≤ (x.y - p.y) * (q.y - p.y)) (sy : 0 ≤ (y.y - p.y) * (q.y - p.y)) :
      decide ((q.y - p.y) * orientation p q x < 0) =
        decide ((q.y - p.y) * orientation p q y < 0) :=
    decide_eq_decide.mpr ⟨right_iff_of_clear clear rise hx hy sx sy,
      right_iff_of_clear clear rise hy hx sy sx⟩
  have sides : (decide (p.y < v.y) != decide (p.y < w.y)) = (toward p q v != toward p q w) := by
    rw [toward, toward]
    cases decide (p.y < v.y) <;> cases decide (p.y < w.y) <;> cases decide (p.y < q.y) <;> rfl
  cases tv : toward p q v <;> cases tw : toward p q w <;>
    rw [tv, tw] at sides <;> simp only [right, tv, tw, Bool.false_and, Bool.true_and]
  · rw [rayCrosses, sides]
    rfl
  · obtain ⟨h, on, here, crosses⟩ := exists_level sides
    rw [crosses, level h here, steady on (On.right v w) (by simp [here]) (side_of_toward tw)]
    simp
  · obtain ⟨h, on, here, crosses⟩ := exists_level sides
    rw [crosses, level h here, steady on (On.left v w) (by simp [here]) (side_of_toward tv)]
    simp
  · rw [rayCrosses, sides, steady (On.left v w) (On.right v w) (side_of_toward tv)
      (side_of_toward tw)]
    simp

/-- Each ray from a point that an odd number of edges passes on the right meets an edge. -/
theorem exists_edge_ahead
    (odd : (cyclicPairs vertices).countP (fun e => rayCrosses p e.2 e.1) % 2 = 1)
    (apart : p.sameXY q = false) : ∃ e ∈ cyclicPairs vertices, ∃ x, On x e.1 e.2 ∧ Ahead p q x := by
  by_cases level : q.y = p.y
  · have differ : q.x ≠ p.x := by
      intro same
      rw [Position.sameXY_iff.mpr ⟨same.symm, level.symm⟩] at apart
      contradiction
    have reach {h : Position K} (here : h.y = p.y) (side : 0 ≤ (h.x - p.x) / (q.x - p.x)) :
        Ahead p q h :=
      ⟨_, side, by rw [div_mul_cancel₀ _ (sub_ne_zero.mpr differ)]; ring, by rw [here, level]; ring⟩
    rcases differ.lt_or_gt with leftward | rightward
    · -- of the edges that pass at this height, an even number, one passes on the left
      obtain ⟨e, mem, straddle, passes⟩ : ∃ e ∈ cyclicPairs vertices,
          (decide (p.y < e.1.y) != decide (p.y < e.2.y)) = true ∧ rayCrosses p e.2 e.1 = false := by
        by_contra uncrossed
        push Not at uncrossed
        have all := countP_cyclicPairs_even (fun z => decide (p.y < z.y)) vertices
        rw [List.countP_congr (q := fun e => rayCrosses p e.2 e.1) fun e mem =>
          ⟨fun straddle => by simpa using uncrossed e mem straddle, fun crosses => by
            simpa only [bne_comm] using straddle_of_rayCrosses crosses⟩] at all
        omega
      obtain ⟨h, on, here, crosses⟩ := exists_level (p := p) (v := e.2) (w := e.1)
        (by rwa [bne_comm])
      rw [passes, eq_comm, decide_eq_false_iff_not, not_lt] at crosses
      exact ⟨e, mem, h, on.symm,
        reach here (div_nonneg_of_nonpos (by linarith) (by linarith))⟩
    · obtain ⟨e, mem, passes⟩ : ∃ e ∈ cyclicPairs vertices, rayCrosses p e.2 e.1 = true := by
        apply List.countP_pos_iff.mp
        omega
      obtain ⟨h, on, here, crosses⟩ := exists_level (straddle_of_rayCrosses passes)
      rw [passes, eq_comm, decide_eq_true_eq] at crosses
      exact ⟨e, mem, h, on.symm, reach here (div_nonneg (by linarith) (by linarith))⟩
  · by_contra clear
    push Not at clear
    have even := countP_cyclicPairs_even (right p q) vertices
    rw [List.countP_congr (q := fun e => rayCrosses p e.2 e.1) fun e mem => by
      rw [rayCrosses_of_clear (fun z on => clear e mem z on.symm) level, bne_comm]] at even
    omega

/-- A point that is not outside is near an edge, or an odd number of edges pass it on the right. -/
theorem edge_or_odd_of_side {ring : Path K} (reached : ring.side p ≠ .outside) :
    (∃ e ∈ cyclicPairs ring.opened, Segment.hasPoint p e.2 e.1 = true) ∨
      (cyclicPairs ring.opened).countP (fun e => rayCrosses p e.2 e.1) % 2 = 1 := by
  unfold side at reached
  simp only at reached
  split at reached
  · contradiction
  · split at reached
    · rename_i on
      exact .inl (List.any_eq_true.mp on)
    · split at reached
      · rename_i odd
        exact .inr odd
      · contradiction

end Geospatial.Path
