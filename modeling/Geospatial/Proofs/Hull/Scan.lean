import Mathlib.Data.List.Induction
import Geospatial.Proofs.Hull.Sites

/-! The scan keeps a chain of strict left turns round the points that it has met. A point met
before is left of each edge of the chain; when vertices are dropped, the triangles at the vertex
that is left say on which side of the new edge it is. -/
namespace Geospatial.Hull

open Segment

variable {K : Type} [Exact K] {pivot p q v : Position K} {chain : Path K}

/-- A reversed chain of left turns from the pivot, through points at increasing angles. -/
inductive LeftChain (pivot : Position K) : Path K → Prop
  | start : LeftChain pivot [pivot]
  | first {a : Position K} (above : Above pivot a) : LeftChain pivot [a, pivot]
  | turn {c b a : Position K} {rest : Path K} (below : LeftChain pivot (b :: a :: rest))
      (above : Above pivot c) (left : 0 < orientation a b c) (later : 0 < orientation pivot b c) :
      LeftChain pivot (c :: b :: a :: rest)

/-- The point is left of every edge of the reversed chain, or on it; on the line of the first
edge it is no further than that edge goes. -/
inductive Covers (pivot q : Position K) : Path K → Prop
  | left {a : Position K} (turn : 0 < orientation pivot a q) : Covers pivot q [a, pivot]
  | between {a : Position K} (near : Nearer pivot q a) : Covers pivot q [a, pivot]
  | edge {c b a : Position K} {rest : Path K} (below : Covers pivot q (b :: a :: rest))
      (side : 0 ≤ orientation b c q) : Covers pivot q (c :: b :: a :: rest)

namespace LeftChain

theorem above_head {a b : Position K} {rest : Path K} (h : LeftChain pivot (b :: a :: rest)) :
    Above pivot b := by
  cases h with
  | first above => exact above
  | turn _ above => exact above

/-- All vertices but the pivot are at a smaller angle than the last one. -/
theorem smaller {c : Position K} {rest : Path K} (h : LeftChain pivot (c :: rest)) :
    ∀ v ∈ rest, v = pivot ∨ Above pivot v ∧ 0 < orientation pivot v c := by
  induction rest generalizing c with
  | nil => exact nofun
  | cons b rest ih =>
    cases h with
    | first => simp
    | turn below above _ later =>
      intro v hv
      rcases List.mem_cons.mp hv with rfl | hv
      · exact .inr ⟨below.above_head, later⟩
      · rcases ih below v hv with same | ⟨high, earlier⟩
        · exact .inl same
        · exact .inr ⟨high, orientation_pos_trans high below.above_head above earlier later.le⟩

end LeftChain

theorem retreat_suffix (p : Position K) (chain : Path K) : retreat p chain <:+ chain := by
  fun_induction retreat p chain with
  | case1 b a rest _ ih => exact ih.trans (List.suffix_cons b (a :: rest))
  | case2 => exact List.suffix_rfl
  | case3 => exact List.suffix_rfl

section

variable {a b c : Position K}

/-- What is left of an edge at larger angles is left of the edge before it. -/
theorem left_of_lower (next : 0 < orientation pivot b c) (earlier : 0 < orientation pivot a b)
    (turn : 0 < orientation a b c) (left : 0 < orientation b c p)
    (after : 0 ≤ orientation pivot b p) : 0 < orientation a b p := by
  have exchange : orientation pivot b c * orientation a b p =
      orientation b c p * orientation pivot a b + orientation a b c * orientation pivot b p := by
    unfold orientation
    ring
  refine (mul_pos_iff_of_pos_left next).mp ?_
  rw [exchange]
  exact add_pos_of_pos_of_nonneg (mul_pos left earlier) (mul_nonneg turn.le after)

/-- The edge that replaces a dropped vertex `c` has the points on its left that the chain had on
its left beyond the vertex `b`. -/
theorem side_of_dropped (next : 0 < orientation pivot b c) (right : orientation b c p ≤ 0)
    (after : 0 ≤ orientation pivot b p) (side : 0 ≤ orientation b c q)
    (beyond : 0 ≤ orientation pivot b q) : 0 ≤ orientation b p q := by
  have exchange : orientation pivot b c * orientation b p q =
      -orientation b c p * orientation pivot b q + orientation pivot b p * orientation b c q := by
    unfold orientation
    ring
  refine (mul_nonneg_iff_of_pos_left next).mp ?_
  rw [exchange]
  exact add_nonneg (mul_nonneg (neg_nonneg.mpr right) beyond) (mul_nonneg after side)

/-- A left turn at `c` has the points on its left that the chain had on its left up to `c`. -/
theorem side_of_turn (next : 0 < orientation pivot b c) (left : 0 ≤ orientation b c p)
    (after : 0 ≤ orientation pivot c p) (side : 0 ≤ orientation b c q)
    (before : 0 ≤ orientation pivot q c) : 0 ≤ orientation c p q := by
  have exchange : orientation pivot b c * orientation c p q =
      orientation b c p * orientation pivot q c + orientation pivot c p * orientation b c q := by
    unfold orientation
    ring
  refine (mul_nonneg_iff_of_pos_left next).mp ?_
  rw [exchange]
  exact add_nonneg (mul_nonneg left before) (mul_nonneg after side)

end

/-- A point that the chain turns left to is left of all its edges. -/
theorem covers_of_turn {c b : Position K} {rest : Path K}
    (turning : LeftChain pivot (c :: b :: rest)) (above : Above pivot p)
    (after : 0 ≤ orientation pivot c p) (left : 0 < orientation b c p) :
    Covers pivot p (c :: b :: rest) := by
  induction rest generalizing c b with
  | nil =>
    cases turning
    exact .left left
  | cons a rest ih =>
    obtain _ | _ | ⟨below, high, turn, next⟩ := turning
    have high' := below.above_head
    have further := orientation_pos_trans high' high above next after
    refine .edge (ih below further.le ?_) left.le
    cases below with
    | first => exact further
    | turn _ _ _ earlier => exact left_of_lower next earlier turn left further.le

section

variable (turning : LeftChain pivot chain) (above : Above pivot p)
  (later : ∀ v ∈ chain, Precedes pivot v p)
include turning above later

theorem leftChain_retreat : LeftChain pivot (p :: retreat p chain) := by
  induction turning with
  | start => exact .first above
  | @first a high =>
    rw [retreat]
    split
    · exact .first above
    · rename_i left
      exact .turn (.first high) above (not_le.mp left) (not_le.mp left)
  | @turn c b a rest below high left next ih =>
    rw [retreat]
    split
    · exact ih fun v hv => later v (List.mem_cons_of_mem c hv)
    · rename_i keep
      refine .turn (.turn below high left next) above (not_le.mp keep) ?_
      rcases later c List.mem_cons_self with turn | near
      · exact turn
      · -- past the vertex on its own ray the chain turns right
        obtain ⟨t, ht, far⟩ := near.orientation_far
        have wrong : orientation b c p ≤ 0 := by
          rw [orientation_rotate, orientation_rotate, far, orientation_swap, mul_neg, neg_nonpos]
          exact mul_nonneg ht (later b (by simp)).orientation_nonneg
        exact absurd wrong keep

/-- The new vertex is itself left of the edges that are kept. -/
theorem covers_retreat_self : Covers pivot p (p :: retreat p chain) := by
  induction turning with
  | start => exact .between (.refl pivot p)
  | @first a high =>
    rw [retreat]
    split
    · exact .between (.refl pivot p)
    · rename_i left
      exact .edge (.left (not_le.mp left)) (by simp)
  | @turn c b a rest below high left next ih =>
    rw [retreat]
    split
    · exact ih fun v hv => later v (List.mem_cons_of_mem c hv)
    · rename_i keep
      have after := (later c List.mem_cons_self).orientation_nonneg
      exact .edge (covers_of_turn (.turn below high left next) above after (not_le.mp keep))
        (by simp)

/-- A point that was met before stays left of the edges. -/
theorem covers_retreat (high : Above pivot q) (covers : Covers pivot q chain)
    (top : ∀ c ∈ chain.head?, 0 ≤ orientation pivot q c ∨ 0 ≤ orientation c p q) :
    Covers pivot q (p :: retreat p chain) := by
  induction turning with
  | start => cases covers
  | @first a aboveA =>
    have pa := later a (by simp)
    rw [retreat]
    split
    · rename_i right
      -- the vertex that is dropped and the new one are on one ray
      have near : Nearer pivot a p := pa.resolve_left (not_lt.mpr right)
      cases covers with
      | left turn =>
        refine .left (orientation_trans_pos above aboveA high ?_ turn)
        rw [orientation_swap, near.orientation_eq_zero, neg_zero]
      | between closer => exact .between (closer.trans near)
    · rename_i left
      have left := not_le.mp left
      refine .edge covers ?_
      rcases top a rfl with before | side
      · cases covers with
        | left turn =>
          rw [orientation_swap, neg_nonneg] at before
          exact absurd turn (not_lt.mpr before)
        | between closer =>
          obtain ⟨t, ht, far⟩ := closer.orientation_far
          rw [far]
          exact mul_nonneg ht left.le
      · exact side
  | @turn c b a rest below aboveC _ next ih =>
    have after {v : Position K} (hv : v ∈ c :: b :: a :: rest) : 0 ≤ orientation pivot v p :=
      (later v hv).orientation_nonneg
    cases covers with
    | edge covers side =>
      rw [retreat]
      split
      · rename_i right
        refine ih (fun v hv => later v (List.mem_cons_of_mem c hv)) covers fun d hd => ?_
        obtain rfl : b = d := Option.some.inj hd
        by_cases before : 0 ≤ orientation pivot q b
        · exact .inl before
        · rw [orientation_swap, neg_nonneg, not_le] at before
          exact .inr (side_of_dropped next right (after (by simp)) side before.le)
      · rename_i keep
        have left := not_le.mp keep
        refine .edge (.edge covers side) ?_
        rcases top c rfl with before | here
        · exact side_of_turn next left.le (after (by simp)) side before
        · exact here

end

/-- What the scan has reached: a chain of left turns round the points met so far, the last of
them at the largest angle. -/
structure Scanned (pivot : Position K) (met chain : Path K) : Prop where
  turning : LeftChain pivot chain
  covers : ∀ q ∈ met, Covers pivot q chain
  top : ∀ q ∈ met, ∀ c ∈ chain.head?, 0 ≤ orientation pivot q c
  members : ∀ v ∈ chain, v = pivot ∨ v ∈ met

theorem Scanned.step {met : Path K} (h : Scanned pivot met chain) (high : ∀ q ∈ met, Above pivot q)
    (above : Above pivot p) (later : ∀ q ∈ met, Precedes pivot q p) :
    Scanned pivot (met ++ [p]) (p :: retreat p chain) := by
  have laterInChain : ∀ v ∈ chain, Precedes pivot v p := by
    intro v hv
    rcases h.members v hv with rfl | hv
    · exact .inr (.self v p)
    · exact later v hv
  have met_cases {q : Position K} (hq : q ∈ met ++ [p]) : q ∈ met ∨ q = p := by simpa using hq
  constructor
  · exact leftChain_retreat h.turning above laterInChain
  · intro q hq
    rcases met_cases hq with hq | rfl
    · exact covers_retreat h.turning above laterInChain (high q hq) (h.covers q hq)
        fun c hc => .inl (h.top q hq c hc)
    · exact covers_retreat_self h.turning above laterInChain
  · rintro q hq c ⟨⟩
    rcases met_cases hq with hq | rfl
    · exact (later q hq).orientation_nonneg
    · exact (orientation_right pivot q).ge
  · intro v hv
    rcases List.mem_cons.mp hv with rfl | hv
    · simp
    · rcases h.members v ((retreat_suffix p chain).subset hv) with same | hv
      · exact .inl same
      · exact .inr (List.mem_append_left _ hv)

theorem scanned_scan {points : Path K} (high : ∀ q ∈ points, Above pivot q)
    (sorted : points.Pairwise (Precedes pivot)) : Scanned pivot points (scan pivot points) := by
  induction points using List.reverseRecOn with
  | nil => exact ⟨.start, nofun, nofun, by simp [scan]⟩
  | append_singleton points p ih =>
    obtain ⟨before, _, later⟩ := List.pairwise_append.mp sorted
    have highBefore : ∀ q ∈ points, Above pivot q := fun q hq =>
      high q (List.mem_append_left _ hq)
    rw [scan, List.foldl_append]
    exact (ih highBefore before).step highBefore (high p (by simp)) fun q hq =>
      later q hq p (by simp)

end Geospatial.Hull
