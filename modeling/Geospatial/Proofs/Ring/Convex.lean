import Mathlib.Data.Finset.Max
import Geospatial.Proofs.Hull.Ring
import Geospatial.Proofs.Ring.Ray
import Geospatial.Proofs.Segment.Meeting

/-! Convex rings, run either way round, in exact arithmetic. What is on the inner side of every edge
is in the ring or on its boundary, and what leaves the inner side leaves it through an edge. -/
namespace Geospatial

namespace Path

open Segment

variable {K : Type} [Exact K] {turn : K} {vertices ring : Path K} {p q u v w z : Position K}
  {e : Position K × Position K}

/-- A ring of different vertices that turns one way at each of them, and has them all on that side
of each edge: left turns for a positive `turn`, right turns for a negative one. -/
structure Convex (turn : K) (vertices : Path K) : Prop where
  many : 3 ≤ vertices.length
  apart : vertices.Pairwise fun v w => v.sameXY w = false
  turns : ∀ a b c, [a, b, c] <:+: vertices ++ vertices.take 2 → 0 < turn * orientation a b c
  round : ∀ e ∈ cyclicPairs vertices, ∀ v ∈ vertices, 0 ≤ turn * orientation e.1 e.2 v

theorem countP_eq_one {α : Type} {l : List α} {c : α → Bool}
    (single : l.Pairwise fun a b => ¬(c a = true ∧ c b = true)) (marked : ∃ a ∈ l, c a = true) :
    l.countP c = 1 := by
  induction l with
  | nil => simp at marked
  | cons a l ih =>
    obtain ⟨alone, rest⟩ := List.pairwise_cons.mp single
    rw [List.countP_cons]
    cases here : c a with
    | true =>
      have unmarked : l.countP c = 0 := List.countP_eq_zero.mpr fun b mem there =>
        alone b mem ⟨here, there⟩
      simp [unmarked]
    | false =>
      have later : ∃ b ∈ l, c b = true := by simpa [here] using marked
      simp [ih rest later]

/-- On the inner side of every edge, or on its line. -/
def Within (turn : K) (vertices : Path K) (p : Position K) : Prop :=
  ∀ e ∈ cyclicPairs vertices, 0 ≤ turn * orientation e.1 e.2 p

theorem Within.of_on (hv : Within turn vertices v) (hw : Within turn vertices w) (on : On z v w) :
    Within turn vertices z := fun e mem =>
  ((affine_orientation e.1 e.2).mul_left turn).le_of_on on (hv e mem) (hw e mem)

theorem rayCrosses_comm (p u v : Position K) : rayCrosses p u v = rayCrosses p v u := by
  rw [rayCrosses, rayCrosses, bne_comm]
  by_cases straddle : (decide (p.y < v.y) != decide (p.y < u.y)) = true
  · have rise : v.y - u.y ≠ 0 := by
      intro level
      rw [sub_eq_zero.mp level, bne_self_eq_false] at straddle
      contradiction
    have fall : u.y - v.y ≠ 0 := by rwa [← neg_sub, neg_ne_zero]
    have meet : (v.x - u.x) * (p.y - u.y) / (v.y - u.y) + u.x =
        (u.x - v.x) * (p.y - v.y) / (u.y - v.y) + v.x := by
      field_simp
      ring
    rw [meet]
  · rw [Bool.not_eq_true] at straddle
    rw [straddle, Bool.false_and, Bool.false_and]

theorem left_of_clockwise (negative : turn < 0) (h : 0 < turn * orientation u v p) :
    0 < orientation v u p := by
  rw [orientation_reverse]
  exact neg_pos.mpr (neg_of_mul_pos_right h negative.le)

/-- Of the edges with the point on their left, the ray to the right crosses those that rise past
it. -/
theorem rayCrosses_iff_rises (left : 0 < orientation u v p) :
    rayCrosses p v u = true ↔ u.y ≤ p.y ∧ p.y < v.y := by
  have side {h : Position K} (on : On h v u) (here : h.y = p.y) :
      orientation u v p = (v.y - u.y) * (h.x - p.x) := by
    have flat : orientation u v h = 0 := by
      have low := (affine_orientation u v).le_of_on (m := 0) on (by simp) (by simp)
      have high := (affine_orientation u v).ge_of_on (m := 0) on (by simp) (by simp)
      exact le_antisymm high low
    rw [orientation, here] at flat
    rw [orientation]
    linear_combination flat
  constructor
  · intro crosses
    have straddle := straddle_of_rayCrosses crosses
    obtain ⟨h, on, here, passes⟩ := exists_level straddle
    rw [crosses, eq_comm, decide_eq_true_eq] at passes
    rw [side on here] at left
    have rise : 0 < v.y - u.y := (mul_pos_iff_of_pos_right (by linarith)).mp left
    by_cases above : p.y < v.y
    · exact ⟨by simpa [above] using straddle, above⟩
    · have higher : p.y < u.y := by simpa [above] using straddle
      linarith
  · rintro ⟨low, high⟩
    obtain ⟨h, on, here, passes⟩ := exists_level (p := p) (v := v) (w := u)
      (by simp [high, not_lt.mpr low])
    rw [side on here] at left
    rw [passes, decide_eq_true_eq]
    linarith [(mul_pos_iff_of_pos_left (by linarith)).mp left]

/-- Two edges that rise past one height, each with the other one on its left, start together. -/
theorem same_of_rising {u' v' : Position K} {y : K} (low : u.y ≤ y) (high : y < v.y)
    (low' : u'.y ≤ y) (high' : y < v'.y) (hu : 0 ≤ orientation u' v' u)
    (hv : 0 ≤ orientation u' v' v) (hu' : 0 ≤ orientation u v u') (hv' : 0 ≤ orientation u v v')
    (start : orientation u v u' = 0 → u.y ≤ u'.y) (start' : orientation u' v' u = 0 → u'.y ≤ u.y) :
    u.sameXY u' = true := by
  -- where each edge is at the height
  obtain ⟨t, first, t_lt, level⟩ : ∃ t, 0 ≤ t ∧ t < 1 ∧ y = u.y + t * (v.y - u.y) :=
    ⟨(y - u.y) / (v.y - u.y), div_nonneg (by linarith) (by linarith),
      (div_lt_one (by linarith)).mpr (by linarith), by
        rw [div_mul_cancel₀ _ (by linarith : v.y - u.y ≠ 0)]
        ring⟩
  obtain ⟨s, first', s_lt, level'⟩ : ∃ s, 0 ≤ s ∧ s < 1 ∧ y = u'.y + s * (v'.y - u'.y) :=
    ⟨(y - u'.y) / (v'.y - u'.y), div_nonneg (by linarith) (by linarith),
      (div_lt_one (by linarith)).mpr (by linarith), by
        rw [div_mul_cancel₀ _ (by linarith : v'.y - u'.y ≠ 0)]
        ring⟩
  let gap := u.x + t * (v.x - u.x) - (u'.x + s * (v'.x - u'.x))
  have ahead : (v.y - u.y) * gap = (1 - s) * orientation u v u' + s * orientation u v v' := by
    unfold orientation
    linear_combination (v.x - u.x) * level' - (v.x - u.x) * level
  have behind : (v'.y - u'.y) * -gap = (1 - t) * orientation u' v' u + t * orientation u' v' v := by
    unfold orientation
    linear_combination (v'.x - u'.x) * level - (v'.x - u'.x) * level'
  have forward : 0 ≤ (v.y - u.y) * gap := by
    rw [ahead]
    exact add_nonneg (mul_nonneg (by linarith) hu') (mul_nonneg first' hv')
  have backward : 0 ≤ (v'.y - u'.y) * -gap := by
    rw [behind]
    exact add_nonneg (mul_nonneg (by linarith) hu) (mul_nonneg first hv)
  have met : gap = 0 := le_antisymm
    (neg_nonneg.mp (nonneg_of_mul_nonneg_right backward (by linarith)))
    (nonneg_of_mul_nonneg_right forward (by linarith))
  rw [met, mul_zero, eq_comm, add_eq_zero_iff_of_nonneg (mul_nonneg (by linarith) hu')
    (mul_nonneg first' hv')] at ahead
  rw [met, neg_zero, mul_zero, eq_comm, add_eq_zero_iff_of_nonneg (mul_nonneg (by linarith) hu)
    (mul_nonneg first hv)] at behind
  have flat := (mul_eq_zero.mp ahead.1).resolve_left (by linarith)
  have flat' := (mul_eq_zero.mp behind.1).resolve_left (by linarith)
  have height : u.y = u'.y := le_antisymm (start flat) (start' flat')
  rw [orientation, height, sub_self, mul_zero, zero_sub, neg_eq_zero] at flat
  have place := (mul_eq_zero.mp flat).resolve_left (by linarith)
  exact Position.sameXY_iff.mpr ⟨(sub_eq_zero.mp place).symm, height⟩

/-- The sides of two edges that meet in a vertex tell how far above or below it a point is. -/
theorem height_mul_turn (u v w p : Position K) : (p.y - v.y) * orientation u v w =
    (w.y - v.y) * orientation u v p - (v.y - u.y) * orientation v w p := by
  unfold orientation
  ring

theorem convex_triangle (left : 0 < turn * orientation u v w) : Convex turn [u, v, w] := by
  have flat {a b c : Position K} (h : a.sameXY b = true) :
      orientation a b c = 0 ∧ orientation b c a = 0 := by
    obtain ⟨hx, hy⟩ := Position.sameXY_iff.mp h
    rw [← orientation_rotate a b c, orientation, hx, hy]
    exact ⟨by ring, by ring⟩
  have next : 0 < turn * orientation v w u := by rwa [← orientation_rotate]
  have last : 0 < turn * orientation w u v := by rwa [← orientation_rotate v w u]
  constructor
  · exact le_rfl
  · simp only [List.pairwise_cons, List.mem_cons, List.not_mem_nil, or_false, forall_eq_or_imp,
      forall_eq, IsEmpty.forall_iff, implies_true, List.Pairwise.nil, and_true,
      ← Bool.not_eq_true]
    refine ⟨⟨fun same => ?_, fun same => ?_⟩, fun same => ?_⟩
    · rw [(flat same).1, mul_zero] at left
      exact left.false
    · rw [Position.sameXY_comm] at same
      rw [(flat same).1, mul_zero] at last
      exact last.false
    · rw [(flat same).1, mul_zero] at next
      exact next.false
  · intro a b c row
    simp only [List.cons_append, List.nil_append, List.take_succ_cons, List.take_zero,
      List.infix_cons_iff, List.cons_prefix_cons, List.infix_nil, List.prefix_nil,
      List.cons_ne_nil, and_false, or_false, List.nil_prefix, and_true] at row
    rcases row with ⟨rfl, rfl, rfl⟩ | ⟨rfl, rfl, rfl⟩ | ⟨rfl, rfl, rfl⟩
    · exact left
    · exact next
    · exact last
  · intro e mem x hx
    simp only [cyclicPairs, List.tail_cons, List.head?_cons, Option.toList_some, List.cons_append,
      List.nil_append, List.zip_cons_cons, List.zip_nil_left, List.mem_cons, List.not_mem_nil,
      or_false] at mem hx
    rcases mem with rfl | rfl | rfl <;> rcases hx with rfl | rfl | rfl <;>
      simp [left.le, next.le, last.le]

namespace Convex

variable (shape : Convex turn vertices)
include shape

theorem turn_ne_zero : turn ≠ 0 := by
  rintro rfl
  match vertices, shape with
  | a :: b :: c :: rest, shape =>
    have turns := shape.turns a b c ⟨[], rest ++ [a, b], rfl⟩
    rw [zero_mul] at turns
    exact turns.false
  | [], ⟨many, _, _, _⟩ => simp at many
  | [_], ⟨many, _, _, _⟩ => simp at many
  | [_, _], ⟨many, _, _, _⟩ => simp at many

theorem within_of_mem (mem : v ∈ vertices) : Within turn vertices v :=
  fun e edge => shape.round e edge v mem

/-- The next turns keep what is on the line of an edge, and on the inner sides, between its ends. -/
theorem on_of_within (inside : Within turn vertices p) (mem : e ∈ cyclicPairs vertices)
    (flat : orientation e.1 e.2 p = 0) : On p e.1 e.2 := by
  obtain ⟨a, c, before, after, first, second⟩ := exists_neighbors shape.many mem
  have left := shape.turns _ _ _ first
  have right := shape.turns _ _ _ second
  have apart : e.1.sameXY e.2 = false := by
    rw [← Bool.not_eq_true]
    intro same
    rw [← (affine_orientation a e.1).congr same, orientation_right, mul_zero] at left
    exact left.false
  obtain ⟨t, hx, hy⟩ := exists_share apart flat
  have start := inside _ before
  have stop := inside _ after
  rw [(affine_orientation _ _).eq_of_share hx hy] at start stop
  simp only [orientation_right, orientation_back, mul_zero, zero_add, add_zero] at start stop
  rw [← orientation_rotate, mul_left_comm] at stop
  rw [mul_left_comm] at start
  exact ⟨t, nonneg_of_mul_nonneg_left start left, by
    linarith [nonneg_of_mul_nonneg_left stop right], hx, hy⟩

/-- A point on the inner sides that is on no edge is strictly on the inner side of all. -/
theorem strictly_of_within (inside : Within turn vertices p)
    (off : ∀ e ∈ cyclicPairs vertices, ¬On p e.1 e.2) (mem : e ∈ cyclicPairs vertices) :
    0 < turn * orientation e.1 e.2 p := by
  refine (inside e mem).lt_of_ne' fun zero => off e mem (shape.on_of_within inside mem ?_)
  exact (mul_eq_zero.mp zero).resolve_left shape.turn_ne_zero

/-- A vertex that is extreme in height is beyond what is strictly inside. -/
theorem beyond_of_extreme (strict : ∀ e ∈ cyclicPairs vertices, 0 < turn * orientation e.1 e.2 p)
    {s : K} (mem : v ∈ vertices) (extreme : ∀ w ∈ vertices, 0 ≤ s * (v.y - w.y)) (hs : s ≠ 0) :
    0 < s * (v.y - p.y) := by
  obtain ⟨w, edge⟩ := exists_mem_cyclicPairs mem
  obtain ⟨u, _, before, _, first, _⟩ := exists_neighbors shape.many edge
  have corner := shape.turns _ _ _ first
  have onto := strict _ before
  have away := strict _ edge
  simp only at corner onto away before
  have fall := extreme w (mem_of_mem_cyclicPairs edge).2
  have rise := extreme u (mem_of_mem_cyclicPairs before).1
  have level := height_mul_turn u v w p
  have value : s * (v.y - p.y) * (turn * orientation u v w) =
      s * (v.y - w.y) * (turn * orientation u v p) +
        s * (v.y - u.y) * (turn * orientation v w p) := by
    linear_combination -s * turn * level
  refine (mul_pos_iff_of_pos_right corner).mp ?_
  rw [value]
  refine (add_nonneg (mul_nonneg fall onto.le) (mul_nonneg rise away.le)).lt_of_ne' fun zero => ?_
  -- both neighbors at the height of the vertex would make its turn flat
  obtain ⟨zero, zero'⟩ := (add_eq_zero_iff_of_nonneg (mul_nonneg fall onto.le)
    (mul_nonneg rise away.le)).mp zero
  have hw := (mul_eq_zero.mp ((mul_eq_zero.mp zero).resolve_right onto.ne')).resolve_left hs
  have hu := (mul_eq_zero.mp ((mul_eq_zero.mp zero').resolve_right away.ne')).resolve_left hs
  rw [orientation] at corner
  have flat : turn * ((v.x - u.x) * (w.y - u.y) - (v.y - u.y) * (w.x - u.x)) = 0 := by
    linear_combination turn * (v.x - u.x) * hu - turn * (v.x - u.x) * hw - turn * (w.x - u.x) * hu
  exact corner.ne' flat

theorem pairwise_edges : (cyclicPairs vertices).Pairwise
    fun d e => d.1.sameXY e.1 = false ∧ d.2.sameXY e.2 = false := by
  have lengths : vertices.length = (vertices.tail ++ vertices.head?.toList).length := by
    have many := shape.many
    match vertices with
    | a :: rest => simp
  have symmetric {v w : Position K} (apart : v.sameXY w = false) : w.sameXY v = false := by
    rwa [Position.sameXY_comm]
  have rotated : (vertices.tail ++ vertices.head?.toList).Pairwise
      fun v w => v.sameXY w = false := by
    have many := shape.many
    match vertices, shape with
    | a :: rest, shape =>
      exact ((List.perm_append_singleton a rest).pairwise_iff symmetric).mpr shape.apart
  have starts := shape.apart
  rw [← List.map_fst_zip lengths.le, List.pairwise_map] at starts
  rw [← List.map_snd_zip lengths.ge, List.pairwise_map] at rotated
  exact starts.and rotated

/-- Two edges that the ray from such a point crosses have a common end, so they are one edge. -/
theorem not_both_crossed (strict : ∀ e ∈ cyclicPairs vertices, 0 < turn * orientation e.1 e.2 p)
    {d : Position K × Position K} (hd : d ∈ cyclicPairs vertices) (he : e ∈ cyclicPairs vertices)
    (apart : d.1.sameXY e.1 = false ∧ d.2.sameXY e.2 = false) :
    ¬(rayCrosses p d.2 d.1 = true ∧ rayCrosses p e.2 e.1 = true) := by
  rintro ⟨crossesD, crossesE⟩
  obtain ⟨d₁, d₂⟩ := mem_of_mem_cyclicPairs hd
  obtain ⟨e₁, e₂⟩ := mem_of_mem_cyclicPairs he
  have leftD := strict d hd
  have leftE := strict e he
  have between {c : Position K × Position K} {v : Position K} (hc : c ∈ cyclicPairs vertices)
      (mem : v ∈ vertices) (flat : orientation c.1 c.2 v = 0) : On v c.1 c.2 :=
    shape.on_of_within (shape.within_of_mem mem) hc flat
  rcases lt_or_gt_of_ne shape.turn_ne_zero with negative | positive
  · -- clockwise, the edges rise from their second end
    have side {c : Position K × Position K} {v : Position K} (hc : c ∈ cyclicPairs vertices)
        (mem : v ∈ vertices) : 0 ≤ orientation c.2 c.1 v := by
      rw [orientation_reverse]
      exact neg_nonneg.mpr (nonpos_of_mul_nonneg_right (shape.round c hc v mem) negative)
    rw [rayCrosses_comm, rayCrosses_iff_rises (left_of_clockwise negative leftD)] at crossesD
    rw [rayCrosses_comm, rayCrosses_iff_rises (left_of_clockwise negative leftE)] at crossesE
    have same := same_of_rising crossesD.1 crossesD.2 crossesE.1 crossesE.2 (side he d₂)
      (side he d₁) (side hd e₂) (side hd e₁)
      (fun flat => affine_y.le_of_on (between hd e₂ (by simpa [orientation_reverse d.1] using flat))
        (by linarith) le_rfl)
      (fun flat => affine_y.le_of_on (between he d₂ (by simpa [orientation_reverse e.1] using flat))
        (by linarith) le_rfl)
    rw [same] at apart
    exact absurd apart.2 (by simp)
  · have side {c : Position K × Position K} {v : Position K} (hc : c ∈ cyclicPairs vertices)
        (mem : v ∈ vertices) : 0 ≤ orientation c.1 c.2 v :=
      nonneg_of_mul_nonneg_right (shape.round c hc v mem) positive
    rw [rayCrosses_iff_rises ((mul_pos_iff_of_pos_left positive).mp leftD)] at crossesD
    rw [rayCrosses_iff_rises ((mul_pos_iff_of_pos_left positive).mp leftE)] at crossesE
    have same := same_of_rising crossesD.1 crossesD.2 crossesE.1 crossesE.2 (side he d₁)
      (side he d₂) (side hd e₁) (side hd e₂)
      (fun flat => affine_y.le_of_on (between hd e₁ flat) le_rfl (by linarith))
      (fun flat => affine_y.le_of_on (between he d₁ flat) le_rfl (by linarith))
    rw [same] at apart
    exact absurd apart.1 (by simp)

/-- The ray from a point strictly on the inner side of all edges crosses exactly one of them. -/
theorem countP_crossings
    (strict : ∀ e ∈ cyclicPairs vertices, 0 < turn * orientation e.1 e.2 p) :
    (cyclicPairs vertices).countP (fun e => rayCrosses p e.2 e.1) = 1 := by
  refine countP_eq_one (shape.pairwise_edges.imp_of_mem (shape.not_both_crossed strict)) ?_
  have filled : (vertices : Multiset (Position K)) ≠ 0 := by
    have many := shape.many
    rw [ne_eq, Multiset.coe_eq_zero]
    rintro rfl
    simp at many
  obtain ⟨top, hTop, highest⟩ := Multiset.exists_max_image (·.y) filled
  obtain ⟨bottom, hBottom, lowest⟩ := Multiset.exists_min_image (·.y) filled
  have above := shape.beyond_of_extreme strict (s := 1) hTop
    (fun w mem => by linarith [highest w mem]) one_ne_zero
  have below := shape.beyond_of_extreme strict (s := -1) hBottom
    (fun w mem => by linarith [lowest w mem]) (neg_ne_zero.mpr one_ne_zero)
  have higher : p.y < top.y := by linarith
  have under : ¬p.y < bottom.y := by linarith
  rcases lt_or_gt_of_ne shape.turn_ne_zero with negative | positive
  · obtain ⟨e, mem, first, second⟩ := exists_entering (fun z => !decide (p.y < z.y)) hTop
      (by simp [higher]) hBottom (by simpa using under)
    simp only [Bool.not_eq_false', Bool.not_eq_true', decide_eq_true_eq, decide_eq_false_iff_not,
      not_lt] at first second
    refine ⟨e, mem, ?_⟩
    rw [rayCrosses_comm]
    exact (rayCrosses_iff_rises (left_of_clockwise negative (strict e mem))).mpr ⟨second, first⟩
  · obtain ⟨e, mem, first, second⟩ := exists_entering (fun z => decide (p.y < z.y)) hBottom
      (by simpa using under) hTop (by simpa using higher)
    simp only [decide_eq_true_eq, decide_eq_false_iff_not, not_lt] at first second
    exact ⟨e, mem, (rayCrosses_iff_rises ((mul_pos_iff_of_pos_left positive).mp
      (strict e mem))).mpr ⟨first, second⟩⟩

/-- On the way out of a convex ring, the last place on the inner side of all edges is on an edge
that has the end of the way on its outer side. -/
theorem exists_exit (inside : Within turn vertices w) (outside : ¬Within turn vertices z) :
    ∃ e ∈ cyclicPairs vertices, turn * orientation e.1 e.2 z < 0 ∧
      ∃ x, On x w z ∧ On x e.1 e.2 := by
  let depth (e : Position K × Position K) (y : Position K) : K := turn * orientation e.1 e.2 y
  let share (e : Position K × Position K) : K := depth e w / (depth e w - depth e z)
  have affine (e : Position K × Position K) : Affine (depth e) :=
    (affine_orientation e.1 e.2).mul_left turn
  obtain ⟨d, hd, out⟩ : ∃ d ∈ cyclicPairs vertices, depth d z < 0 := by
    simpa [Within, depth] using outside
  have filled : (((cyclicPairs vertices).filter fun e => depth e z < 0 : List _) :
      Multiset (Position K × Position K)) ≠ 0 := by
    rw [ne_eq, Multiset.coe_eq_zero, ← List.isEmpty_iff, Bool.not_eq_true,
      List.isEmpty_eq_false_iff]
    exact List.ne_nil_of_mem (List.mem_filter.mpr ⟨hd, decide_eq_true out⟩)
  obtain ⟨e, mem, least⟩ := Multiset.exists_min_image share filled
  simp only [Multiset.mem_coe, List.mem_filter, decide_eq_true_eq] at mem least
  obtain ⟨mem, beyond⟩ := mem
  have fall {f : Position K × Position K} (hf : f ∈ cyclicPairs vertices) (h : depth f z < 0) :
      0 < depth f w - depth f z := by linarith [inside f hf]
  have scaled {f : Position K × Position K} (hf : f ∈ cyclicPairs vertices) (h : depth f z < 0) :
      share f * (depth f w - depth f z) = depth f w := div_mul_cancel₀ _ (fall hf h).ne'
  have low : 0 ≤ share e := div_nonneg (inside e mem) (fall mem beyond).le
  have high : share e ≤ 1 := (div_le_one (fall mem beyond)).mpr (by linarith)
  let x : Position K := ⟨w.x + share e * (z.x - w.x), w.y + share e * (z.y - w.y), none⟩
  have on : On x w z := ⟨share e, low, high, rfl, rfl⟩
  have value (f : Position K × Position K) :
      depth f x = depth f w - share e * (depth f w - depth f z) := by
    rw [(affine f).eq_of_share (c := w) (d := z) rfl rfl]
    ring
  have kept : Within turn vertices x := by
    intro f hf
    by_cases h : depth f z < 0
    · have later := mul_le_mul_of_nonneg_right (least f ⟨hf, h⟩) (fall hf h).le
      rw [scaled hf h] at later
      have := value f
      change 0 ≤ depth f x
      linarith
    · exact (affine f).le_of_on on (inside f hf) (not_lt.mp h)
  refine ⟨e, mem, beyond, x, on, shape.on_of_within kept mem ?_⟩
  have flat := value e
  rw [scaled mem beyond, sub_self] at flat
  exact (mul_eq_zero.mp flat).resolve_left shape.turn_ne_zero

end Convex

section

variable {K : Type} [Euclidean K] {turn : K} {ring : Path K} {p : Position K}

theorem side_eq_boundary (many : 3 ≤ ring.opened.length) : ring.side p = .boundary ↔
    ∃ e ∈ cyclicPairs ring.opened, Segment.hasPoint p e.1 e.2 = true := by
  have edges : ((cyclicPairs ring.opened).any fun e => Segment.hasPoint p e.2 e.1) = true ↔
      ∃ e ∈ cyclicPairs ring.opened, Segment.hasPoint p e.1 e.2 = true := by
    simp only [List.any_eq_true, hasPoint_comm p]
  rw [← edges]
  simp only [side, not_lt.mpr many, if_false]
  split
  · simp [*]
  · split <;> simp [*]

theorem side_of_on {e : Position K × Position K} (many : 3 ≤ ring.opened.length)
    (mem : e ∈ cyclicPairs ring.opened) (on : On p e.1 e.2) : ring.side p = .boundary :=
  (side_eq_boundary many).mpr ⟨e, mem, hasPoint_of_on on⟩

/-- What is on the inner side of every edge of a convex ring is not outside of the ring. -/
theorem Convex.side_ne_outside (shape : Convex turn ring.opened) (inside : Within turn ring.opened p) :
    ring.side p ≠ .outside := by
  have many : ¬ring.opened.length < 3 := not_lt.mpr shape.many
  by_cases off : ∀ e ∈ cyclicPairs ring.opened, ¬On p e.1 e.2
  · have once := shape.countP_crossings fun e mem => shape.strictly_of_within inside off mem
    simp only [side, many, if_false, once]
    split <;> simp
  · push Not at off
    obtain ⟨e, mem, on⟩ := off
    rw [side_of_on shape.many mem on]
    nofun

/-- A point outside of a convex ring is strictly on the outer side of some edge. -/
theorem Convex.beyond_of_side (shape : Convex turn ring.opened)
    (outside : ring.side p = .outside) :
    ∃ e ∈ cyclicPairs ring.opened, turn * orientation e.1 e.2 p < 0 := by
  by_contra unparted
  push Not at unparted
  exact shape.side_ne_outside unparted outside

end

end Path
end Geospatial
