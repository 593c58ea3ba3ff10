import Geospatial.Proofs.Ring.Convex
import Geospatial.Proofs.Scalar.Real

/-! The side of a convex ring on which a point lies, against the half-planes of its edges, in exact
arithmetic. The point is in the ring only if it is strictly on the inner side of every edge, and
outside only if it is strictly on the outer side of one of them. -/
namespace Geospatial.Path

open Segment

section

variable {K : Type} [Exact K] {turn : K} {vertices : Path K} {p : Position K}

theorem Convex.within_of_mem_edge (shape : Convex turn vertices) {e : Position K × Position K}
    (mem : e ∈ cyclicPairs vertices) {z : Position K} (on : On z e.1 e.2) :
    Within turn vertices z :=
  (shape.within_of_mem (mem_of_mem_cyclicPairs mem).1).of_on
    (shape.within_of_mem (mem_of_mem_cyclicPairs mem).2) on

/-- A point that an odd number of edges pass on the right is on the inner side of them all: from
beyond an edge, the ray at right angles to it leads away from the whole ring. -/
theorem Convex.within_of_odd (shape : Convex turn vertices)
    (odd : (cyclicPairs vertices).countP (fun e => rayCrosses p e.2 e.1) % 2 = 1) :
    Within turn vertices p := by
  by_contra outside
  obtain ⟨e, mem, beyond⟩ : ∃ e ∈ cyclicPairs vertices, turn * orientation e.1 e.2 p < 0 := by
    simpa [Within] using outside
  let dx := turn * (e.2.y - e.1.y)
  let dy := -(turn * (e.2.x - e.1.x))
  let q : Position K := ⟨p.x + dx, p.y + dy, none⟩
  have apart : p.sameXY q = false := by
    rw [← Bool.not_eq_true, Position.sameXY_iff]
    rintro ⟨hx, hy⟩
    have level : dx = 0 := left_eq_add.mp hx
    have upright : dy = 0 := left_eq_add.mp hy
    have flat : turn * orientation e.1 e.2 p = 0 := by
      rw [orientation]
      linear_combination (e.1.x - p.x) * level + (e.1.y - p.y) * upright
    exact beyond.ne flat
  obtain ⟨f, hf, x, onF, s, ahead, hx, hy⟩ := exists_edge_ahead odd apart
  have inner := shape.within_of_mem_edge hf onF e mem
  have away : turn * orientation e.1 e.2 x =
      turn * orientation e.1 e.2 p - s * (dx * dx + dy * dy) := by
    simp only [q, dx, dy] at hx hy ⊢
    rw [orientation, orientation, hx, hy]
    ring
  have further : 0 ≤ s * (dx * dx + dy * dy) :=
    mul_nonneg ahead (add_nonneg (mul_self_nonneg dx) (mul_self_nonneg dy))
  linarith

end

variable {K : Type} [Euclidean K] {turn : K} {ring : Path K} {p : Position K}

/-- A point in a convex ring is strictly on the inner side of every edge. -/
theorem Convex.strictly_of_side (shape : Convex turn ring.opened) (inside : ring.side p = .inside)
    {e : Position K × Position K} (mem : e ∈ cyclicPairs ring.opened) :
    0 < turn * orientation e.1 e.2 p := by
  have reached : ring.side p ≠ .outside := by simp [inside]
  have away : ring.side p ≠ .boundary := by simp [inside]
  have off : ∀ e ∈ cyclicPairs ring.opened, ¬On p e.1 e.2 :=
    fun e mem on => away (side_of_on shape.many mem on)
  rcases edge_or_odd_of_side reached with ⟨e, mem, near⟩ | odd
  · rw [hasPoint_comm] at near
    exact absurd ((side_eq_boundary shape.many).mpr ⟨e, mem, near⟩) away
  · exact shape.strictly_of_within (shape.within_of_odd odd) off mem

/-- The side of a convex counter-clockwise ring agrees with the half-planes of its edges: what is in
the ring is strictly left of every edge, what is outside is strictly right of some edge, and the
boundary has each point of an edge and none that is not near one. -/
theorem side_by_halfPlanes (shape : Convex 1 ring.opened) (p : Position K) :
    (ring.side p = .inside → ∀ e ∈ cyclicPairs ring.opened, 0 < orientation e.1 e.2 p) ∧
    (ring.side p = .outside → ∃ e ∈ cyclicPairs ring.opened, orientation e.1 e.2 p < 0) ∧
    ((∃ e ∈ cyclicPairs ring.opened, On p e.1 e.2) → ring.side p = .boundary) ∧
    (ring.side p = .boundary →
      ∃ e ∈ cyclicPairs ring.opened, Segment.hasPoint p e.1 e.2 = true) := by
  refine ⟨fun inside e mem => ?_, fun outside => ?_, ?_, (side_eq_boundary shape.many).mp⟩
  · simpa using shape.strictly_of_side inside mem
  · simpa using shape.beyond_of_side outside
  · rintro ⟨e, mem, on⟩
    exact side_of_on shape.many mem on

section Diamond

/-- A closed counter-clockwise square with its corners below, right of, above and left of (1, 1). -/
noncomputable def diamond : Path ℝ :=
  [⟨1, 0, none⟩, ⟨2, 1, none⟩, ⟨1, 2, none⟩, ⟨0, 1, none⟩, ⟨1, 0, none⟩]

theorem opened_diamond :
    diamond.opened = [⟨1, 0, none⟩, ⟨2, 1, none⟩, ⟨1, 2, none⟩, ⟨0, 1, none⟩] :=
  opened_eq_dropLast (by simp [diamond]) (Position.sameXY_self _)

theorem convex_diamond : Convex 1 diamond.opened := by
  rw [opened_diamond]
  constructor
  · simp
  · simp only [List.pairwise_cons, List.mem_cons, List.not_mem_nil, or_false, forall_eq_or_imp,
      forall_eq, ← Bool.not_eq_true, Position.sameXY_iff]
    norm_num
  · intro a b c row
    simp only [List.cons_append, List.nil_append, List.take_succ_cons, List.take_zero,
      List.infix_cons_iff, List.cons_prefix_cons, List.infix_nil, List.prefix_nil,
      List.cons_ne_nil, and_false, or_false, List.nil_prefix, and_true] at row
    rcases row with ⟨rfl, rfl, rfl⟩ | ⟨rfl, rfl, rfl⟩ | ⟨rfl, rfl, rfl⟩ | ⟨rfl, rfl, rfl⟩ <;>
      norm_num [orientation]
  · intro e mem v hv
    simp only [cyclicPairs_four, List.mem_cons, List.not_mem_nil, or_false] at mem hv
    rcases mem with rfl | rfl | rfl | rfl <;> rcases hv with rfl | rfl | rfl | rfl <;>
      norm_num [orientation]

theorem mem_edges_diamond {e : Position ℝ × Position ℝ} : e ∈ cyclicPairs diamond.opened ↔
    e = (⟨1, 0, none⟩, ⟨2, 1, none⟩) ∨ e = (⟨2, 1, none⟩, ⟨1, 2, none⟩) ∨
      e = (⟨1, 2, none⟩, ⟨0, 1, none⟩) ∨ e = (⟨0, 1, none⟩, ⟨1, 0, none⟩) := by
  simp [opened_diamond, cyclicPairs_four]

theorem not_hasPoint_diamond {p : Position ℝ}
    (far : ∀ e ∈ cyclicPairs diamond.opened, 1 / 2 ≤ |orientation e.1 e.2 p|)
    {e : Position ℝ × Position ℝ} (mem : e ∈ cyclicPairs diamond.opened) :
    Segment.hasPoint p e.1 e.2 = false := by
  have short : |e.2.x - e.1.x| ≤ 1 ∧ |e.2.y - e.1.y| ≤ 1 := by
    rcases mem_edges_diamond.mp mem with rfl | rfl | rfl | rfl <;> norm_num
  refine not_hasPoint_of_far short.1 short.2 le_rfl ?_
  linarith [far e mem, (tolerance_eq : (tolerance : ℝ) = _)]

/-- The rays from the points at the height of the corners go through the right corner. -/
theorem side_by_halfPlanes_diamond : Convex 1 diamond.opened ∧
    diamond.side ⟨1 / 2, 1, none⟩ = .inside ∧ diamond.side ⟨-1, 1, none⟩ = .outside ∧
    diamond.side ⟨2, 1, none⟩ = .boundary := by
  refine ⟨convex_diamond, ?_, ?_, ?_⟩
  · obtain ⟨-, outer, -, near⟩ := side_by_halfPlanes convex_diamond ⟨1 / 2, 1, none⟩
    cases h : diamond.side ⟨1 / 2, 1, none⟩ with
    | inside => rfl
    | outside =>
      obtain ⟨e, mem, right⟩ := outer h
      rcases mem_edges_diamond.mp mem with rfl | rfl | rfl | rfl <;> norm_num [orientation] at right
    | boundary =>
      obtain ⟨e, mem, near⟩ := near h
      rw [not_hasPoint_diamond (fun e mem => ?_) mem] at near
      · contradiction
      · rcases mem_edges_diamond.mp mem with rfl | rfl | rfl | rfl <;> norm_num [orientation]
  · obtain ⟨inner, -, -, near⟩ := side_by_halfPlanes convex_diamond ⟨-1, 1, none⟩
    cases h : diamond.side ⟨-1, 1, none⟩ with
    | inside =>
      have left := inner h _ (mem_edges_diamond.mpr (.inr (.inr (.inl rfl))))
      norm_num [orientation] at left
    | outside => rfl
    | boundary =>
      obtain ⟨e, mem, near⟩ := near h
      rw [not_hasPoint_diamond (fun e mem => ?_) mem] at near
      · contradiction
      · rcases mem_edges_diamond.mp mem with rfl | rfl | rfl | rfl <;> norm_num [orientation]
  · exact (side_by_halfPlanes convex_diamond _).2.2.1
      ⟨_, mem_edges_diamond.mpr (.inl rfl), On.right _ _⟩

end Diamond

end Geospatial.Path
