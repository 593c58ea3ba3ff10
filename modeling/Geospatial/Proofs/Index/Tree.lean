import Geospatial.Index.Node
import Geospatial.Proofs.Bounds.Containment
import Geospatial.Proofs.Order

/-! Contents of a tree as a multiset, and the trees that insertions and removals build: all
leaves lie at one level, nodes keep to their limits, and each box is least over the boxes
below it. -/
namespace Geospatial.Index

variable {K α : Type}

namespace Node

@[elab_as_elim]
theorem induct {P : Node K α → Prop} (leaf : ∀ b es, P (.leaf b es))
    (branch : ∀ b cs, (∀ c ∈ cs, P c) → P (.branch b cs)) (n : Node K α) : P n := by
  refine Node.rec (motive_1 := P) (motive_2 := fun cs => ∀ c ∈ cs, P c) leaf branch ?_ ?_ n
  · intro c hc
    contradiction
  · intro c cs hc hcs d hd
    rcases List.mem_cons.mp hd with rfl | hd
    · exact hc
    · exact hcs d hd

/-- The entries below a node, without their order. -/
def contents (n : Node K α) : Multiset (Entry K α) := n.entries

theorem contents_leaf (b : Bounds K) (es : List (Entry K α)) : (leaf b es).contents = es := by
  rw [contents, entries]

theorem contents_branch (b : Bounds K) (cs : List (Node K α)) :
    (branch b cs).contents = (cs : Multiset (Node K α)).bind contents := by
  rw [contents, entries]
  induction cs with
  | nil => simp [entriesOfAll]
  | cons c cs ih =>
    rw [entriesOfAll, ← Multiset.coe_add, ih, ← Multiset.cons_coe, Multiset.cons_bind, add_comm]
    rfl

theorem drainedAll_eq (cs : List (Node K α)) : drainedAll cs = cs.flatMap drained := by
  induction cs with
  | nil => rw [drainedAll, List.flatMap_nil]
  | cons c cs ih => rw [drainedAll, ih, List.flatMap_cons]

/-- Draining a node takes out just what lies below it. -/
theorem coe_drained (n : Node K α) : (n.drained : Multiset (Entry K α)) = n.contents := by
  induction n using induct with
  | leaf b es => rw [drained, contents_leaf]
  | branch b cs ih =>
    rw [drained, drainedAll_eq, contents_branch, ← Multiset.coe_bind]
    exact Multiset.bind_congr fun c hc => ih c hc

variable [Scalar K]

theorem halves_perm (box : β → Bounds K) (xs : List β) :
    ((halves box xs).1 ++ (halves box xs).2).Perm xs := by
  simp only [halves, List.take_append_drop]
  exact Order.sort_perm _ xs

theorem length_halves (box : β → Bounds K) (xs : List β) :
    (halves box xs).1.length = xs.length / 2 ∧
      (halves box xs).2.length = xs.length - xs.length / 2 := by
  have kept (compare : β → β → Ordering) : (Order.sort compare xs).length = xs.length :=
    (Order.sort_perm compare xs).length_eq
  constructor
  · rw [halves, List.length_take, kept]
    omega
  · rw [halves, List.length_drop, kept]

theorem index_improve (b : Bounds K) (best : Choice K) (candidate : Node K α × Nat) :
    (best.improve b candidate).index = best.index ∨
      (best.improve b candidate).index = candidate.2 := by
  simp only [Choice.improve]
  split
  · exact Or.inr rfl
  · exact Or.inl rfl

theorem chooseChild_lt (b : Bounds K) {cs : List (Node K α)} (nonempty : cs ≠ []) :
    chooseChild b cs < cs.length := by
  have bounded (candidates : List (Node K α × Nat)) (best : Choice K)
      (first : best.index < cs.length) (others : ∀ c ∈ candidates, c.2 < cs.length) :
      (candidates.foldl (Choice.improve b) best).index < cs.length := by
    induction candidates generalizing best with
    | nil => exact first
    | cons c candidates ih =>
      apply ih _ _ fun d hd => others d (List.mem_cons_of_mem c hd)
      rcases index_improve b best c with same | same <;> rw [same]
      · exact first
      · exact others c List.mem_cons_self
  apply bounded
  · exact List.length_pos_iff.mpr nonempty
  · rintro ⟨c, i⟩ hc
    simpa using List.snd_lt_of_mem_zipIdx hc

/-- Limits under which both halves of an overfull node are full enough. -/
structure Limits (most fewest : Nat) : Prop where
  two_le : 2 ≤ most
  pos : 0 < fewest
  half : 2 * fewest ≤ most + 1

theorem length_halves_of_overfull {most fewest : Nat} (limits : Limits most fewest)
    {xs : List β} (length : xs.length = most + 1) (box : β → Bounds K) :
    (fewest ≤ (halves box xs).1.length ∧ (halves box xs).1.length ≤ most) ∧
      fewest ≤ (halves box xs).2.length ∧ (halves box xs).2.length ≤ most := by
  obtain ⟨two_le, pos, half⟩ := limits
  obtain ⟨lower, upper⟩ := length_halves box xs
  omega

/-- A subtree of a given height within its limits. Its own fill has no lower limit here, since
a root has none. -/
inductive WellFormed (most fewest : Nat) : Nat → Node K α → Prop where
  | leaf : es.length ≤ most → (∀ e ∈ es, e.bounds.isFinite = true) →
      b.LeastOver ↑(es.map Entry.bounds) → WellFormed most fewest 1 (.leaf b es)
  | branch : cs.length ≤ most → (∀ c ∈ cs, fewest ≤ c.fill) →
      (∀ c ∈ cs, WellFormed most fewest h c) → b.LeastOver ↑(cs.map bounds) →
      WellFormed most fewest (h + 1) (.branch b cs)

namespace WellFormed

variable {most fewest h : Nat} {n : Node K α}

theorem fill_le (wf : n.WellFormed most fewest h) : n.fill ≤ most := by
  cases wf with
  | leaf bound => exact bound
  | branch bound => exact bound

theorem fill_pos (wf : n.WellFormed most fewest h) : 0 < n.fill := by
  have positive {β : Type} {box : β → Bounds K} {xs : List β} {b : Bounds K}
      (least : b.LeastOver ↑(xs.map box)) : 0 < xs.length := by
    obtain ⟨x, hx⟩ := least.nonempty
    obtain ⟨y, hy, _⟩ := List.mem_map.mp (Multiset.mem_coe.mp hx)
    exact List.length_pos_of_mem hy
  cases wf with
  | leaf _ _ least => exact positive least
  | branch _ _ _ least => exact positive least

theorem depth_eq (wf : n.WellFormed most fewest h) : n.depth = h := by
  induction wf with
  | leaf => rw [depth]
  | @branch cs h b _ _ _ least ih =>
    cases cs with
    | nil =>
      obtain ⟨x, hx⟩ := least.nonempty
      contradiction
    | cons c cs => rw [depth, ih c List.mem_cons_self, Nat.add_comm]

theorem finite (wf : n.WellFormed most fewest h) :
    ∀ e ∈ n.contents, e.bounds.isFinite = true := by
  induction wf with
  | leaf _ finite _ => simpa only [contents_leaf, Multiset.mem_coe] using finite
  | branch _ _ _ _ ih =>
    rw [contents_branch]
    intro e he
    obtain ⟨c, hc, he⟩ := Multiset.mem_bind.mp he
    exact ih c hc e he

variable [Scalar.LawfulOrder K]

/-- The box of a node is least over the boxes of all entries below it. -/
theorem leastOver (wf : n.WellFormed most fewest h) :
    n.bounds.LeastOver (n.contents.map Entry.bounds) := by
  induction wf with
  | leaf _ _ least =>
    rw [contents_leaf, Multiset.map_coe]
    exact least
  | branch _ _ _ least ih =>
    rw [contents_branch, Multiset.map_bind]
    exact (Bounds.LeastOver.bind_iff ih).mpr least

end WellFormed

theorem contains_self_of_finite [Scalar.LawfulOrder K] {es : List (Entry K α)}
    (finite : ∀ e ∈ es, e.bounds.isFinite = true) :
    ∀ x ∈ es.map Entry.bounds, x.contains x = true := by
  intro x hx
  obtain ⟨e, he, rfl⟩ := List.mem_map.mp hx
  exact Bounds.contains_self (finite e he)

theorem contains_self_of_wellFormed [Scalar.LawfulOrder K] {most fewest h : Nat}
    {cs : List (Node K α)} (wf : ∀ c ∈ cs, c.WellFormed most fewest h) :
    ∀ x ∈ cs.map bounds, x.contains x = true := by
  intro x hx
  obtain ⟨c, hc, rfl⟩ := List.mem_map.mp hx
  exact (wf c hc).leastOver.self

/-- Of well-formed children, their boxes and those of the entries below have the same least
boxes. -/
theorem leastOver_children [Scalar.LawfulOrder K] {most fewest h : Nat} {b : Bounds K}
    {cs : List (Node K α)} (wf : ∀ c ∈ cs, c.WellFormed most fewest h) :
    b.LeastOver (((cs : Multiset (Node K α)).bind contents).map Entry.bounds) ↔
      b.LeastOver ↑(cs.map bounds) := by
  rw [Multiset.map_bind, ← Multiset.map_coe]
  exact Bounds.LeastOver.bind_iff fun c hc => (wf c hc).leastOver

end Node
end Geospatial.Index
