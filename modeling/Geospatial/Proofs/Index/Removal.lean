import Mathlib.Data.List.Perm.Basic
import Geospatial.Proofs.Index.Insertion
import Geospatial.Index

/-! Removal takes one wanted entry out of a well-formed subtree. Nodes that are left with too few
children are dissolved into orphans, so that what stays is well-formed at its height, or has nothing
below it. Boxes that do not contain the box asked for hide no wanted entry. From the root of a tree,
a root that splits gets a new one above it; one that is left with a single child is dropped in favor
of that child, through as many levels as it takes, and the orphans of the removal are inserted
again. -/
namespace Geospatial.Index

namespace Node

variable {K α : Type} [Scalar K]

theorem forall_mem_replace {P : β → Prop} {before after : List β} {x y : β}
    (old : ∀ z ∈ before ++ x :: after, P z) (new : P y) : ∀ z ∈ before ++ y :: after, P z := by
  rw [List.forall_mem_append, List.forall_mem_cons] at old ⊢
  exact ⟨old.1, new, old.2.2⟩

theorem removeBelow?_eq_some {fewest : Nat} {box : Bounds K} {wanted : α → Bool}
    {cs : List (Node K α)} {index : Nat} {r : ReducedChild K α}
    (found : removeBelow? fewest box wanted index cs = some r) :
    ∃ before c after reduced, cs = before ++ c :: after ∧
      c.remove? fewest box wanted = some reduced ∧
      r = ⟨index + before.length, reduced.node, reduced.orphans⟩ := by
  induction cs generalizing index with
  | nil =>
    rw [removeBelow?] at found
    contradiction
  | cons c cs ih =>
    rw [removeBelow?] at found
    split at found
    · rename_i reduced here
      obtain rfl := Option.some.inj found
      split at here
      · exact ⟨[], c, cs, reduced, rfl, here, rfl⟩
      · contradiction
    · obtain ⟨before, d, after, reduced, rfl, there, rfl⟩ := ih found
      refine ⟨c :: before, d, after, reduced, rfl, there, ?_⟩
      rw [List.length_cons, Nat.add_right_comm, Nat.add_assoc]

theorem removeBelow?_eq_none {fewest : Nat} {box : Bounds K} {wanted : α → Bool}
    {cs : List (Node K α)} {index : Nat}
    (missing : removeBelow? fewest box wanted index cs = none) :
    ∀ c ∈ cs, c.bounds.contains box = true → c.remove? fewest box wanted = none := by
  induction cs generalizing index with
  | nil =>
    intro c hc
    contradiction
  | cons c cs ih =>
    rw [removeBelow?] at missing
    split at missing
    · contradiction
    · rename_i here
      intro d hd inSight
      rcases List.mem_cons.mp hd with rfl | hd
      · rwa [if_pos inSight] at here
      · exact ih missing d hd inSight

/-- A removal takes one wanted entry out of `n`. What is left below the node is well-formed
at the old height unless nothing is. -/
structure ReducesTo (most fewest h : Nat) (n : Node K α) (wanted : α → Bool)
    (r : Reduced K α) : Prop where
  wellFormed : r.node.fill = 0 ∨ r.node.WellFormed most fewest h
  contents : ∃ e, wanted e.item = true ∧
    n.contents = e ::ₘ (r.node.contents + (r.orphans : Multiset (Entry K α)))

variable [Scalar.LawfulOrder K] {most fewest h : Nat} {box : Bounds K} {wanted : α → Bool}

theorem ofEntries_reduced (old : Bounds K) {es : List (Entry K α)} (bound : es.length ≤ most)
    (finite : ∀ e ∈ es, e.bounds.isFinite = true) :
    (ofEntries old es).fill = 0 ∨ (ofEntries old es).WellFormed most fewest 1 := by
  by_cases empty : es = []
  · left
    rw [empty]
    rfl
  · exact Or.inr (wellFormed_ofEntries old empty bound finite)

theorem ofChildren_reduced (old : Bounds K) {cs : List (Node K α)} (bound : cs.length ≤ most)
    (fill : ∀ c ∈ cs, fewest ≤ c.fill) (wf : ∀ c ∈ cs, c.WellFormed most fewest h) :
    (ofChildren old cs).fill = 0 ∨ (ofChildren old cs).WellFormed most fewest (h + 1) := by
  by_cases empty : cs = []
  · left
    rw [empty]
    rfl
  · exact Or.inr (wellFormed_ofChildren old empty bound fill wf)

/-- One step of a removal at a branch, with what it was at the child. -/
theorem reduceBranch_reduces (limits : Limits most fewest) {b : Bounds K}
    {before after : List (Node K α)} {c : Node K α} {reduced : Reduced K α}
    (bound : (before ++ c :: after).length ≤ most)
    (fill : ∀ d ∈ before ++ c :: after, fewest ≤ d.fill)
    (wf : ∀ d ∈ before ++ c :: after, d.WellFormed most fewest h)
    (below : ReducesTo most fewest h c wanted reduced) :
    ReducesTo most fewest (h + 1) (branch b (before ++ c :: after)) wanted
      (reduceBranch fewest b (before ++ c :: after)
        ⟨before.length, reduced.node, reduced.orphans⟩) := by
  obtain ⟨e, isWanted, taken⟩ := below.contents
  have total : (branch b (before ++ c :: after)).contents =
      e ::ₘ (((before ++ after : List (Node K α)) : Multiset (Node K α)).bind contents +
        (reduced.node.contents + reduced.orphans)) := by
    rw [contents_branch, Multiset.coe_eq_coe.mpr List.perm_middle, ← Multiset.cons_coe,
      Multiset.cons_bind, taken, Multiset.cons_add, add_comm]
  rw [reduceBranch]
  split
  -- The child is dissolved, and its entries become orphans.
  · have kept := Order.swapRemove_perm before after c
    have others (d : Node K α) (hd : d ∈ Order.swapRemove before.length (before ++ c :: after)) :
        d ∈ before ++ c :: after :=
      List.perm_middle.mem_iff.mpr (List.mem_cons_of_mem c (kept.mem_iff.mp hd))
    refine ⟨ofChildren_reduced b ?_ ?_ ?_, e, isWanted, ?_⟩
    · rw [kept.length_eq]
      simp only [List.length_append, List.length_cons] at bound ⊢
      omega
    · exact fun d hd => fill d (others d hd)
    · exact fun d hd => wf d (others d hd)
    · have orphans : ((reduced.orphans ++ reduced.node.drained : List (Entry K α)) :
          Multiset (Entry K α)) = reduced.node.contents + reduced.orphans := by
        rw [← Multiset.coe_add, coe_drained, add_comm]
      rw [total, ofChildren, contents_branch, Multiset.coe_eq_coe.mpr kept, orphans]
  -- The child stays; one that is full enough is not empty.
  · rename_i full
    have wfChild : reduced.node.WellFormed most fewest h := by
      rcases below.wellFormed with empty | wfChild
      · have pos := limits.pos
        simp only at full
        omega
      · exact wfChild
    have replaced : (before ++ c :: after).set before.length reduced.node =
        before ++ reduced.node :: after := by simp
    simp only [replaced]
    refine ⟨ofChildren_reduced b ?_ ?_ ?_, e, isWanted, ?_⟩
    · simpa using bound
    · exact forall_mem_replace fill (Nat.le_of_not_lt full)
    · exact forall_mem_replace wf wfChild
    · rw [total, ofChildren, contents_branch, Multiset.coe_eq_coe.mpr List.perm_middle,
        ← Multiset.cons_coe, Multiset.cons_bind, ← add_assoc, add_comm reduced.node.contents]

theorem remove?_reduces (limits : Limits most fewest) {n : Node K α}
    (wf : n.WellFormed most fewest h) {r : Reduced K α}
    (found : n.remove? fewest box wanted = some r) : ReducesTo most fewest h n wanted r := by
  induction wf generalizing r with
  | @leaf es b bound finite _ =>
    rw [remove?] at found
    obtain ⟨i, position, rfl⟩ := Option.map_eq_some_iff.mp found
    obtain ⟨within, isWanted, _⟩ := List.findIdx?_eq_some_iff_getElem.mp position
    have kept := List.getElem_cons_eraseIdx_perm within
    refine ⟨ofEntries_reduced b ?_ ?_, es[i], isWanted, ?_⟩
    · exact (List.length_eraseIdx_le es i).trans bound
    · exact fun e he => finite e (List.mem_of_mem_eraseIdx he)
    · rw [ofEntries, contents_leaf, contents_leaf, Multiset.coe_nil, add_zero, Multiset.cons_coe]
      exact (Multiset.coe_eq_coe.mpr kept).symm
  | @branch cs h b bound fill wf _ ih =>
    rw [remove?] at found
    obtain ⟨child, below, rfl⟩ := Option.map_eq_some_iff.mp found
    obtain ⟨before, c, after, reduced, rfl, here, rfl⟩ := removeBelow?_eq_some below
    rw [Nat.zero_add]
    exact reduceBranch_reduces limits bound fill wf (ih c (by simp) here)

/-- Where a removal finds nothing, no entry whose box contains the box asked for is wanted. -/
theorem remove?_eq_none {n : Node K α} (wf : n.WellFormed most fewest h)
    (missing : n.remove? fewest box wanted = none) :
    ∀ e ∈ n.contents, e.bounds.contains box = true → wanted e.item = false := by
  induction wf with
  | leaf =>
    rw [remove?, Option.map_eq_none_iff, List.findIdx?_eq_none_iff] at missing
    rw [contents_leaf]
    exact fun e he _ => missing e (Multiset.mem_coe.mp he)
  | branch _ _ wf _ ih =>
    rw [remove?, Option.map_eq_none_iff] at missing
    rw [contents_branch]
    intro e he inSight
    obtain ⟨c, hc, he⟩ := Multiset.mem_bind.mp he
    have covered := (wf c hc).leastOver.covers e.bounds (Multiset.mem_map_of_mem _ he)
    exact ih c hc (removeBelow?_eq_none missing c hc (Bounds.contains_trans covered inSight))
      e he inSight

end Node

variable {K α : Type}

/-- The entries below a root, without their order. -/
def contents (root : Option (Node K α)) : Multiset (Entry K α) := root.elim 0 Node.contents

theorem Node.contents_collapse (n : Node K α) : Index.contents n.collapse = n.contents := by
  induction n using Node.collapse.induct with
  | case1 b es empty =>
    rw [collapse, if_pos empty, List.isEmpty_iff.mp empty, contents_leaf]
    rfl
  | case2 b es nonempty =>
    rw [collapse, if_neg nonempty]
    rfl
  | case3 b =>
    rw [collapse, contents_branch, Multiset.coe_nil, Multiset.zero_bind]
    rfl
  | case4 b c ih =>
    rw [collapse, ih, contents_branch, Multiset.coe_singleton, Multiset.singleton_bind]
  | case5 =>
    rw [collapse]
    rfl

variable [Scalar K] {most fewest : Nat}

/-- What the root of an index may be: nothing, or a well-formed tree that is not a branch with
a single child. -/
def Rooted (most fewest : Nat) (root : Option (Node K α)) : Prop :=
  ∀ n ∈ root, ∃ h, n.WellFormed most fewest h ∧ (h = 1 ∨ 2 ≤ n.fill)

theorem Node.collapse_rooted {n : Node K α} {h : Nat}
    (reduced : n.fill = 0 ∨ n.WellFormed most fewest h) : Rooted most fewest n.collapse := by
  induction n using Node.collapse.induct generalizing h with
  | case1 b es empty =>
    rw [collapse, if_pos empty]
    exact nofun
  | case2 b es nonempty =>
    rw [collapse, if_neg nonempty]
    intro m hm
    obtain rfl := Option.some.inj hm
    rcases reduced with empty | wf
    · exact absurd (List.isEmpty_iff_length_eq_zero.mpr empty) nonempty
    · cases wf with
      | leaf bound finite least => exact ⟨1, .leaf bound finite least, Or.inl rfl⟩
  | case3 b =>
    rw [collapse]
    exact nofun
  | case4 b c ih =>
    rw [collapse]
    rcases reduced with empty | wf
    · contradiction
    · cases wf with
      | branch _ _ wf _ => exact ih (Or.inr (wf c List.mem_cons_self))
  | case5 b c d cs =>
    rw [collapse]
    intro m hm
    obtain rfl := Option.some.inj hm
    rcases reduced with empty | wf
    · contradiction
    · exact ⟨h, wf, Or.inr (Nat.le_add_left 2 cs.length)⟩

variable [Scalar.LawfulOrder K]

theorem insertEntry_rooted (limits : Node.Limits most fewest) {root : Option (Node K α)}
    (rooted : Rooted most fewest root) {e : Entry K α} (finite : e.bounds.isFinite = true) :
    Rooted most fewest (some (insertEntry most e root)) ∧
      contents (some (insertEntry most e root)) = e ::ₘ contents root := by
  cases root with
  | none =>
    have two_le := limits.two_le
    have leaf : (Node.leaf e.bounds [e]).WellFormed most fewest 1 := by
      apply Node.WellFormed.leaf
      · rw [List.length_singleton]
        omega
      · simpa using finite
      · exact Bounds.LeastOver.singleton (Bounds.contains_self finite)
    constructor
    · intro n hn
      obtain rfl := Option.some.inj hn
      exact ⟨1, leaf, Or.inl rfl⟩
    · exact Node.contents_leaf e.bounds [e]
  | some root =>
    obtain ⟨h, wf, forks⟩ := rooted root rfl
    have grown := Node.insert_grows limits wf finite
    rw [insertEntry]
    generalize root.insert most e = g at *
    obtain ⟨node, sibling⟩ := g
    cases sibling with
    | none =>
      constructor
      · intro n hn
        obtain rfl := Option.some.inj hn
        exact ⟨h, grown.wellFormed node (by simp [Node.Grown.nodes]),
          forks.imp id fun two => two.trans (grown.kept rfl)⟩
      · simpa [Node.Grown.nodes, contents] using grown.contents
    | some s =>
      -- Both parts are full enough, so they fit below a new root.
      have wfNode := grown.wellFormed node (by simp [Node.Grown.nodes])
      have wfSibling := grown.wellFormed s (by simp [Node.Grown.nodes])
      constructor
      · intro n hn
        obtain rfl := Option.some.inj hn
        refine ⟨h + 1, .branch limits.two_le ?_ ?_ ?_, Or.inr (Nat.le_refl 2)⟩
        · simpa using grown.split s rfl
        · simpa using And.intro wfNode wfSibling
        · exact (Bounds.LeastOver.singleton wfNode.leastOver.self).union
            (Bounds.LeastOver.singleton wfSibling.leastOver.self)
      · rw [contents, Option.elim_some, Node.contents_branch]
        exact grown.contents

/-- Entries are put back one after the other. -/
theorem reinsert_rooted (limits : Node.Limits most fewest) {root : Option (Node K α)}
    (rooted : Rooted most fewest root) {orphans : List (Entry K α)}
    (finite : ∀ e ∈ orphans, e.bounds.isFinite = true) :
    Rooted most fewest (orphans.foldl (fun root e => some (insertEntry most e root)) root) ∧
      contents (orphans.foldl (fun root e => some (insertEntry most e root)) root) =
        contents root + orphans := by
  induction orphans generalizing root with
  | nil => exact ⟨rooted, (add_zero _).symm⟩
  | cons e orphans ih =>
    obtain ⟨rootedOne, contentsOne⟩ :=
      insertEntry_rooted limits rooted (finite e List.mem_cons_self)
    obtain ⟨rootedAll, contentsAll⟩ :=
      ih rootedOne fun d hd => finite d (List.mem_cons_of_mem e hd)
    refine ⟨rootedAll, ?_⟩
    rw [List.foldl_cons, contentsAll, contentsOne, Multiset.cons_add, ← Multiset.add_cons,
      Multiset.cons_coe]

/-- A removal from a tree, with its orphans back in place, takes out one wanted entry. -/
theorem removeRoot_rooted (limits : Node.Limits most fewest) {root : Node K α}
    (rooted : Rooted most fewest (some root)) {box : Bounds K} {wanted : α → Bool}
    {r : Node.Reduced K α} (found : root.remove? fewest box wanted = some r) :
    Rooted most fewest
        (r.orphans.foldl (fun root e => some (insertEntry most e root)) r.node.collapse) ∧
      ∃ e, wanted e.item = true ∧ root.contents = e ::ₘ contents
        (r.orphans.foldl (fun root e => some (insertEntry most e root)) r.node.collapse) := by
  obtain ⟨h, wf, _⟩ := rooted root rfl
  have reduced := Node.remove?_reduces limits wf found
  obtain ⟨e, isWanted, taken⟩ := reduced.contents
  have finite (d : Entry K α) (hd : d ∈ r.orphans) : d.bounds.isFinite = true := by
    apply wf.finite d
    rw [taken]
    exact Multiset.mem_cons_of_mem (Multiset.mem_add.mpr (Or.inr (Multiset.mem_coe.mpr hd)))
  obtain ⟨rootedAll, contentsAll⟩ :=
    reinsert_rooted limits (Node.collapse_rooted reduced.wellFormed) finite
  refine ⟨rootedAll, e, isWanted, ?_⟩
  rw [contentsAll, Node.contents_collapse, taken]

end Geospatial.Index
