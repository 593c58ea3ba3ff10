import Geospatial.Proofs.Index.Tree

/-! Insertion puts one entry into a well-formed subtree. The subtree stays well-formed at its
height, or splits into two that are full enough for any place but the root. -/
namespace Geospatial.Index.Node

variable {K α : Type}

/-- What stands in place of a node after an insertion. -/
def Grown.nodes (g : Grown K α) : List (Node K α) := g.node :: g.sibling.toList

theorem Grown.length_nodes (g : Grown K α) : 1 ≤ g.nodes.length ∧ g.nodes.length ≤ 2 := by
  obtain ⟨node, sibling⟩ := g
  cases sibling <;> simp [nodes]

variable [Scalar K]

theorem insertAt_perm (most : Nat) (e : Entry K α) {i : Nat} {cs : List (Node K α)}
    (within : i < cs.length) : ∃ c rest, cs.Perm (c :: rest) ∧
      (insertAt most e i cs).Perm ((c.insert most e).nodes ++ rest) := by
  induction cs generalizing i with
  | nil => contradiction
  | cons d cs ih =>
    cases i with
    | zero =>
      refine ⟨d, cs, List.Perm.refl _, ?_⟩
      rw [insertAt, Grown.nodes]
      exact (List.perm_append_comm).cons _
    | succ i =>
      obtain ⟨c, rest, before, after⟩ := ih (Nat.lt_of_succ_lt_succ within)
      refine ⟨c, d :: rest, (before.cons d).trans (List.Perm.swap c d rest), ?_⟩
      rw [insertAt]
      exact (after.cons d).trans List.perm_middle.symm

/-- An insertion of `e` into `n` keeps the height and adds `e` alone. A node that is not split
is at least as full as before; both parts of one that is split are full enough. -/
structure GrowsTo (most fewest h : Nat) (n : Node K α) (e : Entry K α) (g : Grown K α) : Prop where
  wellFormed : ∀ m ∈ g.nodes, m.WellFormed most fewest h
  contents : (g.nodes : Multiset (Node K α)).bind contents = e ::ₘ n.contents
  kept : g.sibling = none → n.fill ≤ g.node.fill
  split : ∀ s ∈ g.sibling, fewest ≤ g.node.fill ∧ fewest ≤ s.fill

variable {most fewest h : Nat}

theorem GrowsTo.fewest_le {n : Node K α} {e : Entry K α} {g : Grown K α}
    (grown : GrowsTo most fewest h n e g) (full : fewest ≤ n.fill) :
    ∀ m ∈ g.nodes, fewest ≤ m.fill := by
  obtain ⟨node, sibling⟩ := g
  cases sibling with
  | none => simpa [Grown.nodes] using full.trans (grown.kept rfl)
  | some s => simpa [Grown.nodes] using grown.split s rfl

/-- Both halves of an overfull list make nodes that are full enough. -/
theorem GrowsTo.of_halves (limits : Limits most fewest) {n : Node K α} {e : Entry K α}
    {xs : List β} (overfull : xs.length = most + 1) (box : β → Bounds K)
    {make : List β → Node K α} (part : β → Multiset (Entry K α))
    (fill : ∀ ys, (make ys).fill = ys.length)
    (contents : ∀ ys, (make ys).contents = (ys : Multiset β).bind part)
    (wf : ∀ ys, ys ≠ [] → ys.length ≤ most → ys ⊆ xs → (make ys).WellFormed most fewest h)
    (total : (xs : Multiset β).bind part = e ::ₘ n.contents) :
    GrowsTo most fewest h n e ⟨make (halves box xs).1, some (make (halves box xs).2)⟩ := by
  have kept := halves_perm box xs
  obtain ⟨⟨lowerFull, lowerBound⟩, upperFull, upperBound⟩ :=
    length_halves_of_overfull limits overfull box
  generalize (halves box xs).1 = lower, (halves box xs).2 = upper at *
  have nonempty (ys : List β) (full : fewest ≤ ys.length) : ys ≠ [] :=
    List.ne_nil_of_length_pos (limits.pos.trans_le full)
  refine ⟨?_, ?_, nofun, ?_⟩
  · simp only [Grown.nodes, Option.toList_some, List.mem_cons, List.not_mem_nil, or_false]
    rintro m (rfl | rfl)
    · exact wf lower (nonempty lower lowerFull) lowerBound
        fun y hy => kept.subset (List.mem_append_left upper hy)
    · exact wf upper (nonempty upper upperFull) upperBound
        fun y hy => kept.subset (List.mem_append_right lower hy)
  · rw [← total, ← Multiset.coe_eq_coe.mpr kept, ← Multiset.coe_add, Multiset.add_bind,
      ← contents, ← contents]
    simp only [Grown.nodes, Option.toList_some]
    rw [← Multiset.cons_coe, Multiset.cons_bind, Multiset.coe_singleton, Multiset.singleton_bind]
  · intro s here
    obtain rfl := Option.some.inj here
    rw [fill, fill]
    exact ⟨lowerFull, upperFull⟩

variable [Scalar.LawfulOrder K]

theorem wellFormed_ofEntries (old : Bounds K) {es : List (Entry K α)} (nonempty : es ≠ [])
    (bound : es.length ≤ most) (finite : ∀ e ∈ es, e.bounds.isFinite = true) :
    (ofEntries old es).WellFormed most fewest 1 := by
  apply WellFormed.leaf bound finite
  exact Bounds.leastOver_getD old (by simpa using nonempty) (contains_self_of_finite finite)

theorem wellFormed_ofChildren (old : Bounds K) {cs : List (Node K α)} (nonempty : cs ≠ [])
    (bound : cs.length ≤ most) (fill : ∀ c ∈ cs, fewest ≤ c.fill)
    (wf : ∀ c ∈ cs, c.WellFormed most fewest h) :
    (ofChildren old cs).WellFormed most fewest (h + 1) := by
  apply WellFormed.branch bound fill wf
  exact Bounds.leastOver_getD old (by simpa using nonempty) (contains_self_of_wellFormed wf)

theorem growLeaf_grows (limits : Limits most fewest) {n : Node K α} {e : Entry K α}
    {b : Bounds K} {es : List (Entry K α)} (larger : n.fill ≤ es.length)
    (bound : es.length ≤ most + 1) (total : (es : Multiset (Entry K α)) = e ::ₘ n.contents)
    (finite : ∀ e ∈ es, e.bounds.isFinite = true) (least : b.LeastOver ↑(es.map Entry.bounds)) :
    GrowsTo most fewest 1 n e (growLeaf most b es) := by
  rw [growLeaf]
  split
  · rename_i fits
    exact {
      wellFormed := by simpa [Grown.nodes] using .leaf fits finite least
      contents := by simpa [Grown.nodes, contents_leaf] using total
      kept := fun _ => larger
      split := nofun }
  · rename_i overfull
    apply GrowsTo.of_halves limits (by omega) Entry.bounds fun e => {e}
    · exact fun ys => rfl
    · intro ys
      rw [ofEntries, contents_leaf, Multiset.bind_singleton, Multiset.map_id']
    · exact fun ys nonempty bound among =>
        wellFormed_ofEntries b nonempty bound fun e he => finite e (among he)
    · rw [Multiset.bind_singleton, Multiset.map_id', total]

theorem growBranch_grows (limits : Limits most fewest) {n : Node K α} {e : Entry K α}
    {b : Bounds K} {cs : List (Node K α)} (larger : n.fill ≤ cs.length)
    (bound : cs.length ≤ most + 1)
    (total : (cs : Multiset (Node K α)).bind contents = e ::ₘ n.contents)
    (fill : ∀ c ∈ cs, fewest ≤ c.fill) (wf : ∀ c ∈ cs, c.WellFormed most fewest h)
    (least : b.LeastOver ↑(cs.map bounds)) :
    GrowsTo most fewest (h + 1) n e (growBranch most b cs) := by
  rw [growBranch]
  split
  · rename_i fits
    exact {
      wellFormed := by simpa [Grown.nodes] using .branch fits fill wf least
      contents := by simpa [Grown.nodes, contents_branch] using total
      kept := fun _ => larger
      split := nofun }
  · rename_i overfull
    apply GrowsTo.of_halves limits (by omega) bounds contents
    · exact fun ys => rfl
    · intro ys
      rw [ofChildren, contents_branch]
    · exact fun ys nonempty bound among => wellFormed_ofChildren b nonempty bound
        (fun c hc => fill c (among hc)) fun c hc => wf c (among hc)
    · exact total

theorem insert_leaf_grows (limits : Limits most fewest) {b : Bounds K} {es : List (Entry K α)}
    (wf : (leaf b es).WellFormed most fewest 1) {e : Entry K α}
    (finite : e.bounds.isFinite = true) :
    GrowsTo most fewest 1 (leaf b es) e ((leaf b es).insert most e) := by
  have bound : es.length ≤ most := wf.fill_le
  have finiteAll := wf.finite
  have least := wf.leastOver
  rw [contents_leaf, Multiset.map_coe] at least
  rw [insert]
  apply growLeaf_grows limits
  · simp [fill]
  · simpa using bound
  · rw [contents_leaf, ← Multiset.coe_add, Multiset.coe_singleton, ← Multiset.singleton_add,
      add_comm]
  · intro d hd
    rcases List.mem_append.mp hd with hd | hd
    · apply finiteAll d
      rw [contents_leaf]
      exact Multiset.mem_coe.mpr hd
    · obtain rfl := List.mem_singleton.mp hd
      exact finite
  · rw [List.map_append, ← Multiset.coe_add]
    exact least.union (Bounds.LeastOver.singleton (Bounds.contains_self finite))

/-- One step of an insertion at a branch, with what it was at every child. -/
theorem insert_branch_grows (limits : Limits most fewest) {b : Bounds K} {cs : List (Node K α)}
    (bound : cs.length ≤ most) (fills : ∀ c ∈ cs, fewest ≤ c.fill)
    (wf : ∀ c ∈ cs, c.WellFormed most fewest h) (least : b.LeastOver ↑(cs.map bounds))
    {e : Entry K α} (finite : e.bounds.isFinite = true)
    (below : ∀ c ∈ cs, GrowsTo most fewest h c e (c.insert most e)) :
    GrowsTo most fewest (h + 1) (branch b cs) e ((branch b cs).insert most e) := by
  rw [insert]
  have nonempty : cs ≠ [] :=
    List.ne_nil_of_length_pos (WellFormed.branch bound fills wf least).fill_pos
  -- The new children are the old ones with `c` replaced by what grew from it.
  obtain ⟨c, rest, before, after⟩ := insertAt_perm most e (chooseChild_lt e.bounds nonempty)
  generalize insertAt most e (chooseChild e.bounds cs) cs = cs' at *
  have hc : c ∈ cs := before.mem_iff.mpr List.mem_cons_self
  have hrest (d : Node K α) (hd : d ∈ rest) : d ∈ cs :=
    before.mem_iff.mpr (List.mem_cons_of_mem c hd)
  have grown := below c hc
  have sizes := (c.insert most e).length_nodes
  have lengthBefore := before.length_eq
  have lengthAfter := after.length_eq
  simp only [List.length_cons, List.length_append] at lengthBefore lengthAfter
  have total : (cs' : Multiset (Node K α)).bind contents = e ::ₘ (branch b cs).contents := by
    rw [contents_branch, Multiset.coe_eq_coe.mpr after, Multiset.coe_eq_coe.mpr before,
      ← Multiset.coe_add, Multiset.add_bind, grown.contents, ← Multiset.cons_coe,
      Multiset.cons_bind, Multiset.cons_add]
  have wf' (m : Node K α) (hm : m ∈ cs') : m.WellFormed most fewest h := by
    rcases List.mem_append.mp (after.mem_iff.mp hm) with hm | hm
    · exact grown.wellFormed m hm
    · exact wf m (hrest m hm)
  apply growBranch_grows limits
  · change cs.length ≤ cs'.length
    omega
  · omega
  · exact total
  · intro m hm
    rcases List.mem_append.mp (after.mem_iff.mp hm) with hm | hm
    · exact grown.fewest_le (fills c hc) m hm
    · exact fills m (hrest m hm)
  · exact wf'
  · apply (leastOver_children wf').mp
    rw [total, contents_branch, Multiset.map_cons, ← Multiset.singleton_add, add_comm]
    exact ((leastOver_children wf).mpr least).union
      (Bounds.LeastOver.singleton (Bounds.contains_self finite))

/-- One step of an insertion at every level of the tree. -/
theorem insert_grows (limits : Limits most fewest) {n : Node K α} (wf : n.WellFormed most fewest h)
    {e : Entry K α} (finite : e.bounds.isFinite = true) :
    GrowsTo most fewest h n e (n.insert most e) := by
  induction wf with
  | leaf bound finiteAll least =>
    exact insert_leaf_grows limits (.leaf bound finiteAll least) finite
  | branch bound fills wf least below =>
    exact insert_branch_grows limits bound fills wf least finite below

end Geospatial.Index.Node
