import Geospatial.Proofs.Network.Changes

/-! What every network is that was built by adding and removing nodes and edges: names are
unique, the ends of every edge are nodes, and every node has a list of the edges that touch it, each
of them once. -/
namespace Geospatial.Network

variable {K : Type}

/-- Among elements with unique keys, the search for a key finds the element that has it. -/
theorem find?_eq_some_iff_of_nodup {α : Type} {key : α → String} {xs : List α}
    (unique : (xs.map key).Nodup) {k : String} {x : α} :
    xs.find? (fun y => key y == k) = some x ↔ x ∈ xs ∧ key x = k := by
  constructor
  · intro found
    exact ⟨List.mem_of_find?_eq_some found, by simpa using List.find?_some found⟩
  · rintro ⟨here, rfl⟩
    cases found : xs.find? (fun y => key y == key x) with
    | none => simpa using List.find?_eq_none.mp found x here
    | some y =>
      have same : key y = key x := by simpa using List.find?_some found
      rw [List.inj_on_of_nodup_map unique (List.mem_of_find?_eq_some found) here same]

def Edge.Touches (e : Edge K) (id : String) : Prop := e.source = id ∨ e.target = id

instance (e : Edge K) (id : String) : Decidable (e.Touches id) :=
  inferInstanceAs (Decidable (e.source = id ∨ e.target = id))

/-- Names are unique in each of the maps, and every list has the edges that touch its node, each of
them once. -/
structure Indexed (n : Network K) : Prop where
  nodes : (n.nodes.map (·.id)).Nodup
  edges : (n.edges.map (·.id)).Nodup
  lists : (n.adjacency.map (·.node)).Nodup
  once : ∀ l ∈ n.adjacency, l.edges.Nodup
  listed : ∀ l ∈ n.adjacency, ∀ id, id ∈ l.edges ↔ ∃ e ∈ n.edges, e.id = id ∧ e.Touches l.node

structure Consistent (n : Network K) : Prop extends Indexed n where
  /-- The lists are those of the nodes. -/
  keys : ∀ id, (∃ l ∈ n.adjacency, l.node = id) ↔ n.hasNode id
  ends : ∀ e ∈ n.edges, n.hasNode e.source ∧ n.hasNode e.target

theorem hasNode_iff {n : Network K} {id : String} : n.hasNode id ↔ ∃ v ∈ n.nodes, v.id = id := by
  simp [hasNode]

theorem mem_adjacency_withoutNode {n : Network K} {id : String} {l : Incidence} :
    l ∈ (n.withoutNode id).adjacency ↔ l ∈ n.adjacency ∧ l.node ≠ id := by
  simp [withoutNode]

theorem hasNode_withoutNode {n : Network K} {id i : String} :
    (n.withoutNode id).hasNode i ↔ n.hasNode i ∧ i ≠ id := by
  rw [hasNode_iff, hasNode_iff]
  constructor
  · rintro ⟨v, hv, rfl⟩
    obtain ⟨hv, other⟩ := List.mem_filter.mp hv
    exact ⟨⟨v, hv, rfl⟩, by simpa using other⟩
  · rintro ⟨⟨v, hv, rfl⟩, other⟩
    exact ⟨v, List.mem_filter.mpr ⟨hv, by simpa using other⟩, rfl⟩

namespace Incidence

/-- The list of a node without an edge. -/
def forget (l : Incidence) (id : String) : Incidence :=
  { l with edges := l.edges.filter fun e => e != id }

@[simp] theorem node_forget (l : Incidence) (id : String) : (l.forget id).node = l.node := rfl

@[simp] theorem edges_forget (l : Incidence) (id : String) :
    (l.forget id).edges = l.edges.filter fun e => e != id := rfl

theorem forget_forget (l : Incidence) (id : String) : (l.forget id).forget id = l.forget id := by
  simp [forget, List.filter_filter]

end Incidence

namespace Indexed

variable {n : Network K}

theorem node?_eq_some (indexed : n.Indexed) {id : String} {v : Node K} :
    n.node? id = some v ↔ v ∈ n.nodes ∧ v.id = id :=
  find?_eq_some_iff_of_nodup indexed.nodes

theorem edge?_eq_some (indexed : n.Indexed) {id : String} {e : Edge K} :
    n.edge? id = some e ↔ e ∈ n.edges ∧ e.id = id :=
  find?_eq_some_iff_of_nodup indexed.edges

theorem incidence?_eq_some (indexed : n.Indexed) {id : String} {l : Incidence} :
    n.incidence? id = some l ↔ l ∈ n.adjacency ∧ l.node = id :=
  find?_eq_some_iff_of_nodup indexed.lists

/-- The list of a node has the edges that touch it. -/
theorem mem_edges (indexed : n.Indexed) {l : Incidence} (hl : l ∈ n.adjacency) {e : Edge K}
    (he : e ∈ n.edges) : e.id ∈ l.edges ↔ e.Touches l.node := by
  rw [indexed.listed l hl]
  constructor
  · rintro ⟨e', he', same, touches⟩
    rwa [List.inj_on_of_nodup_map indexed.edges he' he same] at touches
  · exact fun touches => ⟨e, he, rfl, touches⟩

/-- The list of a node that an edge does not touch is without it. -/
theorem forget_eq (indexed : n.Indexed) {id : String} {l : Incidence} (here : l ∈ n.adjacency)
    (apart : ∀ e ∈ n.edges, e.id = id → ¬e.Touches l.node) : l.forget id = l := by
  have unlisted : id ∉ l.edges := by
    rw [indexed.listed l here]
    rintro ⟨e, he, same, touches⟩
    exact apart e he same touches
  have kept : l.edges.filter (fun e => e != id) = l.edges := by
    apply List.filter_eq_self.mpr
    intro e he
    have other : e ≠ id := fun same => unlisted (same ▸ he)
    simpa using other
  rw [Incidence.forget, kept]

/-- Every list is without an edge that is removed, and no other edge goes. -/
theorem removeEdge_eq (indexed : n.Indexed) (id : String) :
    n.removeEdge id = { n with
      edges := n.edges.filter fun e => e.id != id
      adjacency := n.adjacency.map (·.forget id) } := by
  rw [Network.removeEdge, after]
  cases found : n.edge? id with
  | none =>
    have absent : ∀ e ∈ n.edges, e.id ≠ id := by simpa [edge?] using found
    have edges : n.edges.filter (fun e => e.id != id) = n.edges :=
      List.filter_eq_self.mpr fun e he => by simpa using absent e he
    have lists : n.adjacency.map (·.forget id) = n.adjacency := by
      conv_rhs => rw [← List.map_id n.adjacency]
      exact List.map_congr_left fun l hl =>
        indexed.forget_eq hl fun e he same => absurd same (absent e he)
    rw [run_removeEdge_of_missing found, edges, lists]
  | some e =>
    obtain ⟨he, rfl⟩ := indexed.edge?_eq_some.mp found
    have lists : Incidence.retain e.target e.id (Incidence.retain e.source e.id n.adjacency) =
        n.adjacency.map (·.forget e.id) := by
      rw [Incidence.retain, Incidence.retain, List.map_map]
      apply List.map_congr_left
      intro l hl
      by_cases touches : e.Touches l.node
      · have idempotent := l.forget_forget e.id
        grind [Edge.Touches, Incidence.forget]
      · rw [indexed.forget_eq hl]
        · have := not_or.mp touches
          simp [Ne.symm this.1, Ne.symm this.2]
        · intro e' he' same
          rwa [List.inj_on_of_nodup_map indexed.edges he' he same]
    rw [run_removeEdge_of_edge? found, lists]

theorem hasNode_removeEdge (indexed : n.Indexed) (id : String) :
    (n.removeEdge id).hasNode = n.hasNode := by
  rw [indexed.removeEdge_eq]
  rfl

/-- What is left when an edge goes. -/
theorem removeEdge (indexed : n.Indexed) (id : String) : (n.removeEdge id).Indexed := by
  rw [indexed.removeEdge_eq]
  constructor
  · exact indexed.nodes
  · exact (List.filter_sublist.map _).nodup indexed.edges
  · simpa [List.map_map, Function.comp_def] using indexed.lists
  · intro l hl
    obtain ⟨l, here, rfl⟩ := List.mem_map.mp hl
    exact (indexed.once l here).filter _
  · intro l hl id'
    obtain ⟨l, here, rfl⟩ := List.mem_map.mp hl
    simp only [Incidence.edges_forget, Incidence.node_forget, List.mem_filter,
      indexed.listed l here]
    constructor
    · rintro ⟨⟨e, he, rfl, touches⟩, other⟩
      exact ⟨e, ⟨he, other⟩, rfl, touches⟩
    · rintro ⟨e, ⟨he, other⟩, rfl, touches⟩
      exact ⟨⟨e, he, rfl, touches⟩, other⟩

theorem withoutNode (indexed : n.Indexed) (id : String) : (n.withoutNode id).Indexed where
  nodes := (List.filter_sublist.map _).nodup indexed.nodes
  edges := indexed.edges
  lists := (List.filter_sublist.map _).nodup indexed.lists
  once l hl := indexed.once l (List.mem_of_mem_filter hl)
  listed l hl := indexed.listed l (List.mem_of_mem_filter hl)

theorem foldl_removeEdge (indexed : n.Indexed) (ids : List String) :
    (ids.foldl Network.removeEdge n).Indexed ∧
      (ids.foldl Network.removeEdge n).edges = n.edges.filter (fun e => e.id ∉ ids) ∧
      (ids.foldl Network.removeEdge n).nodes = n.nodes ∧
      (ids.foldl Network.removeEdge n).adjacency.map (·.node) = n.adjacency.map (·.node) := by
  induction ids generalizing n with
  | nil => exact ⟨indexed, by simp, rfl, rfl⟩
  | cons x xs ih =>
    obtain ⟨all, edges, nodes, lists⟩ := ih (indexed.removeEdge x)
    rw [List.foldl_cons]
    refine ⟨all, ?_, ?_, ?_⟩
    · rw [edges, indexed.removeEdge_eq, List.filter_filter]
      apply List.filter_congr
      intro e _
      by_cases same : e.id = x <;> simp [same]
    · rw [nodes, indexed.removeEdge_eq]
    · rw [lists, indexed.removeEdge_eq, List.map_map]
      rfl

end Indexed

namespace Consistent

variable {n : Network K}

theorem mem_lists (consistent : n.Consistent) {id : String} :
    id ∈ n.adjacency.map (·.node) ↔ n.hasNode id :=
  List.mem_map.trans (consistent.keys id)

theorem removeEdge (consistent : n.Consistent) (id : String) : (n.removeEdge id).Consistent := by
  have lists : (n.removeEdge id).adjacency.map (·.node) = n.adjacency.map (·.node) := by
    rw [consistent.removeEdge_eq, List.map_map]
    rfl
  refine ⟨consistent.toIndexed.removeEdge id, ?_, ?_⟩
  · intro i
    rw [consistent.hasNode_removeEdge, ← consistent.mem_lists, ← lists, List.mem_map]
  · intro e he
    rw [consistent.removeEdge_eq] at he
    rw [consistent.hasNode_removeEdge]
    exact consistent.ends e (List.mem_of_mem_filter he)

/-- A node goes with its list, and then the edges in the list go. -/
theorem removeNode_eq (consistent : n.Consistent) {v : Node K} (hv : v ∈ n.nodes) :
    ∃ l ∈ n.adjacency, l.node = v.id ∧
      n.removeNode v.id = l.edges.foldl Network.removeEdge (n.withoutNode v.id) := by
  obtain ⟨l, hl, own⟩ := (consistent.keys v.id).mpr (hasNode_iff.mpr ⟨v, hv, rfl⟩)
  have found := consistent.node?_eq_some.mpr ⟨hv, rfl⟩
  refine ⟨l, hl, own, ?_⟩
  rw [Network.removeNode, after,
    run_removeNode_of_node? found (consistent.incidence?_eq_some.mpr ⟨hl, own⟩)]

/-- The edges in the list of a node are all that touch it. -/
theorem removeNode (consistent : n.Consistent) (id : String) : (n.removeNode id).Consistent := by
  cases found : n.node? id with
  | none =>
    rw [removeNode_of_missing found]
    exact consistent
  | some v =>
    obtain ⟨hv, rfl⟩ := consistent.node?_eq_some.mp found
    obtain ⟨l, hl, own, removed⟩ := consistent.removeNode_eq hv
    rw [removed]
    obtain ⟨indexed, edges, nodes, lists⟩ :=
      (consistent.withoutNode v.id).foldl_removeEdge l.edges
    have known (i : String) : (l.edges.foldl Network.removeEdge (n.withoutNode v.id)).hasNode i ↔
        n.hasNode i ∧ i ≠ v.id := by
      rw [← hasNode_withoutNode, hasNode_iff, nodes, hasNode_iff]
    refine ⟨indexed, ?_, ?_⟩
    · intro i
      rw [known, ← List.mem_map, lists, ← consistent.mem_lists]
      simp only [List.mem_map, mem_adjacency_withoutNode]
      constructor
      · rintro ⟨k, ⟨hk, other⟩, rfl⟩
        exact ⟨⟨k, hk, rfl⟩, other⟩
      · rintro ⟨⟨k, hk, rfl⟩, other⟩
        exact ⟨k, ⟨hk, other⟩, rfl⟩
    · intro e he
      rw [edges, List.mem_filter, decide_eq_true_eq, consistent.listed l hl, own] at he
      obtain ⟨he, unlisted⟩ := he
      have apart : ¬e.Touches v.id := fun touches => unlisted ⟨e, he, rfl, touches⟩
      obtain ⟨source, target⟩ := consistent.ends e he
      exact ⟨(known _).mpr ⟨source, fun same => apart (Or.inl same)⟩,
        (known _).mpr ⟨target, fun same => apart (Or.inr same)⟩⟩

/-- Lists may take on any edges that touch their nodes. -/
theorem relist (consistent : n.Consistent) {f : Incidence → Incidence}
    (node_eq : ∀ l, (f l).node = l.node) {es : List (Edge K)} (unique : (es.map (·.id)).Nodup)
    (ends : ∀ e ∈ es, n.hasNode e.source ∧ n.hasNode e.target)
    (once : ∀ l ∈ n.adjacency, (f l).edges.Nodup)
    (listed : ∀ l ∈ n.adjacency, ∀ id,
      id ∈ (f l).edges ↔ ∃ e ∈ es, e.id = id ∧ e.Touches l.node) :
    Consistent { n with edges := es, adjacency := n.adjacency.map f } := by
  have ids : Incidence.node ∘ f = Incidence.node := funext node_eq
  have names : (n.adjacency.map f).map (·.node) = n.adjacency.map (·.node) := by
    rw [List.map_map]
    exact congrArg (n.adjacency.map ·) ids
  refine ⟨⟨consistent.nodes, unique, ?_, ?_, ?_⟩, ?_, ends⟩
  · rw [names]
    exact consistent.lists
  · rw [List.forall_mem_map]
    exact once
  · simp only [List.forall_mem_map, node_eq]
    exact listed
  · intro id
    rw [← List.mem_map, names, consistent.mem_lists]
    rfl

/-- Nodes may be any others with the same names. -/
theorem replaceNodes (consistent : n.Consistent) {vs : List (Node K)}
    (names : vs.map (·.id) = n.nodes.map (·.id)) : Consistent { n with nodes := vs } := by
  have known (id : String) : hasNode { n with nodes := vs } id ↔ n.hasNode id := by
    rw [hasNode_iff, hasNode_iff, ← List.mem_map, ← List.mem_map, names]
  refine ⟨⟨?_, consistent.edges, consistent.lists, consistent.once, consistent.listed⟩, ?_, ?_⟩
  · rw [names]
    exact consistent.nodes
  · intro id
    rw [known]
    exact consistent.keys id
  · intro e he
    rw [known, known]
    exact consistent.ends e he

/-- No edge touches a node that is not there, so that a new one has an empty list. -/
theorem appendNode (consistent : n.Consistent) {v : Node K} (missing : ¬n.hasNode v.id) :
    Consistent { n with nodes := n.nodes ++ [v], adjacency := n.adjacency ++ [⟨v.id, []⟩] } := by
  have apart : ∀ e ∈ n.edges, ¬e.Touches v.id := by
    intro e he touches
    obtain ⟨source, target⟩ := consistent.ends e he
    rcases touches with same | same
    · exact missing (same ▸ source)
    · exact missing (same ▸ target)
  have fresh : v.id ∉ n.nodes.map (·.id) := by simpa [hasNode] using missing
  have unlisted : v.id ∉ n.adjacency.map (·.node) := fun here =>
    missing (consistent.mem_lists.mp here)
  refine ⟨⟨?_, consistent.edges, ?_, ?_, ?_⟩, ?_, ?_⟩
  · rw [List.map_append]
    exact List.nodup_append_comm.mp (List.nodup_cons.mpr ⟨fresh, consistent.nodes⟩)
  · rw [List.map_append]
    exact List.nodup_append_comm.mp (List.nodup_cons.mpr ⟨unlisted, consistent.lists⟩)
  · intro l hl
    rcases List.mem_append.mp hl with hl | hl
    · exact consistent.once l hl
    · rw [List.mem_singleton.mp hl]
      exact List.nodup_nil
  · intro l hl id
    rcases List.mem_append.mp hl with hl | hl
    · exact consistent.listed l hl id
    · rw [List.mem_singleton.mp hl]
      constructor
      · nofun
      · rintro ⟨e, he, _, touches⟩
        exact absurd touches (apart e he)
  · intro id
    rw [hasNode_iff, ← List.mem_map, ← List.mem_map, List.map_append, List.map_append,
      List.mem_append, List.mem_append, consistent.mem_lists, hasNode_iff, ← List.mem_map]
    rfl
  · intro e he
    obtain ⟨source, target⟩ := consistent.ends e he
    simp only [hasNode, List.any_append, Bool.or_eq_true] at source target ⊢
    exact ⟨Or.inl source, Or.inl target⟩

/-- A node that moves keeps its list. -/
theorem addNode (consistent : n.Consistent) (id : String) (position : Position K) :
    (n.addNode id position).Consistent := by
  rw [Network.addNode, after, run_addNode]
  by_cases known : n.hasNode id
  · have lists : Incidence.update id (fun es => es) n.adjacency = n.adjacency := by
      rw [Incidence.update_of_mem consistent.lists _ ((consistent.keys id).mpr known)]
      conv_rhs => rw [← List.map_id n.adjacency]
      exact List.map_congr_left fun l _ => ite_self l
    have names : (put Node.id ⟨id, position⟩ n.nodes).map (·.id) = n.nodes.map (·.id) := by
      rw [map_put, if_pos (List.mem_map.mpr (hasNode_iff.mp known))]
    rw [lists]
    exact consistent.replaceNodes names
  · have lists : ∀ l ∈ n.adjacency, l.node ≠ id := fun l hl same =>
      known ((consistent.keys id).mp ⟨l, hl, same⟩)
    have fresh : ∀ v ∈ n.nodes, v.id ≠ id := fun v hv same => known (hasNode_iff.mpr ⟨v, hv, same⟩)
    rw [Incidence.update_of_missing _ lists, put_eq_append fresh]
    exact consistent.appendNode (v := ⟨id, position⟩) known

end Consistent

/-- The ends of an edge learn it, once each also where they are the same node. -/
theorem learned_eq {e : Edge K} {ls : List Incidence} (unique : (ls.map (·.node)).Nodup)
    (source : ∃ l ∈ ls, l.node = e.source) (target : ∃ l ∈ ls, l.node = e.target) :
    learned e ls = ls.map fun l => if e.Touches l.node then ⟨l.node, l.edges ++ [e.id]⟩ else l := by
  rw [learned, Incidence.update_of_mem unique _ source]
  split
  · rename_i apart
    have apart : e.target ≠ e.source := by simpa using apart
    rw [Incidence.update_of_mem, List.map_map]
    · apply List.map_congr_left
      intro l _
      by_cases first : l.node = e.source
      · simp [Edge.Touches, first, apart.symm]
      · by_cases second : l.node = e.target
        · simp [Edge.Touches, second, apart]
        · simp [Edge.Touches, first, second, Ne.symm first, Ne.symm second]
    · have names : (fun l : Incidence => (if l.node = e.source then
          (⟨l.node, l.edges ++ [e.id]⟩ : Incidence) else l).node) = (·.node) := by
        funext l
        split <;> rfl
      rw [List.map_map, Function.comp_def, names]
      exact unique
    · obtain ⟨l, hl, same⟩ := target
      refine ⟨_, List.mem_map_of_mem hl, ?_⟩
      split <;> exact same
  · rename_i loop
    have loop : e.target = e.source := by simpa using loop
    apply List.map_congr_left
    intro l _
    by_cases first : l.node = e.source
    · simp [Edge.Touches, first]
    · simp [Edge.Touches, loop, first, Ne.symm first]

namespace Consistent

/-- Consistency does not depend on the order of the edges. -/
theorem reorder {n : Network K} (consistent : n.Consistent) {es : List (Edge K)}
    (perm : es.Perm n.edges) : Consistent { n with edges := es } where
  nodes := consistent.nodes
  edges := (perm.map _).nodup_iff.mpr consistent.edges
  lists := consistent.lists
  once := consistent.once
  listed := by simpa only [perm.mem_iff] using consistent.listed
  keys := consistent.keys
  ends e here := consistent.ends e (perm.mem_iff.mp here)

/-- A new edge between nodes of the network is learned by its ends. -/
theorem appendEdge {n : Network K} (consistent : n.Consistent) {e : Edge K}
    (fresh : ∀ e' ∈ n.edges, e'.id ≠ e.id) (source : n.hasNode e.source)
    (target : n.hasNode e.target) :
    Consistent { n with edges := n.edges ++ [e], adjacency := learned e n.adjacency } := by
  rw [learned_eq consistent.lists ((consistent.keys _).mpr source) ((consistent.keys _).mpr target)]
  apply consistent.relist
  · intro l
    split <;> rfl
  · rw [List.map_append]
    refine List.nodup_append_comm.mp (List.nodup_cons.mpr ⟨?_, consistent.edges⟩)
    intro here
    obtain ⟨e', he', same⟩ := List.mem_map.mp here
    exact fresh e' he' same
  · intro e' he'
    rcases List.mem_append.mp he' with he' | he'
    · exact consistent.ends e' he'
    · rw [List.mem_singleton.mp he']
      exact ⟨source, target⟩
  · intro l hl
    split
    · have unlisted : e.id ∉ l.edges := by
        rw [consistent.listed l hl]
        rintro ⟨e', he', same, _⟩
        exact fresh e' he' same
      exact List.nodup_append_comm.mp (List.nodup_cons.mpr ⟨unlisted, consistent.once l hl⟩)
    · exact consistent.once l hl
  · intro l hl id
    have new : (∃ e' ∈ n.edges ++ [e], e'.id = id ∧ e'.Touches l.node) ↔
        id ∈ l.edges ∨ e.id = id ∧ e.Touches l.node := by
      rw [consistent.listed l hl]
      simp only [List.mem_append, List.mem_singleton, or_and_right, exists_or, exists_eq_left]
    rw [new]
    split
    · rename_i touches
      simp [touches, eq_comm]
    · rename_i apart
      simp [apart]

theorem addEdge [Scalar K] {n : Network K} (consistent : n.Consistent) {e : Edge K} {n' : Network K}
    (added : n.addEdge e = .ok n') : n'.Consistent := by
  obtain ⟨⟨source, target, _⟩, rfl⟩ := addEdge_eq_ok.mp added
  have known := consistent.hasNode_removeEdge e.id
  have fresh : ∀ e' ∈ (n.removeEdge e.id).edges, e'.id ≠ e.id := by
    intro e' he'
    rw [consistent.removeEdge_eq] at he'
    simpa using List.of_mem_filter he'
  rw [put_eq_append fresh]
  exact (consistent.removeEdge e.id).appendEdge fresh (known ▸ source) (known ▸ target)

end Consistent

/-- Commands on a network. -/
inductive Command (K : Type) where
  | addNode (id : String) (position : Position K)
  | removeNode (id : String)
  | addEdge (e : Edge K)
  | removeEdge (id : String)

/-- What a command answers: a removal gives what it removed, if there was something. -/
inductive Reply (K : Type) where
  | done
  | refused (f : Fault K)
  | node (removed? : Option (Node K))
  | edge (removed? : Option (Edge K))

variable [Scalar K]

def Command.change : Command K → Change K (Reply K)
  | .addNode id position => do Change.addNode id position; return .done
  | .removeNode id => return .node (← Change.removeNode id)
  | .addEdge e => do Change.addEdge e; return .done
  | .removeEdge id => return .edge (← Change.removeEdge id)

/-- What a command leaves behind, whether it goes through or fails. -/
def perform (n : Network K) (c : Command K) : Network K := n.after c.change

/-- The network after some commands. -/
def run (n : Network K) (cs : List (Command K)) : Network K := cs.foldl perform n

/-- Networks that commands make of an empty one. -/
def Built (n : Network K) : Prop := ∃ metric cs, (empty metric).run cs = n

section Perform

variable {n : Network K}

@[simp] theorem perform_addNode (n : Network K) (id : String) (position : Position K) :
    n.perform (.addNode id position) = n.addNode id position := rfl

omit [Scalar K] in
theorem after_bind_pure {α β : Type} (n : Network K) (c : Change K α) (f : α → β) :
    n.after (c >>= fun x => pure (f x)) = n.after c := by
  rw [after, after]
  cases first : c.run n with
  | ok x n' => rw [run_bind_of_ok first]; rfl
  | error g n' => rw [run_bind_of_error first]

@[simp] theorem perform_removeNode (n : Network K) (id : String) :
    n.perform (.removeNode id) = n.removeNode id := n.after_bind_pure ..

@[simp] theorem perform_removeEdge (n : Network K) (id : String) :
    n.perform (.removeEdge id) = n.removeEdge id := n.after_bind_pure ..

theorem perform_addEdge_of_ok {e : Edge K} {n' : Network K} (added : n.addEdge e = .ok n') :
    n.perform (.addEdge e) = n' := by
  obtain ⟨⟨source, target, finite⟩, rfl⟩ := addEdge_eq_ok.mp added
  refine (n.after_bind_pure _ _).trans ?_
  rw [after, run_addEdge_of_admitted source target finite]

theorem perform_addEdge_of_error {e : Edge K} {f : Fault K} (refused : n.addEdge e = .error f) :
    n.perform (.addEdge e) = n := by
  have rejected : ¬(n.hasNode e.source ∧ n.hasNode e.target ∧ Scalar.isFinite e.cost = true) := by
    intro admitted
    rw [addEdge_eq_ok.mpr ⟨admitted, rfl⟩] at refused
    exact nomatch refused
  obtain ⟨f, failed⟩ := run_addEdge_of_refused rejected
  refine (n.after_bind_pure _ _).trans ?_
  rw [after, failed]

end Perform

omit [Scalar K] in
theorem consistent_empty (metric : Metric) : (empty metric : Network K).Consistent where
  nodes := List.nodup_nil
  edges := List.nodup_nil
  lists := List.nodup_nil
  once := nofun
  listed := nofun
  keys := by simp [empty, hasNode]
  ends := nofun

theorem Consistent.perform {n : Network K} (consistent : n.Consistent) (c : Command K) :
    (n.perform c).Consistent := by
  cases c with
  | addNode id position => exact consistent.addNode id position
  | removeNode id =>
    rw [perform_removeNode]
    exact consistent.removeNode id
  | addEdge e =>
    cases added : n.addEdge e with
    | ok n' =>
      rw [perform_addEdge_of_ok added]
      exact consistent.addEdge added
    | error f =>
      rw [perform_addEdge_of_error added]
      exact consistent
  | removeEdge id =>
    rw [perform_removeEdge]
    exact consistent.removeEdge id

theorem Consistent.run {n : Network K} (consistent : n.Consistent) (cs : List (Command K)) :
    (n.run cs).Consistent := by
  induction cs generalizing n with
  | nil => exact consistent
  | cons c cs ih => exact ih (consistent.perform c)

theorem Built.consistent {n : Network K} (built : n.Built) : n.Consistent := by
  obtain ⟨metric, cs, rfl⟩ := built
  exact (consistent_empty metric).run cs

section FiniteCosts

/-- All costs are finite. -/
def FiniteCosts (n : Network K) : Prop := ∀ e ∈ n.edges, Scalar.isFinite e.cost = true

namespace FiniteCosts

variable {n : Network K}

theorem foldl_removeEdge (finite : n.FiniteCosts) (indexed : n.Indexed) (ids : List String) :
    (ids.foldl removeEdge n).FiniteCosts := by
  intro e he
  rw [(indexed.foldl_removeEdge ids).2.1] at he
  exact finite e (List.mem_of_mem_filter he)

theorem removeNode (finite : n.FiniteCosts) (consistent : n.Consistent) (id : String) :
    (n.removeNode id).FiniteCosts := by
  cases found : n.node? id with
  | none =>
    rw [removeNode_of_missing found]
    exact finite
  | some v =>
    obtain ⟨hv, rfl⟩ := consistent.node?_eq_some.mp found
    obtain ⟨l, -, -, removed⟩ := consistent.removeNode_eq hv
    rw [removed]
    exact foldl_removeEdge (n := n.withoutNode v.id) finite (consistent.withoutNode v.id) l.edges

theorem perform (finite : n.FiniteCosts) (consistent : n.Consistent) (c : Command K) :
    (n.perform c).FiniteCosts := by
  cases c with
  | addNode id position => exact finite
  | removeNode id =>
    rw [perform_removeNode]
    exact finite.removeNode consistent id
  | removeEdge id =>
    rw [perform_removeEdge]
    exact finite.foldl_removeEdge consistent.toIndexed [id]
  | addEdge new =>
    cases added : n.addEdge new with
    | ok n' =>
      rw [perform_addEdge_of_ok added]
      obtain ⟨⟨_, _, cost⟩, rfl⟩ := addEdge_eq_ok.mp added
      intro e he
      rcases mem_put he with rfl | kept
      · exact cost
      · exact finite.foldl_removeEdge consistent.toIndexed [new.id] e kept
    | error f =>
      rw [perform_addEdge_of_error added]
      exact finite

end FiniteCosts

theorem Built.finite {n : Network K} (built : n.Built) : n.FiniteCosts := by
  obtain ⟨metric, cs, rfl⟩ := built
  have each (m : Network K) (finite : m.FiniteCosts) (consistent : m.Consistent) :
      (m.run cs).FiniteCosts := by
    induction cs generalizing m with
    | nil => exact finite
    | cons c cs ih =>
      exact ih (m.perform c) (finite.perform consistent c) (consistent.perform c)
  exact each _ nofun (consistent_empty metric)

end FiniteCosts

end Geospatial.Network
