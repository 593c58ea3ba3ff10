import Mathlib.Data.List.Nodup
import Geospatial.Network

/-! What each change leaves behind, on any network: the maps after it, and for a change that may
fail also where it fails. -/
namespace Geospatial.Network

variable {K : Type}

/-- What has no element of its name is put at the end. -/
theorem put_eq_append {α : Type} {name : α → String} {x : α} {xs : List α}
    (fresh : ∀ y ∈ xs, name y ≠ name x) : put name x xs = xs ++ [x] := by
  induction xs with
  | nil => rfl
  | cons y ys ih =>
    obtain ⟨first, rest⟩ := List.forall_mem_cons.mp fresh
    simp [put, first, ih rest]

/-- The names after something is put in its place. -/
theorem map_put {α : Type} (name : α → String) (x : α) (xs : List α) :
    (put name x xs).map name =
      if name x ∈ xs.map name then xs.map name else xs.map name ++ [name x] := by
  induction xs with
  | nil => rfl
  | cons y ys ih =>
    rw [put]
    split
    · rename_i taken
      have taken : name y = name x := by simpa using taken
      simp [taken]
    · rename_i apart
      have apart : name y ≠ name x := by simpa using apart
      rw [List.map_cons, ih]
      by_cases here : name x ∈ ys.map name <;> simp [here, Ne.symm apart]

theorem mem_put {α : Type} {name : α → String} {x y : α} {xs : List α} (here : y ∈ put name x xs) :
    y = x ∨ y ∈ xs := by
  induction xs with
  | nil => exact .inl (List.mem_singleton.mp here)
  | cons z zs ih =>
    rw [put] at here
    split at here
    · rcases List.mem_cons.mp here with rfl | rest
      · exact .inl rfl
      · exact .inr (List.mem_cons_of_mem z rest)
    · rcases List.mem_cons.mp here with rfl | rest
      · exact .inr List.mem_cons_self
      · exact (ih rest).imp_right (List.mem_cons_of_mem z)

namespace Incidence

/-- A list that there is gets changed where it is. -/
theorem update_of_mem {ls : List Incidence} (unique : (ls.map Incidence.node).Nodup)
    {node : String} (f : List String → List String) (here : ∃ l ∈ ls, l.node = node) :
    update node f ls = ls.map fun l => if l.node = node then ⟨l.node, f l.edges⟩ else l := by
  induction ls with
  | nil => exact absurd here (by simp)
  | cons l ls ih =>
    obtain ⟨fresh, unique⟩ := List.nodup_cons.mp unique
    rw [update, List.map_cons]
    by_cases first : l.node = node
    · have others : ∀ k ∈ ls, k.node ≠ node := by
        rintro k hk rfl
        exact fresh (List.mem_map.mpr ⟨k, hk, first.symm⟩)
      have kept : (ls.map fun l => if l.node = node then ⟨l.node, f l.edges⟩ else l) = ls := by
        conv_rhs => rw [← List.map_id ls]
        exact List.map_congr_left fun k hk => if_neg (others k hk)
      simp [first, kept]
    · obtain ⟨k, hk, same⟩ := here
      rcases List.mem_cons.mp hk with rfl | hk
      · exact absurd same first
      · simp [first, ih unique ⟨k, hk, same⟩]

/-- A node without a list gets one. -/
theorem update_of_missing {ls : List Incidence} {node : String} (f : List String → List String)
    (missing : ∀ l ∈ ls, l.node ≠ node) : update node f ls = ls ++ [⟨node, f []⟩] := by
  induction ls with
  | nil => rfl
  | cons l ls ih =>
    obtain ⟨first, rest⟩ := List.forall_mem_cons.mp missing
    simp [update, first, ih rest]

end Incidence

section Runs

variable {α β : Type}

/-- A change goes on from what the one before it has left behind. -/
theorem run_bind_of_ok {c : Change K α} {n n' : Network K} {x : α} (first : c.run n = .ok x n')
    (rest : α → Change K β) : (c >>= rest).run n = (rest x).run n' := by
  change EStateM.bind c rest n = rest x n'
  rw [EStateM.bind, show c n = .ok x n' from first]

/-- It ends where one before it fails. -/
theorem run_bind_of_error {c : Change K α} {n n' : Network K} {f : Fault K}
    (first : c.run n = .error f n') (rest : α → Change K β) :
    (c >>= rest).run n = .error f n' := by
  change EStateM.bind c rest n = _
  rw [EStateM.bind, show c n = .error f n' from first]

theorem run_get_bind (rest : Network K → Change K β) (n : Network K) :
    (get >>= rest : Change K β).run n = (rest n).run n := rfl

theorem run_modify_bind (f : Network K → Network K) (rest : PUnit → Change K β) (n : Network K) :
    (modify f >>= rest : Change K β).run n = (rest ⟨⟩).run (f n) := rfl

end Runs

theorem run_addNode (n : Network K) (id : String) (position : Position K) :
    (Change.addNode id position).run n = .ok () { n with
      nodes := put Node.id ⟨id, position⟩ n.nodes
      adjacency := Incidence.update id (fun es => es) n.adjacency } := rfl

section RemoveEdge

variable {n : Network K} {id : String}

theorem run_removeEdge_of_missing (missing : n.edge? id = none) :
    (Change.removeEdge id).run n = .ok none n := by
  rw [Change.removeEdge, run_get_bind, missing]
  rfl

theorem removeEdge_of_missing (missing : n.edge? id = none) : n.removeEdge id = n := by
  rw [removeEdge, after, run_removeEdge_of_missing missing]

theorem run_removeEdge_of_edge? {e : Edge K} (found : n.edge? id = some e) :
    (Change.removeEdge id).run n = .ok (some e) { n with
      edges := n.edges.filter fun e => e.id != id
      adjacency := Incidence.retain e.target id (Incidence.retain e.source id n.adjacency) } := by
  rw [Change.removeEdge, run_get_bind, found]
  rfl

/-- An edge is taken out or there is none. Either way the change goes through. -/
theorem run_removeEdge (n : Network K) (id : String) :
    (Change.removeEdge id).run n = .ok (n.edge? id) (n.removeEdge id) := by
  rw [removeEdge, after]
  cases found : n.edge? id with
  | none => rw [run_removeEdge_of_missing found]
  | some e => rw [run_removeEdge_of_edge? found]

theorem run_discard_removeEdge (n : Network K) (id : String) :
    (discard (Change.removeEdge id)).run n = .ok () (n.removeEdge id) := by
  change (Change.removeEdge id >>= fun _ => pure ()).run n = _
  rw [run_bind_of_ok (run_removeEdge n id)]
  rfl

theorem run_forM_removeEdge (ids : List String) (n : Network K) :
    (ids.forM fun e => discard (Change.removeEdge e)).run n =
      .ok () (ids.foldl removeEdge n) := by
  induction ids generalizing n with
  | nil => rfl
  | cons x xs ih =>
    rw [List.foldl_cons, ← ih (n.removeEdge x)]
    exact run_bind_of_ok (run_discard_removeEdge n x) _

end RemoveEdge

section RemoveNode

variable {n : Network K} {id : String}

theorem run_removeNode_of_missing (missing : n.node? id = none) :
    (Change.removeNode id).run n = .ok none n := by
  rw [Change.removeNode, run_get_bind, missing]
  rfl

theorem removeNode_of_missing (missing : n.node? id = none) : n.removeNode id = n := by
  rw [removeNode, after, run_removeNode_of_missing missing]

/-- A network without a node and its list; the edges stay, and may be without an end. -/
def withoutNode (n : Network K) (id : String) : Network K :=
  { n with
    nodes := n.nodes.filter fun v => v.id != id
    adjacency := n.adjacency.filter fun l => l.node != id }

/-- The node goes first, then its list, and then the edges that were in the list. -/
theorem run_removeNode_of_node? {v : Node K} {l : Incidence} (found : n.node? id = some v)
    (listing : n.incidence? id = some l) :
    (Change.removeNode id).run n = .ok (some v) (l.edges.foldl removeEdge (n.withoutNode id)) := by
  have listing : incidence? { n with nodes := n.nodes.filter fun v => v.id != id } id = some l :=
    listing
  rw [Change.removeNode, run_get_bind, found]
  dsimp only
  rw [run_modify_bind, run_get_bind, listing]
  dsimp only
  rw [run_modify_bind, run_bind_of_ok (run_forM_removeEdge l.edges _)]
  rfl

/-- A removal answers with the node that was there. -/
theorem run_removeNode (n : Network K) (id : String) :
    (Change.removeNode id).run n = .ok (n.node? id) (n.removeNode id) := by
  rw [removeNode, after]
  cases found : n.node? id with
  | none => rw [run_removeNode_of_missing found]
  | some v =>
    cases listing : n.incidence? id with
    | none =>
      have listing : incidence? { n with nodes := n.nodes.filter fun v => v.id != id } id = none :=
        listing
      rw [Change.removeNode, run_get_bind, found]
      dsimp only
      rw [run_modify_bind, run_get_bind, listing]
      rfl
    | some l => rw [run_removeNode_of_node? found listing]

end RemoveNode

section AddEdge

variable [Scalar K] {n : Network K} {e : Edge K}

/-- The lists after the ends of an edge have learnt it. -/
def learned (e : Edge K) (ls : List Incidence) : List Incidence :=
  let first := Incidence.update e.source (· ++ [e.id]) ls
  if e.target != e.source then Incidence.update e.target (· ++ [e.id]) first else first

omit [Scalar K] in
/-- The ends are looked up before anything is changed. -/
theorem run_requireEnd (n : Network K) (e : Edge K) (id : String) :
    (Change.requireEnd e id).run n =
      if n.hasNode id then .ok () n else .error (.topology (.unknownEndpoint e.id id)) n := by
  rw [Change.requireEnd, run_get_bind]
  cases n.hasNode id <;> rfl

omit [Scalar K] in
theorem run_requireEnds (source : n.hasNode e.source) (target : n.hasNode e.target) :
    ([e.source, e.target].forM (Change.requireEnd e)).run n = .ok () n := by
  have first := n.run_requireEnd e e.source
  have second := n.run_requireEnd e e.target
  rw [if_pos source] at first
  rw [if_pos target] at second
  exact (run_bind_of_ok first _).trans (run_bind_of_ok second _)

theorem run_addEdge_of_admitted (source : n.hasNode e.source) (target : n.hasNode e.target)
    (finite : Scalar.isFinite e.cost = true) :
    (Change.addEdge e).run n = .ok () { n.removeEdge e.id with
      edges := put Edge.id e (n.removeEdge e.id).edges
      adjacency := learned e (n.removeEdge e.id).adjacency } := by
  rw [Change.addEdge, run_bind_of_ok (run_requireEnds source target), finite]
  rw [Bool.not_true, if_neg Bool.false_ne_true]
  change (discard (Change.removeEdge e.id) >>= _).run n = _
  rw [run_bind_of_ok (run_discard_removeEdge n e.id), run_modify_bind]
  cases apart : e.target != e.source <;> simp only [learned, apart] <;> rfl

/-- An edge is refused before anything is changed. -/
theorem run_addEdge_of_refused
    (refused : ¬(n.hasNode e.source ∧ n.hasNode e.target ∧ Scalar.isFinite e.cost = true)) :
    ∃ f, (Change.addEdge e).run n = .error f n := by
  have first := n.run_requireEnd e e.source
  have second := n.run_requireEnd e e.target
  by_cases source : n.hasNode e.source
  · rw [if_pos source] at first
    by_cases target : n.hasNode e.target
    · have infinite : Scalar.isFinite e.cost = false := by simpa [source, target] using refused
      refine ⟨.input (.edgeCost e.id e.cost), ?_⟩
      rw [Change.addEdge, run_bind_of_ok (run_requireEnds source target), infinite]
      rfl
    · rw [if_neg target] at second
      have ends := (run_bind_of_ok first fun _ => [e.target].forM (Change.requireEnd e)).trans
        (run_bind_of_error second _)
      exact ⟨_, run_bind_of_error ends _⟩
  · rw [if_neg source] at first
    exact ⟨_, run_bind_of_error (run_bind_of_error first _) _⟩

/-- An edge is added where its ends are nodes and its cost is finite. -/
theorem addEdge_eq_ok {n' : Network K} : n.addEdge e = .ok n' ↔
    (n.hasNode e.source ∧ n.hasNode e.target ∧ Scalar.isFinite e.cost = true) ∧
      n' = { n.removeEdge e.id with
        edges := put Edge.id e (n.removeEdge e.id).edges
        adjacency := learned e (n.removeEdge e.id).adjacency } := by
  rw [addEdge]
  by_cases admitted : n.hasNode e.source ∧ n.hasNode e.target ∧ Scalar.isFinite e.cost = true
  · obtain ⟨source, target, finite⟩ := admitted
    rw [run_addEdge_of_admitted source target finite]
    simp [source, target, finite, eq_comm]
  · obtain ⟨f, run⟩ := run_addEdge_of_refused admitted
    rw [run]
    simp [admitted]

end AddEdge

end Geospatial.Network
