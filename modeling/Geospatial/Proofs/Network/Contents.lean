import Mathlib.Logic.Function.Basic
import Geospatial.Proofs.Network.Consistency

/-! What commands make of a network, as lookups by name show it: where the nodes are and which
edges there are. The lists of the nodes follow from these, after any commands, and a command that
fails leaves all three maps as they were. -/
namespace Geospatial.Network

variable {K : Type}

/-- The edges in the list of a node. -/
def incident? (n : Network K) (id : String) : Option (List String) :=
  (n.incidence? id).map (·.edges)

/-- Places of nodes and edges by name, without the lists. -/
@[ext] structure Contents (K : Type) where
  place? : String → Option (Position K)
  edge? : String → Option (Edge K)

def contents (n : Network K) : Contents K := ⟨fun id => (n.node? id).map (·.position), n.edge?⟩

namespace Contents

def empty : Contents K := ⟨fun _ => none, fun _ => none⟩

variable [Scalar K]

/-- An edge goes between nodes and has a finite cost. -/
def Admits (m : Contents K) (e : Edge K) : Prop :=
  (m.place? e.source).isSome ∧ (m.place? e.target).isSome ∧ Scalar.isFinite e.cost = true

instance (m : Contents K) (e : Edge K) : Decidable (m.Admits e) :=
  inferInstanceAs (Decidable (_ ∧ _ ∧ _))

/-- What a command asks for. Edges go with the nodes that they touch, an edge takes the place of
the one with its name, and what is not there is not removed. -/
def after (m : Contents K) : Command K → Contents K
  | .addNode id position => { m with place? := Function.update m.place? id (some position) }
  | .removeNode id =>
    ⟨Function.update m.place? id none, fun i => (m.edge? i).filter fun e => ¬e.Touches id⟩
  | .addEdge e =>
    if m.Admits e then { m with edge? := Function.update m.edge? e.id (some e) } else m
  | .removeEdge id => { m with edge? := Function.update m.edge? id none }

end Contents

/-- A search finds something where something passes its test. -/
theorem isSome_node? (n : Network K) (id : String) : (n.node? id).isSome = n.hasNode id := by
  rw [Bool.eq_iff_iff, node?, List.find?_isSome, hasNode, List.any_eq_true]

theorem isSome_place? (n : Network K) (id : String) :
    (n.contents.place? id).isSome = n.hasNode id := by
  rw [contents, Option.isSome_map, isSome_node?]

theorem Consistent.isSome_incident? {n : Network K} (consistent : n.Consistent) (id : String) :
    (n.incident? id).isSome = n.hasNode id := by
  rw [Bool.eq_iff_iff, ← consistent.keys, incident?, Option.isSome_map, incidence?,
    List.find?_isSome]
  simp

/-- Of elements found by their names, those with one name are taken out. -/
theorem find?_filter_ne {α : Type} (name : α → String) (xs : List α) (id : String) :
    (fun i => (xs.filter fun x => name x != id).find? fun x => name x == i) =
      Function.update (fun i => xs.find? fun x => name x == i) id none := by
  funext i
  rw [List.find?_filter]
  by_cases same : i = id
  · subst same
    rw [Function.update_self]
    exact List.find?_eq_none.mpr fun x _ => by simp
  · rw [Function.update_of_ne same]
    congr 1
    funext x
    by_cases here : name x = i
    · simp [here, same]
    · simp [here]

/-- What is put among elements found by their names is found by its own. -/
theorem find?_put {α : Type} (name : α → String) (x : α) (xs : List α) :
    (fun i => (put name x xs).find? fun y => name y == i) =
      Function.update (fun i => xs.find? fun y => name y == i) (name x) (some x) := by
  induction xs with
  | nil =>
    funext i
    by_cases same : name x = i
    · simp [put, same]
    · simp [put, same, Function.update_of_ne (Ne.symm same)]
  | cons y ys ih =>
    rw [put]
    split
    · rename_i taken
      have taken : name y = name x := by simpa using taken
      funext i
      by_cases same : name x = i
      · simp [same]
      · simp [taken, same, Function.update_of_ne (Ne.symm same)]
    · rename_i apart
      have apart : name y ≠ name x := by simpa using apart
      funext i
      rw [List.find?_cons, congrFun ih i]
      by_cases same : name x = i
      · subst same
        rw [Function.update_self, beq_false_of_ne apart, Function.update_self]
      · simp [List.find?_cons, Function.update_of_ne (Ne.symm same)]

theorem contents_addNode (n : Network K) (id : String) (position : Position K) :
    (n.addNode id position).contents =
      ⟨Function.update n.contents.place? id (some position), n.edge?⟩ := by
  refine Contents.ext (funext fun i => ?_) rfl
  have placed := congrFun (find?_put Node.id ⟨id, position⟩ n.nodes) i
  change Option.map _ ((put Node.id ⟨id, position⟩ n.nodes).find? _) = _
  rw [placed]
  by_cases same : i = id <;> simp [same, contents, node?]

namespace Indexed

variable {n : Network K}

theorem contents_removeEdge (indexed : n.Indexed) (id : String) :
    (n.removeEdge id).contents = ⟨n.contents.place?, Function.update n.edge? id none⟩ := by
  rw [indexed.removeEdge_eq]
  exact Contents.ext rfl (find?_filter_ne Edge.id n.edges id)

theorem contents_foldl_removeEdge (indexed : n.Indexed) (ids : List String) :
    (ids.foldl Network.removeEdge n).contents =
      ⟨n.contents.place?, fun i => if i ∈ ids then none else n.edge? i⟩ := by
  induction ids generalizing n with
  | nil => simp [contents]
  | cons x xs ih =>
    have first := indexed.contents_removeEdge x
    have edges : (n.removeEdge x).edge? = Function.update n.edge? x none :=
      congrArg Contents.edge? first
    rw [List.foldl_cons, ih (indexed.removeEdge x), first, edges]
    refine Contents.ext rfl (funext fun i => ?_)
    by_cases same : i = x <;> simp [same]

end Indexed

namespace Consistent

variable {n : Network K}

/-- The edges that touch a node are those in its list. -/
theorem contents_removeNode (consistent : n.Consistent) (id : String) :
    (n.removeNode id).contents = ⟨Function.update n.contents.place? id none,
      fun i => (n.edge? i).filter fun e => ¬e.Touches id⟩ := by
  cases found : n.node? id with
  | none =>
    have unknown : ¬n.hasNode id := by simp [← isSome_node?, found]
    rw [removeNode_of_missing found]
    refine Contents.ext ?_ (funext fun i => ?_)
    · exact (Function.update_eq_self_iff.mpr (by simp [contents, found])).symm
    · cases known : n.edge? i with
      | none => simp [contents, known]
      | some e =>
        obtain ⟨source, target⟩ := consistent.ends e (consistent.edge?_eq_some.mp known).1
        have apart : ¬e.Touches id := by
          rintro (rfl | rfl)
          · exact unknown source
          · exact unknown target
        simp [contents, known, apart, Option.filter]
  | some v =>
    obtain ⟨here, rfl⟩ := consistent.node?_eq_some.mp found
    obtain ⟨l, hl, own, removed⟩ := consistent.removeNode_eq here
    rw [removed, (consistent.withoutNode v.id).contents_foldl_removeEdge l.edges]
    refine Contents.ext (funext fun i => ?_) (funext fun i => ?_)
    · have others := congrFun (find?_filter_ne Node.id n.nodes v.id) i
      simp only [contents, node?, withoutNode, others]
      by_cases same : i = v.id <;> simp [same]
    · change (if i ∈ l.edges then none else n.edge? i) = _
      cases known : n.edge? i with
      | none => simp [known]
      | some e =>
        obtain ⟨he, rfl⟩ := consistent.edge?_eq_some.mp known
        by_cases joined : e.Touches v.id <;>
          simp [known, consistent.mem_edges hl he, own, joined, Option.filter]

variable [Scalar K]

theorem contents_addEdge (consistent : n.Consistent) {e : Edge K} {n' : Network K}
    (added : n.addEdge e = .ok n') :
    n'.contents = ⟨n.contents.place?, Function.update n.edge? e.id (some e)⟩ := by
  obtain ⟨_, rfl⟩ := addEdge_eq_ok.mp added
  obtain ⟨places, edges⟩ := Contents.ext_iff.mp (consistent.contents_removeEdge e.id)
  refine Contents.ext places ?_
  have placed := find?_put Edge.id e (n.removeEdge e.id).edges
  have edges : (fun i => (n.removeEdge e.id).edges.find? fun e => e.id == i) =
      Function.update n.edge? e.id none := edges
  rw [edges, Function.update_idem] at placed
  exact placed

end Consistent

/-- An edge is refused exactly where the contents do not admit it. -/
theorem addEdge_isOk [Scalar K] (n : Network K) (e : Edge K) :
    (n.addEdge e).isOk = decide (n.contents.Admits e) := by
  rw [Bool.eq_iff_iff, decide_eq_true_iff]
  simp only [Contents.Admits, isSome_place?]
  cases added : n.addEdge e with
  | ok n' => exact iff_of_true rfl (addEdge_eq_ok.mp added).1
  | error f =>
    refine iff_of_false Bool.false_ne_true fun admitted => ?_
    rw [addEdge_eq_ok.mpr ⟨admitted, rfl⟩] at added
    exact nomatch added

namespace Reply

/-- A fault, or nothing in place of what was to be removed. -/
def failed : Reply K → Bool
  | .done => false
  | .refused _ => true
  | .node removed? => removed?.isNone
  | .edge removed? => removed?.isNone

end Reply

variable [Scalar K] {n : Network K}

/-- What a command answers, also where it fails. -/
def reply (n : Network K) (c : Command K) : Reply K :=
  match c.change.run n with
  | .ok r _ => r
  | .error f _ => .refused f

theorem reply_removeNode (n : Network K) (id : String) :
    n.reply (.removeNode id) = .node (n.node? id) := by
  rw [reply, Command.change, run_bind_of_ok (n.run_removeNode id)]
  rfl

theorem reply_removeEdge (n : Network K) (id : String) :
    n.reply (.removeEdge id) = .edge (n.edge? id) := by
  rw [reply, Command.change, run_bind_of_ok (n.run_removeEdge id)]
  rfl

theorem reply_addEdge_of_ok {e : Edge K} {n' : Network K} (added : n.addEdge e = .ok n') :
    n.reply (.addEdge e) = .done := by
  obtain ⟨⟨source, target, finite⟩, _⟩ := addEdge_eq_ok.mp added
  rw [reply, Command.change, run_bind_of_ok (run_addEdge_of_admitted source target finite)]
  rfl

/-- The checks come first, so that there is nothing to take back. -/
theorem perform_of_failed {c : Command K} (failed : (n.reply c).failed) : n.perform c = n := by
  cases c with
  | addNode id position => contradiction
  | removeNode id =>
    have missing : n.node? id = none := by simpa [reply_removeNode, Reply.failed] using failed
    rw [perform_removeNode, removeNode_of_missing missing]
  | addEdge e =>
    cases added : n.addEdge e with
    | ok n' => simp [reply_addEdge_of_ok added, Reply.failed] at failed
    | error f => exact perform_addEdge_of_error added
  | removeEdge id =>
    have missing : n.edge? id = none := by simpa [reply_removeEdge, Reply.failed] using failed
    rw [perform_removeEdge, removeEdge_of_missing missing]

theorem Consistent.contents_perform (consistent : n.Consistent) (c : Command K) :
    (n.perform c).contents = n.contents.after c := by
  cases c with
  | addNode id position => exact contents_addNode n id position
  | removeNode id =>
    rw [perform_removeNode]
    exact consistent.contents_removeNode id
  | addEdge e =>
    have admitted := n.addEdge_isOk e
    rw [Contents.after]
    cases added : n.addEdge e with
    | ok n' =>
      rw [added] at admitted
      rw [if_pos (of_decide_eq_true admitted.symm), perform_addEdge_of_ok added]
      exact consistent.contents_addEdge added
    | error f =>
      rw [added] at admitted
      rw [if_neg (of_decide_eq_false admitted.symm), perform_addEdge_of_error added]
  | removeEdge id =>
    rw [perform_removeEdge]
    exact consistent.contents_removeEdge id

theorem Consistent.contents_run (consistent : n.Consistent) (cs : List (Command K)) :
    (n.run cs).contents = cs.foldl Contents.after n.contents := by
  induction cs generalizing n with
  | nil => rfl
  | cons c cs ih =>
    rw [List.foldl_cons, ← consistent.contents_perform c]
    exact ih (consistent.perform c)

/-- The lists say which edges touch their nodes, and nothing else. -/
structure ListsExact (n : Network K) : Prop where
  nodes : (n.nodes.map (·.id)).Nodup
  edges : (n.edges.map (·.id)).Nodup
  lists : (n.adjacency.map (·.node)).Nodup
  keys : ∀ v, (n.incident? v).isSome = n.hasNode v
  ends : ∀ e id, n.edge? id = some e → n.hasNode e.source ∧ n.hasNode e.target
  count : ∀ e id, n.edge? id = some e → ∀ v ids, n.incident? v = some ids →
    ids.count id = if e.Touches v then 1 else 0
  stored : ∀ v ids, n.incident? v = some ids → ∀ id ∈ ids, (n.edge? id).isSome

omit [Scalar K] in
theorem Consistent.listsExact (consistent : n.Consistent) : n.ListsExact where
  nodes := consistent.nodes
  edges := consistent.edges
  lists := consistent.lists
  keys := consistent.isSome_incident?
  ends e id found := consistent.ends e (consistent.edge?_eq_some.mp found).1
  count := by
    intro e id found v ids listed
    obtain ⟨l, known, rfl⟩ := Option.map_eq_some_iff.mp listed
    obtain ⟨hl, rfl⟩ := consistent.incidence?_eq_some.mp known
    obtain ⟨he, rfl⟩ := consistent.edge?_eq_some.mp found
    rw [(consistent.once l hl).count]
    simp only [consistent.mem_edges hl he]
  stored := by
    intro v ids listed id here
    obtain ⟨l, known, rfl⟩ := Option.map_eq_some_iff.mp listed
    obtain ⟨hl, rfl⟩ := consistent.incidence?_eq_some.mp known
    obtain ⟨e, he, rfl, _⟩ := (consistent.listed l hl id).mp here
    rw [consistent.edge?_eq_some.mpr ⟨he, rfl⟩]
    rfl

/-- After any commands on an empty network, names that are in use included, the network holds what
they ask for, and each node has a list of the edges that touch it. What a command that fails leaves
behind is the network as it was. -/
theorem run_listsExact (metric : Metric) (cs : List (Command K)) :
    let n := (empty metric).run cs
    n.ListsExact ∧ n.contents = cs.foldl Contents.after .empty ∧
      ∀ c, (n.reply c).failed → n.perform c = n := by
  intro n
  have nothing := consistent_empty (K := K) metric
  exact ⟨(nothing.run cs).listsExact, nothing.contents_run cs, fun _ => perform_of_failed⟩

end Geospatial.Network
