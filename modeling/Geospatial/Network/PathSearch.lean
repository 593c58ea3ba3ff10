import Geospatial.Network

/-! Paths without repeated nodes, by a depth-first search that keeps its open trails on a stack. A
trail carries the nodes it has visited, so that trails do not hinder one another. The search ends:
a trail is worth more than all trails together that are one edge longer, and it gives way to those. -/
namespace Geospatial.Network

variable {K : Type}

/-- A path from the start that may go on. -/
structure Trail where
  /-- The last node. -/
  node : String
  /-- The edges taken so far. -/
  taken : List String
  /-- The nodes visited so far, the last one included. -/
  visited : List String

namespace Trail

/-- The trails that are one edge longer and come to a new node, in the order of the edges. -/
def extensions (n : Network K) (t : Trail) : List Trail :=
  (n.outgoing t.node).filterMap fun a =>
    if t.visited.contains a.head then none
    else some ⟨a.head, t.taken ++ [a.edge.id], t.visited ++ [a.head]⟩

end Trail

/-- A search for the paths to a node. -/
structure PathSearch where
  /-- The trails to be followed, the newest one first. -/
  waiting : List Trail
  /-- The edges of the paths that were found. -/
  found : List (List String)

namespace PathSearch

def start (node : String) : PathSearch := ⟨[⟨node, [], [node]⟩], []⟩

/-- Takes the newest trail from the stack. It is a path, or has as many edges as a path may have, or
its extensions are put in its place. -/
def step (n : Network K) (goal : String) (maxEdges : Nat) (s : PathSearch) : PathSearch :=
  match s.waiting with
  | [] => s
  | t :: rest =>
    if t.node == goal then ⟨rest, s.found ++ [t.taken]⟩
    else if maxEdges ≤ t.taken.length then ⟨rest, s.found⟩
    else ⟨(t.extensions n).reverse ++ rest, s.found⟩

end PathSearch

/-- The entries in the lists of all nodes. -/
def listed (n : Network K) : List String := n.adjacency.flatMap (·.edges)

/-- What a trail is worth: more than the steps that it and all longer trails from it can take. -/
def Trail.worth (n : Network K) (maxEdges : Nat) (t : Trail) : Nat :=
  Nat.pow (n.listed.length + 1) (maxEdges - t.taken.length)

/-- What some trails are worth together. -/
def Trail.total (n : Network K) (maxEdges : Nat) : List Trail → Nat
  | [] => 0
  | t :: ts => t.worth n maxEdges + total n maxEdges ts

def PathSearch.worth (n : Network K) (maxEdges : Nat) (s : PathSearch) : Nat :=
  Trail.total n maxEdges s.waiting

theorem length_outgoing_le_listed (n : Network K) (id : String) :
    (n.outgoing id).length ≤ n.listed.length := by
  unfold outgoing
  cases found : n.incidence? id with
  | none => exact Nat.zero_le _
  | some l =>
    have here : l ∈ n.adjacency := List.mem_of_find?_eq_some found
    obtain ⟨before, after, split⟩ := List.append_of_mem here
    have counted : l.edges.length ≤ n.listed.length := by
      simp only [listed, split, List.flatMap_append, List.flatMap_cons, List.length_append]
      omega
    exact Nat.le_trans (List.length_filterMap_le _ _) counted

namespace Trail

variable {n : Network K} {maxEdges : Nat} {t : Trail}

theorem length_extensions_le : (t.extensions n).length ≤ n.listed.length :=
  Nat.le_trans (List.length_filterMap_le _ _) (length_outgoing_le_listed n t.node)

theorem length_taken_of_mem_extensions {u : Trail} (longer : u ∈ t.extensions n) :
    u.taken.length = t.taken.length + 1 := by
  obtain ⟨a, -, extended⟩ := List.mem_filterMap.mp longer
  split at extended
  · contradiction
  · rw [← Option.some.inj extended, List.length_append, List.length_singleton]

theorem worth_pos : 0 < t.worth n maxEdges := Nat.pow_pos (Nat.succ_pos _)

theorem total_append (ts us : List Trail) :
    total n maxEdges (ts ++ us) = total n maxEdges ts + total n maxEdges us := by
  induction ts with
  | nil => exact (Nat.zero_add _).symm
  | cons t ts ih => rw [List.cons_append, total, ih, total, Nat.add_assoc]

theorem total_of_worth {ts : List Trail} {w : Nat} (each : ∀ u ∈ ts, u.worth n maxEdges = w) :
    total n maxEdges ts = ts.length * w := by
  induction ts with
  | nil => exact (Nat.zero_mul w).symm
  | cons t ts ih =>
    obtain ⟨first, rest⟩ := List.forall_mem_cons.mp each
    rw [total, first, ih rest, List.length_cons, Nat.succ_mul, Nat.add_comm]

/-- Extensions of a trail are worth less than the trail, all of them together. -/
theorem total_extensions_lt (short : t.taken.length < maxEdges) :
    total n maxEdges (t.extensions n).reverse < t.worth n maxEdges := by
  obtain ⟨k, left⟩ : ∃ k, maxEdges - t.taken.length = k + 1 :=
    ⟨maxEdges - t.taken.length - 1, by omega⟩
  have each : ∀ u ∈ (t.extensions n).reverse,
      u.worth n maxEdges = Nat.pow (n.listed.length + 1) k := by
    intro u longer
    rw [worth, length_taken_of_mem_extensions (List.mem_reverse.mp longer)]
    congr 1
    omega
  have whole : t.worth n maxEdges =
      (n.listed.length + 1) * Nat.pow (n.listed.length + 1) k := by
    rw [worth, left, Nat.mul_comm]
    rfl
  rw [total_of_worth each, List.length_reverse, whole]
  exact Nat.mul_lt_mul_of_pos_right (Nat.lt_succ_of_le length_extensions_le)
    (Nat.pow_pos (Nat.succ_pos _))

end Trail

namespace PathSearch

theorem worth_step_lt (n : Network K) (goal : String) (maxEdges : Nat) {s : PathSearch} {t : Trail}
    {rest : List Trail} (waiting : s.waiting = t :: rest) :
    (s.step n goal maxEdges).worth n maxEdges < s.worth n maxEdges := by
  have positive : 0 < t.worth n maxEdges := Trail.worth_pos
  simp only [step, worth, waiting, Trail.total]
  split
  · simp only; omega
  · split
    · simp only; omega
    · rename_i short
      have less := Trail.total_extensions_lt (n := n) (Nat.lt_of_not_le short)
      simp only [Trail.total_append]
      omega

/-- Takes steps until no trail waits, and gives the edges of the paths. -/
def run (n : Network K) (goal : String) (maxEdges : Nat) (s : PathSearch) : List (List String) :=
  match _ : s.waiting with
  | [] => s.found
  | _ :: _ => run n goal maxEdges (s.step n goal maxEdges)
termination_by s.worth n maxEdges
decreasing_by exact worth_step_lt n goal maxEdges ‹_›

end PathSearch
end Geospatial.Network
