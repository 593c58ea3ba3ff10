import Geospatial.Network
import Geospatial.Heap

/-! Searches for least costs. A label says what a node costs to reach, and over which edge
from which node. Best-first search settles one node after the other; the relaxation in
rounds admits negative costs and finds negative cycles. -/
namespace Geospatial.Network

/-- The last step to a node. -/
structure Step where
  node : String
  edge : String

structure Label (K : Type) where
  node : String
  cost : K
  via : Option Step

namespace Label

variable {K : Type}

def find? (labels : List (Label K)) (node : String) : Option (Label K) :=
  labels.find? fun l => l.node == node

/-- No label of the same node is as cheap. -/
def improves [Scalar K] (l : Label K) (labels : List (Label K)) : Bool :=
  (find? labels l.node).all fun old => l.cost < old.cost

/-- Puts a label in the place of the one of the same node, or at the end. -/
def set (l : Label K) : List (Label K) → List (Label K)
  | [] => [l]
  | old :: rest => if old.node == l.node then l :: rest else old :: set l rest

/-- The label after one more edge. -/
def extend [Scalar K] (l : Label K) (a : Arc K) : Label K :=
  ⟨a.head, l.cost + a.edge.cost, some ⟨l.node, a.edge.id⟩⟩

/-- The edges from `start` to a node, walking the last steps back from there. None where
the node was not reached. -/
def edgesTo? (labels : List (Label K)) (start : String) : Nat → String → Option (List String)
  | 0, node => if node == start then some [] else none
  | fuel + 1, node =>
    if node == start then some []
    else do
      let step ← (← find? labels node).via
      let before ← edgesTo? labels start fuel step.node
      return before ++ [step.edge]

end Label

/-- Order of labels by cost and estimate of the rest, then by name. -/
def Label.precedes [Scalar K] (estimate : String → K) (a b : Label K) : Bool :=
  (Scalar.order (a.cost + estimate a.node) (b.cost + estimate b.node)).then
    (compare a.node b.node) == .lt

/-- A search under way. A label that waits may have been overtaken by a better one of the
same node; it is passed over when its turn comes. -/
structure Exploration {K : Type} [Scalar K] (estimate : String → K) where
  /-- The best label of each node that was sighted. -/
  labels : List (Label K)
  /-- Nodes whose edges have been followed. -/
  settled : List String
  waiting : Heap (Label.precedes estimate)

namespace Exploration

variable {K : Type} [Scalar K] {estimate : String → K}

def start (node : String) : Exploration estimate :=
  ⟨[⟨node, 0, none⟩], [], .singleton ⟨node, 0, none⟩⟩

/-- Sights the end of an edge, unless it is settled, beyond the limit, or no better. -/
def sight (limit : Option K) (origin : Label K) (x : Exploration estimate) (a : Arc K) :
    Exploration estimate :=
  let l := origin.extend a
  if (limit.any fun m => m < l.cost) || x.settled.contains l.node || !l.improves x.labels then x
  else { x with labels := l.set x.labels, waiting := x.waiting.add l }

/-- Takes waiting labels in order and settles their nodes, until the target is settled or no
label waits. The rounds bound the number of labels that ever wait. -/
def run (n : Network K) (target : Option String) (limit : Option K) :
    (rounds : Nat) → Exploration estimate → Exploration estimate
  | 0, x => x
  | rounds + 1, x =>
    match x.waiting.pop? with
    | none => x
    | some (l, rest) =>
      if x.settled.contains l.node then run n target limit rounds { x with waiting := rest }
      else
        let x := { x with settled := l.node :: x.settled, waiting := rest }
        if target == some l.node then x
        else run n target limit rounds ((n.outgoing l.node).foldl (sight limit l) x)

end Exploration

variable {K : Type} [Scalar K]

/-- Each edge in the directions in which it may be taken, with the node it leaves. -/
def arcs (n : Network K) : List (String × Arc K) :=
  n.edges.flatMap fun e =>
    (e.source, ⟨e, e.target⟩) :: if e.bidirectional then [(e.target, ⟨e, e.source⟩)] else []

/-- Best-first search. It stops at the target, where there is one, and goes no farther than
the limit. An arc gives one label at most, so there are rounds for every label. -/
def bestFirst (n : Network K) (start : String) (target : Option String) (limit : Option K)
    (estimate : String → K) : List (Label K) :=
  let x : Exploration estimate := .start start
  (x.run n target limit (n.arcs.length + 1)).labels

/-- The label that an edge gives to its end, if that is better than what is there. -/
def improvement? (labels : List (Label K)) (a : String × Arc K) : Option (Label K) := do
  let l := (← Label.find? labels a.1).extend a.2
  if l.improves labels then some l else none

/-- One round over all edges, in which later ones see what earlier ones gave. -/
def relaxRound (arcs : List (String × Arc K)) (labels : List (Label K)) : List (Label K) :=
  arcs.foldl (fun labels a => match improvement? labels a with
    | some l => l.set labels
    | none => labels) labels

/-- Relaxes in rounds until no edge improves anything. An edge that still does after all
rounds lies behind a negative cycle. -/
def relax (arcs : List (String × Arc K)) : Nat → List (Label K) → Except String (List (Label K))
  | rounds, labels =>
    match arcs.find? fun a => (improvement? labels a).isSome with
    | none => .ok labels
    | some a =>
      match rounds with
      | 0 => .error a.2.edge.id
      | rounds + 1 => relax arcs rounds (relaxRound arcs labels)

end Geospatial.Network
