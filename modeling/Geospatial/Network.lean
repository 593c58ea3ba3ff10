import Geospatial.Metric
import Geospatial.Fault
import Geospatial.Order

/-! Networks of named nodes and edges with costs. An edge is open in both directions
unless it is a one-way edge, and may have a shape other than the straight line. A network has its
nodes and its edges by name, in the order in which they were added, and apart from them a list of
edges for each node. Changes go through one of the three after the other, and what a change has
done when it fails stays. -/
namespace Geospatial

namespace Network

structure Node (K : Type) where
  id : String
  position : Position K

structure Edge (K : Type) where
  id : String
  source : String
  target : String
  cost : K
  /-- Positions from the source to the target; straight where there are none. -/
  shape : Option (Path K)
  bidirectional : Bool

/-- The edges that start or end at a node. -/
structure Incidence where
  node : String
  edges : List String

end Network

open Network in
structure Network (K : Type) where
  nodes : List (Node K)
  edges : List (Edge K)
  adjacency : List Incidence
  metric : Metric

namespace Network

variable {K : Type}

def empty (metric : Metric) : Network K := ⟨[], [], [], metric⟩

def node? (n : Network K) (id : String) : Option (Node K) := n.nodes.find? fun v => v.id == id

def edge? (n : Network K) (id : String) : Option (Edge K) := n.edges.find? fun e => e.id == id

/-- The list of a node. -/
def incidence? (n : Network K) (id : String) : Option Incidence :=
  n.adjacency.find? fun l => l.node == id

def hasNode (n : Network K) (id : String) : Bool := n.nodes.any fun v => v.id == id

/-- Puts an element in the place of the one that has its name, or at the end. -/
def put (name : α → String) (x : α) : List α → List α
  | [] => [x]
  | y :: ys => if name y == name x then x :: ys else y :: put name x ys

namespace Incidence

/-- Changes the list of a node, which is an empty one before if there is none. -/
def update (node : String) (f : List String → List String) : List Incidence → List Incidence
  | [] => [⟨node, f []⟩]
  | l :: ls => if l.node == node then ⟨l.node, f l.edges⟩ :: ls else l :: update node f ls

/-- Takes an edge out of the list of a node, if there is one. -/
def retain (node edge : String) (ls : List Incidence) : List Incidence :=
  ls.map fun l => if l.node == node then { l with edges := l.edges.filter fun e => e != edge } else l

end Incidence

/-- Changes of a network that may fail. -/
abbrev Change (K α : Type) : Type := EStateM (Fault K) (Network K) α

namespace Change

/-- Adds a node, or moves the one with this name, which keeps its list. -/
def addNode (id : String) (position : Position K) : Change K Unit := do
  modify fun n => { n with adjacency := Incidence.update id (fun es => es) n.adjacency }
  modify fun n => { n with nodes := put Node.id ⟨id, position⟩ n.nodes }

/-- Takes an edge out, and out of the lists of its ends. -/
def removeEdge (id : String) : Change K (Option (Edge K)) := do
  let some e := (← get).edge? id | return none
  modify fun n => { n with edges := n.edges.filter fun e => e.id != id }
  modify fun n => { n with adjacency := Incidence.retain e.source id n.adjacency }
  modify fun n => { n with adjacency := Incidence.retain e.target id n.adjacency }
  return some e

/-- Takes a node out and its list, and then the edges that were in it. -/
def removeNode (id : String) : Change K (Option (Node K)) := do
  let some v := (← get).node? id | return none
  modify fun n => { n with nodes := n.nodes.filter fun v => v.id != id }
  if let some l := (← get).incidence? id then
    modify fun n => { n with adjacency := n.adjacency.filter fun l => l.node != id }
    l.edges.forM fun e => discard (removeEdge e)
  return some v

/-- Fails unless an end of an edge is a node. -/
def requireEnd (e : Edge K) (id : String) : Change K Unit := do
  if !(← get).hasNode id then throw (.topology (.unknownEndpoint e.id id))

/-- Adds an edge between nodes of the network. One with the same name is taken out before. -/
def addEdge [Scalar K] (e : Edge K) : Change K Unit := do
  [e.source, e.target].forM (requireEnd e)
  if !Scalar.isFinite e.cost then throw (.input (.edgeCost e.id e.cost))
  discard (removeEdge e.id)
  modify fun n => { n with adjacency := Incidence.update e.source (· ++ [e.id]) n.adjacency }
  if e.target != e.source then
    modify fun n => { n with adjacency := Incidence.update e.target (· ++ [e.id]) n.adjacency }
  modify fun n => { n with edges := put Edge.id e n.edges }

end Change

/-- What a change leaves behind, also where it fails. -/
def after (n : Network K) (change : Change K α) : Network K :=
  match change.run n with
  | .ok _ n' => n'
  | .error _ n' => n'

def addNode (n : Network K) (id : String) (position : Position K) : Network K :=
  n.after (Change.addNode id position)

def removeNode (n : Network K) (id : String) : Network K := n.after (Change.removeNode id)

def removeEdge (n : Network K) (id : String) : Network K := n.after (Change.removeEdge id)

/-- The network with one more edge. -/
def addEdge [Scalar K] (n : Network K) (e : Edge K) : Outcome K (Network K) :=
  match (Change.addEdge e).run n with
  | .ok _ n' => .ok n'
  | .error f _ => .error f

/-- The node at the other end of an edge, where the edge may be taken from `id`. -/
def Edge.leadsTo? (e : Edge K) (id : String) : Option String :=
  if e.source == id then some e.target
  else if e.bidirectional && e.target == id then some e.source
  else none

/-- An edge with the node that it leads to. -/
structure Arc (K : Type) where
  edge : Edge K
  head : String

/-- The edges that leave a node, in the order of its list. -/
def outgoing (n : Network K) (id : String) : List (Arc K) :=
  match n.incidence? id with
  | none => []
  | some l => l.edges.filterMap fun e => do
    let edge ← n.edge? e
    return ⟨edge, ← edge.leadsTo? id⟩

def distance [Scalar K] [Geodesy K] (n : Network K) (a b : Position K) : K := n.metric.distance a b

/-- The node closest to a position, of several the first by name. -/
def nearestNode? [Scalar K] [Geodesy K] (n : Network K) (p : Position K) : Option (Node K) :=
  Order.least? (fun a b => (Scalar.order (n.distance p a.position) (n.distance p b.position)).then
    (compare a.id b.id)) n.nodes

def requireNode (n : Network K) (id : String) : Outcome K (Node K) :=
  match n.node? id with
  | some v => .ok v
  | none => .refuse (.unknownNode id)

/-- Searches that settle nodes in order of cost need costs of at least zero. -/
def requireCosts [Scalar K] (n : Network K) (search : RouteSearch) : Outcome K Unit :=
  match n.edges.find? fun e => e.cost < 0 with
  | some e => .error (.topology (.negativeCost search e.cost e.id))
  | none => .ok ()

end Network
end Geospatial
