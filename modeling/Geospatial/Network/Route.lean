import Geospatial.Network.PathSearch
import Geospatial.Network.Search
import Geospatial.Hull

/-! Routes through a network, the nodes within a cost, and tours over several stops. A
place that cannot be reached is an answer and no fault. -/
namespace Geospatial.Network

structure Route (K : Type) where
  /-- Nodes from start to end. -/
  nodes : List String
  edges : List String
  cost : K
  /-- Length of the geometry in the metric of the network. -/
  length : K
  /-- A line along the edges, or the start alone where the line has no length. -/
  geometry : Geometry K

structure ServiceArea (K : Type) where
  /-- Nodes with their costs, cheapest first. -/
  nodes : List (String × K)
  /-- Hull of the nodes, none where they lie on one line. -/
  hull : Option (Geometry K)

structure Tour (K : Type) where
  /-- Stops in the order of the visit. -/
  order : List String
  legs : List (Route K)
  cost : K

variable {K : Type} [Scalar K]

/-- An edge as it is taken on a route: the node it leads to and its shape in this
direction. -/
structure Passage (K : Type) where
  edge : Edge K
  next : String
  shape : Path K

def passage (n : Network K) (current : String) (e : Edge K) : Passage K :=
  let shape := e.shape.getD ([e.source, e.target].filterMap fun id => (n.node? id).map (·.position))
  if e.source == current then ⟨e, e.target, shape⟩ else ⟨e, e.source, shape.reverse⟩

/-- The passages along some edges, starting at a node. -/
def passages (n : Network K) (current : String) : List String → List (Passage K)
  | [] => []
  | id :: ids =>
    match n.edge? id with
    | none => passages n current ids
    | some e => let p := n.passage current e; p :: passages n p.next ids

/-- The nodes within a cost, which may be without bound. -/
def serviceArea (n : Network K) (start : String) (limit : K) : Outcome K (ServiceArea K) := do
  let _ ← n.requireNode start
  if !(0 ≤ limit) then .refuse (.serviceLimit limit)
  n.requireCosts .serviceArea
  let bound := if Scalar.isFinite limit then some limit else none
  let reached := (n.bestFirst start none bound fun _ => 0).map fun l => (l.node, l.cost)
  let nodes := Order.sort (fun a b => (Scalar.order a.2 b.2).then (compare a.1 b.1)) reached
  let places := nodes.filterMap fun (id, _) => (n.node? id).map (·.position)
  return ⟨nodes, Hull.polygon? places⟩

/-- The cheapest of some routes with their places, the first one of several. -/
def cheapest? (routes : List (Nat × Route K)) : Option (Nat × Route K) :=
  match routes with
  | [] => none
  | r :: rs => some (rs.foldl (fun best r => if r.2.cost < best.2.cost then r else best) r)

/-- The last node of the last leg. -/
def lastStop (first : String) (legs : List (Route K)) : String :=
  ((legs.getLast?.bind fun l => l.nodes.getLast?)).getD first

variable [Geodesy K]

/-- The route from a node along some edges. -/
def route (n : Network K) (start : String) (edges : List String) : Route K :=
  let ps := n.passages start edges
  let origin := ((n.node? start).map (·.position)).toList
  let line := Path.withoutRepeats (origin ++ ps.flatMap (·.shape))
  { nodes := start :: ps.map (·.next)
    edges
    cost := Scalar.sum (ps.map (·.edge.cost))
    length := Scalar.sum ((Path.pairs line).map fun s => n.distance s.1 s.2)
    geometry := match line with
      | [] => .point ⟨0, 0, none⟩
      | [p] => .point p
      | line => .lineString line }

/-- The route to a node that some labels lead to. -/
def routeTo? (n : Network K) (labels : List (Label K)) (start goal : String) : Option (Route K) :=
  (Label.edgesTo? labels start labels.length goal).map (n.route start)

/-- Cheapest route by costs alone. -/
def dijkstra (n : Network K) (start goal : String) : Outcome K (Option (Route K)) := do
  let _ ← n.requireNode start
  let _ ← n.requireNode goal
  n.requireCosts .dijkstra
  return n.routeTo? (n.bestFirst start (some goal) none fun _ => 0) start goal

/-- Least cost for a unit of distance over all edges between different places. -/
def leastRate (n : Network K) : K :=
  let rates := n.edges.filterMap fun e => do
    let a ← n.node? e.source
    let b ← n.node? e.target
    let d := n.distance a.position b.position
    if 0 < d then some (e.cost / d) else none
  match rates with
  | [] => 0
  | rates =>
    let least := Scalar.least rates
    if Scalar.isFinite least then Scalar.max least 0 else 0

/-- Cost of the straight line to a goal at a rate for a unit of distance. -/
def straightLine (n : Network K) (rate : K) (goal : Node K) (id : String) : K :=
  match n.node? id with
  | some v => rate * n.distance v.position goal.position
  | none => 0

/-- Cheapest route with a straight-line estimate of the rest, which is never too high. -/
def aStar (n : Network K) (start goal : String) : Outcome K (Option (Route K)) := do
  let _ ← n.requireNode start
  let goalNode ← n.requireNode goal
  n.requireCosts .aStar
  let estimate := n.straightLine n.leastRate goalNode
  return n.routeTo? (n.bestFirst start (some goal) none estimate) start goal

/-- Cheapest route where costs may be negative; fails on a negative cycle in reach. -/
def bellmanFord (n : Network K) (start goal : String) : Outcome K (Option (Route K)) := do
  let _ ← n.requireNode start
  let _ ← n.requireNode goal
  match relax n.arcs n.nodes.length [⟨start, 0, none⟩] with
  | .error edge => throw (.topology (.negativeCycle start edge))
  | .ok labels => return n.routeTo? labels start goal

/-- Every route without repeated nodes of at most `maxEdges` edges, cheapest first. -/
def allPaths (n : Network K) (start goal : String) (maxEdges : Nat) : Outcome K (List (Route K)) := do
  let _ ← n.requireNode start
  let _ ← n.requireNode goal
  let paths := (PathSearch.start start).run n goal maxEdges
  let routes := paths.map (n.route start)
  return Order.sort (fun a b => (Scalar.order a.cost b.cost).then (compare a.edges b.edges)) routes

/-- Visits the remaining stops, always a cheapest one to reach next. None where a stop is
out of reach. -/
def visitRemaining (n : Network K) (current : String) :
    (rounds : Nat) → List String → Outcome K (Option (List (Route K)))
  | 0, _ => return some []
  | rounds + 1, remaining => do
    let routes ← remaining.mapM (n.dijkstra current)
    let reached := routes.zipIdx.filterMap fun (r, i) => r.map (i, ·)
    match cheapest? reached with
    | none => return none
    | some (i, leg) =>
      let rest ← visitRemaining n (remaining.getD i current) rounds (remaining.eraseIdx i)
      return rest.map (leg :: ·)

/-- A tour over some stops from the first one on, by nearest neighbors. -/
def tour (n : Network K) (stops : List String) (returnToStart : Bool) :
    Outcome K (Option (Tour K)) := do
  stops.forM fun s => do let _ ← n.requireNode s
  let first :: others := stops | .refuse .emptyTour
  n.requireCosts .tour
  let some legs ← n.visitRemaining first others.length others | return none
  let back ← if returnToStart && !others.isEmpty then
      (·.map ([·])) <$> n.dijkstra (lastStop first legs) first
    else pure (some [])
  let some back := back | return none
  let legs := legs ++ back
  return some {
    order := first :: legs.map fun l => l.nodes.getLast?.getD first
    legs
    cost := Scalar.sum (legs.map (·.cost)) }

end Geospatial.Network
