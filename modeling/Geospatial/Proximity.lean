import Geospatial.Cancellation
import Geospatial.Metric
import Geospatial.Order
import Geospatial.Segment

/-! Which positions are near, and how near they are to each other and to a line. Hits
name positions by their place in the list that was searched. Planar neighbors come from a tree that a
library supplies. -/
namespace Geospatial

/-- A position that was found, by its place in the list, and its distance. -/
structure Hit (K : Type) where
  index : Nat
  distance : K

namespace Hit

variable {K : Type} [Scalar K]

/-- Nearer hits first; of equal distances the one listed first. -/
def order (a b : Hit K) : Ordering :=
  (Scalar.order a.distance b.distance).then (compare a.index b.index)

/-- The hits for a list of distances, in list order. -/
def ofDistances (ds : List K) : List (Hit K) := ds.zipIdx.map fun (d, i) => ⟨i, d⟩

end Hit

/-- A tree over positions of the plane. -/
class PlanarTree (K : Type) where
  /-- The indices of all positions, the nearest one to a place first. -/
  nearestFirst : List (Position K) → Position K → List Nat

namespace PlanarTree

variable {K : Type} [Scalar K]

def distanceSquared (a b : Position K) : K :=
  Scalar.square (a.x - b.x) + Scalar.square (a.y - b.y)

/-- In place of a tree, all positions sorted by squared distance. -/
@[reducible]
def sorting : PlanarTree K where
  nearestFirst points p :=
    (Order.sort Hit.order (Hit.ofDistances (points.map (distanceSquared p)))).map (·.index)

instance : PlanarTree Float := sorting

end PlanarTree

namespace Proximity

variable {K : Type} [Scalar K]

/-- Planar distance from a point to the nearest segment of a line. -/
def planarLineDistance (p : Position K) (line : Path K) : K :=
  Scalar.least ((Path.pairs line).map fun s => Segment.distance p s.1 s.2)

/-- The plane around `p`: meters east and north of it, true to scale near its latitude. -/
def localPlane (p q : Position K) : Position K :=
  let perDegree : K := Scalar.radians Position.earthRadius
  ⟨(q.x - p.x) * (perDegree * Scalar.cos (Scalar.radians p.y)), (q.y - p.y) * perDegree, none⟩

variable [Geodesy K]

/-- Every candidate with its distance from the target, in list order. -/
def hits (m : Metric) (target : Position K) (candidates : List (Position K)) : List (Hit K) :=
  Hit.ofDistances (candidates.map (m.distance target))

/-- The `n` nearest candidates, nearest first. -/
def nearest (m : Metric) (target : Position K) (candidates : List (Position K)) (n : Nat) :
    List (Hit K) :=
  (Order.sort Hit.order (hits m target candidates)).take n

/-- The candidates no farther than the limit, nearest first. -/
def within (m : Metric) (target : Position K) (candidates : List (Position K)) (limit : K) :
    List (Hit K) :=
  Order.sort Hit.order ((hits m target candidates).filter fun h => h.distance ≤ limit)

/-- The `k` nearest other points of the point at index `i`, nearest first. -/
def neighborsOf [PlanarTree K] (m : Metric) (points : List (Position K)) (k i : Nat)
    (p : Position K) : List (Hit K) :=
  match m with
  | .euclidean =>
    let others := (PlanarTree.nearestFirst points p).filter fun j => j != i
    (others.take k).filterMap fun j =>
      points[j]?.map fun q => ⟨j, Scalar.hypot (q.x - p.x) (q.y - p.y)⟩
  | m => (Order.sort Hit.order ((hits m p points).filter fun h => h.index != i)).take k

/-- The `k` nearest other points of each point. -/
def neighbors [PlanarTree K] (m : Metric) (signal : Signal) (points : List (Position K)) (k : Nat) :
    Outcome K (List (List (Hit K))) :=
  if k = 0 then .refuse .zeroNeighbors
  else signal.forEach points.zipIdx fun (p, i) => .ok (neighborsOf m points k i p)

/-- A row of distances for each origin. -/
def matrix (m : Metric) (signal : Signal) (origins destinations : List (Position K)) :
    Outcome K (List (List K)) :=
  signal.forEach origins fun o => .ok (destinations.map (m.distance o))

/-- Distance from a point to a line, unbounded for a line without positions. For
geographic metrics the line is measured in the plane around the point. -/
def lineDistance (m : Metric) (p : Position K) (line : Path K) : K :=
  match line with
  | [] => Scalar.infinity
  | [only] => m.distance p only
  | line =>
    match m with
    | .euclidean => planarLineDistance p line
    | _ => planarLineDistance ⟨0, 0, none⟩ (line.map (localPlane p))

/-- Indices of the points no farther from the line than the limit. -/
def corridor (m : Metric) (points : List (Position K)) (line : Path K) (limit : K) : List Nat :=
  (points.zipIdx.filter fun (p, _) => lineDistance m p line ≤ limit).map (·.2)

end Proximity
end Geospatial
