import Geospatial.Clustering
import Geospatial.Order

/-! Clustering by merging, beginning with every point on its own: the two groups with the least
average distance between their points are joined until `k` are left. A group goes by the place of
one of its points. Distances, sizes and the groups of the points are updated in place. -/
namespace Geospatial.Clustering

variable {K : Type} [Scalar K]

/-- Points joined so far. -/
structure Merging (K : Type) where
  /-- Average distances between groups. Those of a group that is no longer active are out of date. -/
  table : Array (Array K)
  /-- How many points each group has. -/
  sizes : Array Nat
  /-- The groups that were not joined to another one. -/
  active : Array Bool
  /-- The group of each point. -/
  assignment : Array Nat

namespace Merging

/-- Each point on its own, with the distances of the points. -/
def start (rows : Array (Array K)) : Merging K where
  table := rows
  sizes := Array.replicate rows.size 1
  active := Array.replicate rows.size true
  assignment := Array.range rows.size

def get (m : Merging K) (r c : Nat) : K := (m.table.getD r #[]).getD c 0

def write (m : Merging K) (r c : Nat) (v : K) : Merging K :=
  { m with table := m.table.modify r (·.setIfInBounds c v) }

/-- The active groups, in order. -/
def live (m : Merging K) : List Nat :=
  (List.range m.active.size).filter fun i => m.active.getD i false

/-- The first pair of groups at the least finite distance. -/
def closest? (m : Merging K) : Option (Nat × Nat) :=
  let distance (p : Nat × Nat) : K := m.get p.1 p.2
  Order.least? (Order.on distance Scalar.order)
    ((Order.couples m.live).filter fun p => Scalar.isFinite (distance p))

/-- Distance of a group from the union of two others, by their sizes. -/
def mergedDistance (m : Merging K) (i j other : Nat) : K :=
  let ni : K := (m.sizes.getD i 0 : K)
  let nj : K := (m.sizes.getD j 0 : K)
  (ni * m.get i other + nj * m.get j other) / (ni + nj)

/-- The distance of a group from a union takes the place of that from its first part. -/
def relink (i j : Nat) (m : Merging K) (other : Nat) : Merging K :=
  let merged := m.mergedDistance i j other
  (m.write i other merged).write other i merged

/-- Joins group `j` to group `i`. -/
def join (m : Merging K) (i j : Nat) : Merging K :=
  let m := (m.live.filter fun other => other != i && other != j).foldl (relink i j) m
  { m with
    sizes := m.sizes.setIfInBounds i (m.sizes.getD i 0 + m.sizes.getD j 0)
    active := m.active.setIfInBounds j false
    assignment := m.assignment.map fun a => if a = j then i else a }

/-- Joins the closest groups, as many times as asked for. -/
def reduce (signal : Signal) : Nat → Merging K → Outcome K (Merging K)
  | 0, m => .ok m
  | times + 1, m => do
    signal.check
    match m.closest? with
    | some (i, j) => reduce signal times (m.join i j)
    | none => return m

end Merging

/-- Merges groups until `k` are left. -/
def agglomerate (distance : Position K → Position K → K) (signal : Signal)
    (points : List (Position K)) (k : Nat) : Outcome K (Clustering K) := do
  requireCount k points
  requireFinite points
  let rows ← signal.forEach points fun p => .ok (points.map (distance p)).toArray
  let final ← (Merging.start rows.toArray).reduce signal (points.length - k)
  return ofLabels points (final.assignment.toList.map some)

end Geospatial.Clustering
