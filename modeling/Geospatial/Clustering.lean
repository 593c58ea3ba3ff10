import Geospatial.Cancellation
import Geospatial.Position

/-! Partitions of a point list into clusters and noise. Clusters are numbered in the order of their
first members. How well points fit their clusters is told by the silhouette: for each point the
average distance to the nearest other cluster against the one to its own, as a number from -1 to 1. -/
namespace Geospatial

/-- Distances that clusterings are built on. -/
inductive ClusterMetric where
  | euclidean | manhattan | haversine
  deriving DecidableEq

namespace ClusterMetric

def name : ClusterMetric → String
  | euclidean => "euclidean"
  | manhattan => "manhattan"
  | haversine => "haversine"

def ofName? (s : String) : Option ClusterMetric :=
  [euclidean, manhattan, haversine].find? fun m => m.name == s

def distance {K : Type} [Scalar K] (m : ClusterMetric) (a b : Position K) : K :=
  match m with
  | euclidean => Scalar.hypot (a.x - b.x) (a.y - b.y)
  | manhattan => Scalar.abs (a.x - b.x) + Scalar.abs (a.y - b.y)
  | haversine => a.haversine Position.earthRadius b

end ClusterMetric

structure Cluster (K : Type) where
  id : Nat
  /-- Indices of the points that belong to it, in list order. -/
  members : List Nat
  positions : List (Position K)
  centroid : Position K

namespace Cluster

def size (c : Cluster K) : Nat := c.members.length

end Cluster

structure Clustering (K : Type) where
  clusters : List (Cluster K)
  /-- The cluster of each point, none for noise. -/
  labels : List (Option Nat)

namespace Clustering

variable {K : Type} [Scalar K]

/-- The cluster of some members; without members there is none. -/
def clusterOf? (points : List (Position K)) (id : Nat) (members : List Nat) : Option (Cluster K) :=
  let positions := members.filterMap fun i => points[i]?
  (Position.mean? positions).map fun centroid => { id, members, positions, centroid }

/-- Labels as far as they are read: a number for each that has come, the members that each number
has so far, and the numbers in place of the labels. -/
structure Renumbering (α : Type) where
  numbers : List (α × Nat)
  members : List (List Nat)
  labels : List (Option Nat)

namespace Renumbering

variable {α : Type} [BEq α]

/-- The number of a label. A new one gets the next number, and no members yet. -/
def number (s : Renumbering α) (l : α) : Nat × Renumbering α :=
  match s.numbers.lookup l with
  | some id => (id, s)
  | none => (s.members.length,
      { s with numbers := (l, s.members.length) :: s.numbers, members := s.members ++ [[]] })

/-- Reads the label of a point. -/
def read (s : Renumbering α) : Option α × Nat → Renumbering α
  | (none, _) => { s with labels := s.labels ++ [none] }
  | (some l, index) =>
    let (id, s) := s.number l
    { s with
      members := s.members.modify id (· ++ [index])
      labels := s.labels ++ [some id] }

def ofList (raw : List (Option α)) : Renumbering α := raw.zipIdx.foldl read ⟨[], [], []⟩

end Renumbering

/-- Groups points by labels of any kind. -/
def ofLabels [BEq α] (points : List (Position K)) (raw : List (Option α)) : Clustering K :=
  let renumbered := Renumbering.ofList raw
  { clusters := renumbered.members.zipIdx.filterMap fun (members, id) => clusterOf? points id members
    labels := renumbered.labels }

/-- Indices of the points in no cluster. -/
def noise (c : Clustering K) : List Nat :=
  (c.labels.zipIdx.filter fun (l, _) => l.isNone).map (·.2)

/-- Refuses the first point that is not finite. -/
def requireFinite (points : List (Position K)) : Outcome K Unit :=
  match points.findIdx? fun p => !p.isFinite with
  | some i => .refuse (.nonFinitePoint i)
  | none => .ok ()

/-- A number of clusters from one to the number of points. -/
def requireCount (k : Nat) (points : List (Position K)) : Outcome K Unit :=
  if k = 0 ∨ points.length < k then .refuse (.clusterCount points.length k) else .ok ()

section Silhouette

variable (distance : Position K → Position K → K)

/-- Average distance from a point to some positions, zero when there are none. -/
def meanDistance (p : Position K) (others : List (Position K)) : K :=
  if others.isEmpty then 0
  else Scalar.sum (others.map (distance p)) / (others.length : K)

/-- Fit of a point from its average distance `own` to its cluster and `next` to the
nearest other one; zero when both are. -/
def fit (own next : K) : K :=
  let greater := Scalar.max own next
  if 0 < greater then (next - own) / greater else 0

/-- Labelled points with their indices. -/
abbrev Labelled (K : Type) := List (Position K × Nat × Nat)

/-- Points that carry a label, with their indices and labels. -/
def labelled (points : List (Position K)) (labels : List (Option Nat)) : Labelled K :=
  (points.zipIdx.zip labels).filterMap fun ((p, i), l) => l.map fun l => (p, i, l)

def positionsOf (ps : Labelled K) (label : Nat) : List (Position K) :=
  (ps.filter fun q => q.2.2 == label).map (·.1)

/-- Fit of one labelled point; zero for the only member of a cluster. -/
def pointFit (ps : Labelled K) (labels : List Nat) (p : Position K) (i label : Nat) : K :=
  let own := (ps.filter fun q => q.2.2 == label && q.2.1 != i).map (·.1)
  if own.isEmpty then 0
  else
    let others := labels.filter (· != label)
    fit (meanDistance distance p own)
      (Scalar.least (others.map fun l => meanDistance distance p (positionsOf ps l)))

/-- Average fit of the labelled points; there is none with fewer than two labels. -/
def silhouette? (points : List (Position K)) (raw : List (Option Nat)) : Option K :=
  let ps := labelled points raw
  let labels := (ps.map fun q => q.2.2).eraseDups
  if labels.length < 2 then none
  else
    some (Scalar.sum (ps.map fun (p, i, l) => pointFit distance ps labels p i l) /
      (ps.length : K))

end Silhouette

end Clustering
end Geospatial
