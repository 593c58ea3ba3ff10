import Geospatial.Clustering
import Geospatial.Order
import Geospatial.Scalar.Double

/-! Clustering around `k` centroids: points go to their nearest centroid and centroids
move to the mean of their points, until no point changes. The first centroids are points that are
drawn at random, with the choices of a source that a library supplies. -/
namespace Geospatial.Clustering

variable {K : Type} [Scalar K]

/-- Centroids and the number of the centroid of each point; before the first assignment
there is none. -/
structure Assignment (K : Type) where
  centroids : List (Position K)
  labels : List (Option Nat)

/-- The outcome of `k`-means. -/
structure Centering (K : Type) where
  clustering : Clustering K
  centroids : List (Position K)
  /-- The last round changed no point. -/
  converged : Bool
  /-- Sum of the squared distances of points to their centroids. -/
  inertia : K

section
variable (distance : Position K → Position K → K)

/-- The number of the first of the nearest centroids. -/
def nearestCentroid (centroids : List (Position K)) (p : Position K) : Nat :=
  let ranked := centroids.zipIdx.map fun (c, i) => (distance p c, i)
  let measured := ranked.filter fun r => Scalar.isFinite r.1
  ((Order.least? (Order.on (·.1) Scalar.order) measured).map (·.2)).getD 0

/-- Each centroid that has points moves to their mean. -/
def recenter (points : List (Position K)) (labels : List (Option Nat))
    (centroids : List (Position K)) : List (Position K) :=
  centroids.zipIdx.map fun (c, i) =>
    let members := ((points.zip labels).filter fun (_, l) => l == some i).map (·.1)
    (Position.mean? members).getD c

/-- Every point at its nearest centroid. -/
def assign (points : List (Position K)) (a : Assignment K) : List (Option Nat) :=
  points.map fun p => some (nearestCentroid distance a.centroids p)

/-- Rounds of assigning and moving, with whether the last one changed nothing. -/
def settle (signal : Signal) (points : List (Position K)) :
    Nat → Assignment K → Outcome K (Assignment K × Bool)
  | 0, a => .ok (a, false)
  | rounds + 1, a => do
    signal.check
    let labels := assign distance points a
    if labels = a.labels then return (a, true)
    settle signal points rounds ⟨recenter points labels a.centroids, labels⟩

/-- Sum of the squared distances of points to their centroids. -/
def inertia (points : List (Position K)) (labels : List Nat) (centroids : List (Position K)) : K :=
  Scalar.sum ((points.zip labels).filterMap fun (p, l) =>
    centroids[l]?.map fun c => Scalar.square (distance p c))

/-- `k`-means from given centroids. -/
def center (signal : Signal) (points : List (Position K)) (rounds : Nat)
    (start : List (Position K)) : Outcome K (Centering K) := do
  let (a, converged) ← settle distance signal points rounds ⟨start, points.map fun _ => none⟩
  let labels := (points.zip a.labels).map fun (p, l) =>
    l.getD (nearestCentroid distance a.centroids p)
  return {
    clustering := ofLabels points (labels.map some)
    centroids := a.centroids
    converged
    inertia := inertia distance points labels a.centroids }

end

/-- A source of random choices. -/
class RandomSource (K : Type) where
  /-- What the source keeps between choices. -/
  State : Type
  seeded : UInt64 → State
  /-- A whole number below a bound, which is at least one. -/
  below : Nat → State → Nat × State
  /-- A number from zero on and below one. -/
  share : State → K × State

/-- Doubles are drawn by the standard generator. -/
instance : RandomSource Float where
  State := StdGen
  seeded seed := mkStdGen seed.toNat
  below n g := randNat g 0 (n - 1)
  share g :=
    let (n, g) := randNat g 0 0x1fffffffffffff
    (Float.ofNat n / Float.ofNat 0x20000000000000, g)

section
variable [RandomSource K] (distance : Position K → Position K → K) (points : List (Position K))

/-- The place where weights that are taken off one after the other use a target up. -/
def drawn? (target : K) : List K → Option Nat
  | [] => none
  | w :: ws =>
    if target - w ≤ 0 && 0 < w then some 0 else (drawn? (target - w) ws).map (· + 1)

/-- Draws a point, with a weight that is its squared distance from the nearest centroid. Where no
point has a weight, all are alike. -/
def drawPoint (centroids : List (Position K)) : StateM (RandomSource.State K) Nat := do
  let weights := points.map fun p => Scalar.square (Scalar.least (centroids.map (distance p)))
  let total := Scalar.sum weights
  if 0 < total then
    let share ← RandomSource.share
    return (drawn? (share * total) weights).getD (points.length - 1)
  else RandomSource.below points.length

/-- Draws more centroids, each one after those before it. -/
def drawCentroids : Nat → List (Position K) → StateM (RandomSource.State K) (List (Position K))
  | 0, centroids => return centroids
  | more + 1, centroids => do
    let i ← drawPoint distance points centroids
    drawCentroids more (centroids ++ points[i]?.toList)

/-- The first of `k` centroids is any point. -/
def seedCentroids (k : Nat) : StateM (RandomSource.State K) (List (Position K)) := do
  let first ← RandomSource.below points.length
  drawCentroids distance points (k - 1) points[first]?.toList

/-- `k`-means from points that are drawn. -/
def kMeans (signal : Signal) (points : List (Position K)) (k rounds : Nat) (seed : UInt64 := 42) :
    Outcome K (Centering K) := do
  requireCount k points
  requireFinite points
  let (start, _) := (seedCentroids distance points k).run (RandomSource.seeded seed)
  center distance signal points rounds start

end
end Geospatial.Clustering
