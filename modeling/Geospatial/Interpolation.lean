import Geospatial.Grid

/-! Surfaces through scattered samples, by weights that fall with distance. -/
namespace Geospatial

/-- A measured value and where it was measured. -/
structure Sample (K : Type) where
  position : Position K
  value : K

namespace Sample

variable {K : Type} [Scalar K]

/-- Pairs positions with values: there is at least one, they are as many, and all are
finite. -/
def ofLists (points : List (Position K)) (values : List K) : Outcome K (List (Sample K)) := do
  if points.isEmpty then Outcome.refuse .noSamples
  if points.length ≠ values.length then
    Outcome.refuse (.sampleValueCount points.length values.length)
  if points.any (fun p => !p.isFinite) || values.any (fun v => !Scalar.isFinite v) then
    Outcome.refuse .nonFiniteSamples
  return List.zipWith Sample.mk points values

/-- Planar distance of a sample from a position. -/
def distanceTo (p : Position K) (s : Sample K) : K :=
  Scalar.hypot (s.position.x - p.x) (s.position.y - p.y)

end Sample

namespace Interpolation

variable {K : Type} [Scalar K]

/-- Weighted mean of the values, none when the weights do not add up to anything. -/
def weightedMean? (weighted : List (K × K)) : Option K :=
  let total := Scalar.sum (weighted.map (·.1))
  if 0 < total then some (Scalar.sum (weighted.map fun (w, v) => w * v) / total) else none

/-- The value at a position: that of a sample right there, or else the mean of the
samples within the radius, weighted by a negative power of their distances. -/
def inverseDistance? (samples : List (Sample K)) (power : K) (radius : Option K)
    (p : Position K) : Option K :=
  match samples.find? fun s => s.distanceTo p == 0 with
  | some s => some s.value
  | none =>
    let near := samples.filter fun s => radius.all fun limit => s.distanceTo p ≤ limit
    weightedMean? (near.map fun s => (Scalar.pow (s.distanceTo p) (-power), s.value))

/-- Interpolation by inverse distances at every cell center. -/
def inverseDistances (f : GridFrame K) (signal : Signal) (power : K) (radius : Option K)
    (points : List (Position K)) (values : List K) : Outcome K (Grid K) := do
  let samples ← Sample.ofLists points values
  if !(Scalar.isFinite power && 0 < power) then Outcome.refuse (.weightingPower power)
  Grid.compute f signal fun row col =>
    inverseDistance? samples power radius (f.cellCenter row col)

end Interpolation
end Geospatial
