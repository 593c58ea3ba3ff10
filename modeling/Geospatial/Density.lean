import Geospatial.Grid
import Geospatial.Path

/-! Density surfaces of points and lines. Each cell of the surface measures what lies
around its center. -/
namespace Geospatial

/-- How the weight of a point falls with its distance. -/
inductive Kernel where
  | gaussian | quartic | triangular | uniform
  deriving DecidableEq

namespace Kernel

def name : Kernel → String
  | gaussian => "gaussian"
  | quartic => "quartic"
  | triangular => "triangular"
  | uniform => "uniform"

def ofName? (s : String) : Option Kernel :=
  [gaussian, quartic, triangular, uniform].find? fun k => k.name == s

variable {K : Type} [Scalar K]

/-- Weight at a distance in units of the bandwidth. Only the Gaussian kernel reaches
beyond one. -/
def weight (k : Kernel) (u : K) : K :=
  match k with
  | gaussian => Scalar.exp (-0.5 * u * u) / (2 * Scalar.pi)
  | quartic => if 1 < u then 0 else 3 / Scalar.pi * Scalar.square (1 - u * u)
  | triangular => if 1 < u then 0 else 3 / Scalar.pi * (1 - u)
  | uniform => if 1 < u then 0 else 1 / Scalar.pi

end Kernel

variable {K : Type} [Scalar K]

/-- A length that has to be positive and finite. -/
def Extent.check (e : Extent) (length : K) : Outcome K Unit :=
  if Scalar.isFinite length && 0 < length then .ok () else .refuse (.extentNotPositive e length)

namespace Segment

/-- Length of the part of a segment inside the disc around `c`. -/
def lengthInDisc (radius : K) (c a b : Position K) : K :=
  let dx := b.x - a.x
  let dy := b.y - a.y
  let fx := a.x - c.x
  let fy := a.y - c.y
  let qa := dx * dx + dy * dy
  let qb := 2 * (fx * dx + fy * dy)
  let qc := fx * fx + fy * fy - radius * radius
  let disc := qb * qb - 4 * qa * qc
  if qa == 0 then 0
  else if disc ≤ 0 then 0
  else
    let entry := Scalar.max ((-qb - Scalar.sqrt disc) / (2 * qa)) 0
    let leave := Scalar.min ((-qb + Scalar.sqrt disc) / (2 * qa)) 1
    if leave ≤ entry then 0 else (leave - entry) * Scalar.sqrt qa

end Segment

namespace Density

/-- Sum of weighted kernels around the points, over the squared bandwidth. -/
def kernelDensity (f : GridFrame K) (signal : Signal) (kernel : Kernel) (bandwidth : K)
    (weights : Option (List K)) (points : List (Position K)) : Outcome K (Grid K) := do
  Extent.bandwidth.check bandwidth
  if let some ws := weights then
    if ws.length ≠ points.length then Outcome.refuse (.weightCount points.length ws.length)
  let weighted := points.zip (weights.getD (points.map fun _ => 1))
  Grid.compute f signal fun row col =>
    let center := f.cellCenter row col
    some (Scalar.sum (weighted.map fun (p, w) =>
      w * kernel.weight (center.distance p / bandwidth)) / (bandwidth * bandwidth))

def discArea (radius : K) : K := Scalar.pi * radius * radius

/-- Number of points within the radius, over the area searched. -/
def pointDensity (f : GridFrame K) (signal : Signal) (radius : K) (points : List (Position K)) :
    Outcome K (Grid K) := do
  Extent.searchRadius.check radius
  Grid.compute f signal fun row col =>
    let center := f.cellCenter row col
    some (((points.countP fun p => center.distance p ≤ radius : Nat) : K) / discArea radius)

/-- Length of line within the radius, over the area searched. -/
def lineDensity (f : GridFrame K) (signal : Signal) (radius : K) (lines : List (Path K)) :
    Outcome K (Grid K) := do
  Extent.searchRadius.check radius
  let segments := lines.flatMap Path.pairs
  Grid.compute f signal fun row col =>
    let center := f.cellCenter row col
    some (Scalar.sum (segments.map fun s => Segment.lengthInDisc radius center s.1 s.2) /
      discArea radius)

end Density
end Geospatial
