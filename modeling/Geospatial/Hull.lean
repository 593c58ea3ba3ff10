import Geospatial.Order
import Geospatial.Segment

/-! Convex hulls by a scan round the lowest point. The hull is a closed counter-clockwise
ring without collinear vertices; points without area have none. -/
namespace Geospatial.Hull

variable {K : Type} [Scalar K]

/-- Order by abscissa, then ordinate. -/
def byColumn (a b : Position K) : Ordering := (Scalar.order a.x b.x).then (Scalar.order a.y b.y)

/-- Order by ordinate, then abscissa. -/
def byRow (a b : Position K) : Ordering := (Scalar.order a.y b.y).then (Scalar.order a.x b.x)

def distanceSquared (a b : Position K) : K := Scalar.square (a.x - b.x) + Scalar.square (a.y - b.y)

/-- Order by angle round a pivot below both points, then by distance from it. -/
def byAngle (pivot a b : Position K) : Ordering :=
  let turn := Segment.orientation pivot a b
  if 0 < turn then .lt
  else if turn < 0 then .gt
  else Scalar.order (distanceSquared pivot a) (distanceSquared pivot b)

/-- Drops vertices from the end of a reversed chain while the step to `p` turns right or
goes straight on. -/
def retreat (p : Position K) : Path K → Path K
  | b :: a :: rest => if Segment.orientation a b p ≤ 0 then retreat p (a :: rest) else b :: a :: rest
  | chain => chain

/-- The scan: the reversed chain of left turns through points in order of angle. -/
def scan (pivot : Position K) (points : Path K) : Path K :=
  points.foldl (fun chain p => p :: retreat p chain) [pivot]

/-- The lowest point, of several the leftmost, and the other points. -/
def splitPivot? (points : Path K) : Option (Position K × Path K) := do
  let (pivot, i) ← Order.least? (Order.on (·.1) byRow) points.zipIdx
  return (pivot, Order.swapRemove i points)

/-- The hull of some points as a closed ring; none where fewer than three are not on one
line. -/
def ring? (points : Path K) : Option (Path K) := do
  let distinct := Path.withoutRepeats (Order.sort byColumn (points.map Position.planar))
  if distinct.length < 3 then none
  let (pivot, others) ← splitPivot? distinct
  let chain := scan pivot (Order.sort (byAngle pivot) others)
  if chain.length < 3 then none else some (pivot :: chain).reverse

/-- The hull as a polygon. -/
def polygon? (points : Path K) : Option (Geometry K) :=
  (ring? points).map fun r => .polygon [r]

end Geospatial.Hull
