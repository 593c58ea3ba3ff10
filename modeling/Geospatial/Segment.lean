import Geospatial.Geometry

/-! Tests on points, segments and rings in the plane. Points within `tolerance` of a
segment count as lying on it. -/
namespace Geospatial

variable {K : Type} [Scalar K]

namespace Segment

def tolerance : K := 1e-10

/-- Twice the signed area of a triangle, positive when it runs counter-clockwise. -/
def orientation (a b c : Position K) : K :=
  (b.x - a.x) * (c.y - a.y) - (b.y - a.y) * (c.x - a.x)

/-- Within the box of the segment, widened by the tolerance. -/
def inBox (p a b : Position K) : Bool :=
  Scalar.min a.x b.x - tolerance ≤ p.x && p.x ≤ Scalar.max a.x b.x + tolerance &&
    Scalar.min a.y b.y - tolerance ≤ p.y && p.y ≤ Scalar.max a.y b.y + tolerance

/-- The point lies on the closed segment. -/
def hasPoint (p a b : Position K) : Bool :=
  let scale := Scalar.max (Scalar.max (Scalar.abs (b.x - a.x)) (Scalar.abs (b.y - a.y))) 1
  Scalar.abs (orientation a b p) ≤ tolerance * scale && inBox p a b

/-- The signs are opposite and neither value is within the tolerance of zero. -/
def opposite (d e : K) : Bool :=
  (tolerance < d && e < -tolerance) || (d < -tolerance && tolerance < e)

/-- The closed segments share a point; touching ends and collinear overlap count. -/
def intersects (a₁ a₂ b₁ b₂ : Position K) : Bool :=
  let d₁ := orientation b₁ b₂ a₁
  let d₂ := orientation b₁ b₂ a₂
  let d₃ := orientation a₁ a₂ b₁
  let d₄ := orientation a₁ a₂ b₂
  (opposite d₁ d₂ && opposite d₃ d₄) ||
    (Scalar.abs d₁ ≤ tolerance && inBox a₁ b₁ b₂) ||
    (Scalar.abs d₂ ≤ tolerance && inBox a₂ b₁ b₂) ||
    (Scalar.abs d₃ ≤ tolerance && inBox b₁ a₁ a₂) ||
    (Scalar.abs d₄ ≤ tolerance && inBox b₂ a₁ a₂)

/-- The common point of two segments that are not parallel. -/
def crossing? (a₁ a₂ b₁ b₂ : Position K) : Option (Position K) :=
  let denom := (a₂.x - a₁.x) * (b₂.y - b₁.y) - (a₂.y - a₁.y) * (b₂.x - b₁.x)
  if Scalar.abs denom < tolerance then none
  else
    let t := ((b₁.x - a₁.x) * (b₂.y - b₁.y) - (b₁.y - a₁.y) * (b₂.x - b₁.x)) / denom
    let u := ((b₁.x - a₁.x) * (a₂.y - a₁.y) - (b₁.y - a₁.y) * (a₂.x - a₁.x)) / denom
    if Scalar.within 0 1 t && Scalar.within 0 1 u then
      some ⟨a₁.x + t * (a₂.x - a₁.x), a₁.y + t * (a₂.y - a₁.y), none⟩
    else none

/-- Planar distance from a point to the closed segment. -/
def distance (p a b : Position K) : K :=
  let dx := b.x - a.x
  let dy := b.y - a.y
  let lengthSquared := dx * dx + dy * dy
  if lengthSquared == 0 then p.distance a
  else
    let t := Scalar.clamp 0 1 (((p.x - a.x) * dx + (p.y - a.y) * dy) / lengthSquared)
    Scalar.hypot (p.x - (a.x + t * dx)) (p.y - (a.y + t * dy))

end Segment

/-- Where a point lies relative to a ring. -/
inductive RingSide where
  | inside | boundary | outside
  deriving DecidableEq

def RingSide.name : RingSide → String
  | inside => "Inside"
  | boundary => "Boundary"
  | outside => "Outside"

namespace Path

/-- The point lies on the line; a line of one position is that point. -/
def hasPoint (line : Path K) (p : Position K) : Bool :=
  match line with
  | [] => false
  | [only] => only.sameXY p
  | line => (pairs line).any fun s => Segment.hasPoint p s.1 s.2

/-- The horizontal ray to the right of `p` crosses the edge. -/
def rayCrosses (p a b : Position K) : Bool :=
  (decide (p.y < a.y) != decide (p.y < b.y)) &&
    decide (p.x < (b.x - a.x) * (p.y - a.y) / (b.y - a.y) + a.x)

/-- Side of a ring, open or closed, on which a point lies, by counting crossings. -/
def side (ring : Path K) (p : Position K) : RingSide :=
  let vertices := ring.opened
  if vertices.length < 3 then .outside
  else
    let edges := cyclicPairs vertices
    if edges.any fun e => Segment.hasPoint p e.2 e.1 then .boundary
    else if (edges.countP fun e => rayCrosses p e.2 e.1) % 2 = 1 then .inside
    else .outside

end Path

namespace Geometry

/-- The point lies in the polygon; boundaries belong to it, those of holes too. -/
def polygonHasPoint (rings : List (Path K)) (p : Position K) : Bool :=
  match rings with
  | [] => false
  | exterior :: holes =>
    match exterior.side p with
    | .outside => false
    | .boundary => true
    | .inside => holes.all fun h => h.side p != .inside

mutual

/-- The point lies in the geometry or on its boundary. -/
def hasPoint (p : Position K) : Geometry K → Bool
  | .point q => q.sameXY p
  | .multiPoint points => points.any fun q => q.sameXY p
  | .lineString line => line.hasPoint p
  | .multiLineString lines => lines.any fun l => l.hasPoint p
  | .polygon rings => polygonHasPoint rings p
  | .multiPolygon ps => ps.any fun rings => polygonHasPoint rings p
  | .collection gs => anyHasPoint p gs

def anyHasPoint (p : Position K) : List (Geometry K) → Bool
  | [] => false
  | g :: gs => g.hasPoint p || anyHasPoint p gs

end

end Geometry
end Geospatial
