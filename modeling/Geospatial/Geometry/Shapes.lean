import Geospatial.Geometry.Check

/-! Closed figures from parameters: ellipses, regular polygons, stars and rectangles.
Vertices run counter-clockwise and the first one closes the ring. Angles are in degrees
from the x axis. -/
namespace Geospatial.Geometry

variable {K : Type} [Scalar K]

/-- A polygon whose single ring has the given vertices, checked. -/
def ofVertices (vertices : Path K) : Outcome K (Geometry K) :=
  (createPolygon [Path.closedCopy vertices]).mapError .structural

/-- Angle of the vertex `i` of `n`, as a share of the full turn. -/
def turn (i n : Nat) : K := 2 * Scalar.pi * Nat.cast i / Nat.cast n

/-- The point at an angle and a distance from a center. -/
def polar (center : Position K) (r theta : K) : Position K :=
  ⟨center.x + r * Scalar.cos theta, center.y + r * Scalar.sin theta, none⟩

/-- An ellipse of `steps` vertices with its first axis turned by `rotation`. -/
def ellipse (center : Position K) (rx ry rotation : K) (steps : Nat) : Outcome K (Geometry K) :=
  if steps < 3 then .refuse (.circleSteps steps)
  else if !(Scalar.isFinite rx && Scalar.isFinite ry && 0 < rx && 0 < ry) then
    .refuse (.ellipseRadii rx ry)
  else
    let angle : K := Scalar.radians rotation
    let sinR := Scalar.sin angle
    let cosR := Scalar.cos angle
    ofVertices <| (List.range steps).map fun i =>
      let theta : K := turn i steps
      let x := rx * Scalar.cos theta
      let y := ry * Scalar.sin theta
      ⟨center.x + x * cosR - y * sinR, center.y + x * sinR + y * cosR, none⟩

def circle (center : Position K) (radius : K) (steps : Nat) : Outcome K (Geometry K) :=
  ellipse center radius radius 0 steps

/-- A polygon of equal sides with its first vertex at `rotation`. -/
def regularPolygon (center : Position K) (radius : K) (sides : Nat) (rotation : K) :
    Outcome K (Geometry K) :=
  if sides < 3 then .refuse (.polygonSides sides)
  else if !(Scalar.isFinite radius && 0 < radius) then .refuse (.polygonRadius radius)
  else
    ofVertices <| (List.range sides).map fun i =>
      polar center radius (Scalar.radians rotation + turn i sides)

/-- A star with its first tip upward, before rotation, and tips and notches in turn. -/
def star (center : Position K) (outer inner : K) (points : Nat) (rotation : K) :
    Outcome K (Geometry K) :=
  if points < 2 then .refuse (.starPoints points)
  else if !(Scalar.isFinite outer && Scalar.isFinite inner) || inner ≤ 0 || outer ≤ inner then
    .refuse (.starRadii inner outer)
  else
    let start := Scalar.pi / 2 + Scalar.radians rotation
    ofVertices <| (List.range (points * 2)).map fun i =>
      polar center (if i % 2 = 0 then outer else inner) (start + turn i (points * 2))

/-- The outline of a box from its lower left corner. -/
def rectangle (b : Bounds K) : Geometry K :=
  .polygon [[⟨b.minX, b.minY, none⟩, ⟨b.maxX, b.minY, none⟩, ⟨b.maxX, b.maxY, none⟩,
    ⟨b.minX, b.maxY, none⟩, ⟨b.minX, b.minY, none⟩]]

end Geospatial.Geometry
