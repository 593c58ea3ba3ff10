import Geospatial.Geometry

/-! Area, length and centroid of geometries. A polygon's area is that of its exterior
less its holes, never negative. The centroid weighs by area where there is any, else by
length, else it is the mean of the positions. -/
namespace Geospatial.Geometry

variable {K : Type} [Scalar K]

def polygonArea : List (Path K) → K
  | [] => 0
  | exterior :: holes =>
    let removed := Scalar.sum (holes.map fun h => Scalar.abs h.signedArea)
    Scalar.max (Scalar.abs exterior.signedArea - removed) 0

mutual

/-- Planar area; points and lines have none. -/
def area : Geometry K → K
  | .polygon rings => polygonArea rings
  | .multiPolygon ps => Scalar.sum (ps.map polygonArea)
  | .collection gs => Scalar.sum (areas gs)
  | _ => 0

def areas : List (Geometry K) → List K
  | [] => []
  | g :: gs => g.area :: areas gs

end

mutual

/-- Sum of `measure` over all lines and rings, member by member; points have none. -/
def totalLength (measure : Path K → K) : Geometry K → K
  | .point _ => 0
  | .multiPoint _ => 0
  | .lineString line => measure line
  | .polygon rings => Scalar.sum (rings.map measure)
  | .multiLineString lines => Scalar.sum (lines.map measure)
  | .multiPolygon ps => Scalar.sum (ps.flatten.map measure)
  | .collection gs => Scalar.sum (totalLengths measure gs)

def totalLengths (measure : Path K → K) : List (Geometry K) → List K
  | [] => []
  | g :: gs => g.totalLength measure :: totalLengths measure gs

end

/-- Planar length of lines and perimeter of polygons, holes included. -/
def length (g : Geometry K) : K := g.totalLength Path.planarLength

/-- Great-circle length in the unit of the radius. -/
def haversineLength (radius : K) (g : Geometry K) : K := g.totalLength (Path.haversineLength radius)

/-- Weighted sums of places, one for each dimension. -/
structure Moments (K : Type) where
  area : K
  areaX : K
  areaY : K
  length : K
  lengthX : K
  lengthY : K
  count : Nat
  sumX : K
  sumY : K

namespace Moments

def zero : Moments K := ⟨0, 0, 0, 0, 0, 0, 0, 0, 0⟩

def addPoint (m : Moments K) (p : Position K) : Moments K :=
  { m with count := m.count + 1, sumX := m.sumX + p.x, sumY := m.sumY + p.y }

def addSegment (m : Moments K) (s : Position K × Position K) : Moments K :=
  let len := s.1.distance s.2
  { m with
    length := m.length + len
    lengthX := m.lengthX + len * (s.1.x + s.2.x) / 2
    lengthY := m.lengthY + len * (s.1.y + s.2.y) / 2 }

def addPath (m : Moments K) (path : Path K) : Moments K :=
  path.foldl addPoint ((Path.pairs path).foldl addSegment m)

/-- Adds a ring's area with the given sign; a ring without area adds nothing. -/
def addRing (m : Moments K) (ring : Path K) (sign : K) : Moments K :=
  let signed := ring.signedArea
  if signed == 0 then m
  else
    let edges := Path.cyclicPairs ring
    let cx := Scalar.sum (edges.map fun e => (e.1.x + e.2.x) * Path.cross e.1 e.2)
    let cy := Scalar.sum (edges.map fun e => (e.1.y + e.2.y) * Path.cross e.1 e.2)
    let weight := Scalar.abs signed * sign
    { m with
      area := m.area + weight
      areaX := m.areaX + weight * cx / (6 * signed)
      areaY := m.areaY + weight * cy / (6 * signed) }

def addPolygon (m : Moments K) : List (Path K) → Moments K
  | [] => m
  | exterior :: holes =>
    holes.foldl (fun m h => (m.addRing h (-1)).addPath h) ((m.addRing exterior 1).addPath exterior)

mutual

def add (m : Moments K) : Geometry K → Moments K
  | .point p => m.addPoint p
  | .multiPoint points => points.foldl addPoint m
  | .lineString line => m.addPath line
  | .multiLineString lines => lines.foldl addPath m
  | .polygon rings => m.addPolygon rings
  | .multiPolygon ps => ps.foldl addPolygon m
  | .collection gs => m.addAll gs

def addAll (m : Moments K) : List (Geometry K) → Moments K
  | [] => m
  | g :: gs => (m.add g).addAll gs

end

/-- Areas below this one do not carry a centroid. -/
def leastArea : K := 1 / 4503599627370496

def center? (m : Moments K) : Option (Position K) :=
  if leastArea < Scalar.abs m.area then some ⟨m.areaX / m.area, m.areaY / m.area, none⟩
  else if 0 < m.length then some ⟨m.lengthX / m.length, m.lengthY / m.length, none⟩
  else if 0 < m.count then
    some ⟨m.sumX / (Nat.cast m.count : K), m.sumY / (Nat.cast m.count : K), none⟩
  else none

end Moments

/-- Center of the highest dimension present, none for a geometry without positions. -/
def centroid? (g : Geometry K) : Option (Position K) := (Moments.zero.add g).center?

end Geospatial.Geometry
