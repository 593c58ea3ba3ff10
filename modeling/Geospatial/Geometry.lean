import Geospatial.Bounds
import Geospatial.Path

/-! Vector geometries: points, lines, polygons, their multiples and collections. A
polygon lists its exterior ring and then its holes. The type admits malformed values,
such as open rings and empty multiples; `Geometry.check` tells them apart. -/
namespace Geospatial

inductive GeometryKind where
  | point | lineString | polygon | multiPoint | multiLineString | multiPolygon | collection
  deriving DecidableEq

namespace GeometryKind

def name : GeometryKind → String
  | .point => "Point"
  | .lineString => "LineString"
  | .polygon => "Polygon"
  | .multiPoint => "MultiPoint"
  | .multiLineString => "MultiLineString"
  | .multiPolygon => "MultiPolygon"
  | .collection => "GeometryCollection"

def all : List GeometryKind :=
  [.point, .lineString, .polygon, .multiPoint, .multiLineString, .multiPolygon, .collection]

def ofName? (s : String) : Option GeometryKind := all.find? fun k => k.name == s

def isPolygonal : GeometryKind → Bool
  | .polygon | .multiPolygon => true
  | _ => false

end GeometryKind

inductive Geometry (K : Type) where
  | point (p : Position K)
  | lineString (line : Path K)
  | polygon (rings : List (Path K))
  | multiPoint (points : Path K)
  | multiLineString (lines : List (Path K))
  | multiPolygon (polygons : List (List (Path K)))
  | collection (members : List (Geometry K))

namespace Geometry

variable {K : Type}

def kind : Geometry K → GeometryKind
  | .point _ => .point
  | .lineString _ => .lineString
  | .polygon _ => .polygon
  | .multiPoint _ => .multiPoint
  | .multiLineString _ => .multiLineString
  | .multiPolygon _ => .multiPolygon
  | .collection _ => .collection

def isPolygonal (g : Geometry K) : Bool := g.kind.isPolygonal

/-- Ring lists of a polygonal geometry; no other kind has any. -/
def polygons : Geometry K → List (List (Path K))
  | .polygon rings => [rings]
  | .multiPolygon ps => ps
  | _ => []

mutual

/-- Same kind and equal positions in the same order, heights included. -/
def beq [Scalar K] : Geometry K → Geometry K → Bool
  | .point p, .point q => p == q
  | .lineString a, .lineString b => a == b
  | .polygon a, .polygon b => a == b
  | .multiPoint a, .multiPoint b => a == b
  | .multiLineString a, .multiLineString b => a == b
  | .multiPolygon a, .multiPolygon b => a == b
  | .collection a, .collection b => beqAll a b
  | _, _ => false

def beqAll [Scalar K] : List (Geometry K) → List (Geometry K) → Bool
  | [], [] => true
  | a :: as, b :: bs => a.beq b && beqAll as bs
  | _, _ => false

end

instance [Scalar K] : BEq (Geometry K) := ⟨beq⟩

mutual

/-- Every position in document order. -/
def positions : Geometry K → List (Position K)
  | .point p => [p]
  | .lineString line => line
  | .polygon rings => rings.flatten
  | .multiPoint points => points
  | .multiLineString lines => lines.flatten
  | .multiPolygon ps => ps.flatten.flatten
  | .collection gs => positionsOfAll gs

def positionsOfAll : List (Geometry K) → List (Position K)
  | [] => []
  | g :: gs => g.positions ++ positionsOfAll gs

end

def positionCount (g : Geometry K) : Nat := g.positions.length

def isEmpty (g : Geometry K) : Bool := g.positions.isEmpty

mutual

/-- Consecutive pairs along lines and rings; points have none. -/
def segments : Geometry K → List (Position K × Position K)
  | .point _ => []
  | .multiPoint _ => []
  | .lineString line => Path.pairs line
  | .polygon rings => rings.flatMap Path.pairs
  | .multiLineString lines => lines.flatMap Path.pairs
  | .multiPolygon ps => ps.flatten.flatMap Path.pairs
  | .collection gs => segmentsOfAll gs

def segmentsOfAll : List (Geometry K) → List (Position K × Position K)
  | [] => []
  | g :: gs => g.segments ++ segmentsOfAll gs

end

mutual

/-- Rebuilds the geometry with each of its paths changed by `f`; kinds, nesting and the
order of members stay. -/
def mapPaths (f : Path K → Path K) : Geometry K → Geometry K
  | .point p => .point p
  | .lineString line => .lineString (f line)
  | .polygon rings => .polygon (rings.map f)
  | .multiPoint points => .multiPoint (f points)
  | .multiLineString lines => .multiLineString (lines.map f)
  | .multiPolygon ps => .multiPolygon (ps.map fun rings => rings.map f)
  | .collection gs => .collection (mapPathsAll f gs)

def mapPathsAll (f : Path K → Path K) : List (Geometry K) → List (Geometry K)
  | [] => []
  | g :: gs => g.mapPaths f :: mapPathsAll f gs

end

mutual

/-- Rebuilds the geometry with its lines changed by `onLine` and the ring lists of its
polygons by `onRings`; points stay. -/
def mapParts (onLine : Path K → Path K) (onRings : List (Path K) → List (Path K)) :
    Geometry K → Geometry K
  | .point p => .point p
  | .lineString line => .lineString (onLine line)
  | .polygon rings => .polygon (onRings rings)
  | .multiPoint points => .multiPoint points
  | .multiLineString lines => .multiLineString (lines.map onLine)
  | .multiPolygon ps => .multiPolygon (ps.map onRings)
  | .collection gs => .collection (mapPartsAll onLine onRings gs)

def mapPartsAll (onLine : Path K → Path K) (onRings : List (Path K) → List (Path K)) :
    List (Geometry K) → List (Geometry K)
  | [] => []
  | g :: gs => g.mapParts onLine onRings :: mapPartsAll onLine onRings gs

end

/-- Reverses every position sequence and keeps the order of members. -/
def reverse (g : Geometry K) : Geometry K := g.mapPaths List.reverse

mutual

/-- Passes every position through `f` in document order, whatever the effects of `f` are; one that
fails ends at the first failure. -/
def mapPositionsM {m : Type → Type} [Monad m] (f : Position K → m (Position K)) :
    Geometry K → m (Geometry K)
  | .point p => return .point (← f p)
  | .lineString line => return .lineString (← line.mapM f)
  | .polygon rings => return .polygon (← rings.mapM fun r => r.mapM f)
  | .multiPoint points => return .multiPoint (← points.mapM f)
  | .multiLineString lines => return .multiLineString (← lines.mapM fun l => l.mapM f)
  | .multiPolygon ps => return .multiPolygon (← ps.mapM fun rings => rings.mapM fun r => r.mapM f)
  | .collection gs => return .collection (← mapPositionsAllM f gs)

def mapPositionsAllM {m : Type → Type} [Monad m] (f : Position K → m (Position K)) :
    List (Geometry K) → m (List (Geometry K))
  | [] => return []
  | g :: gs => return (← g.mapPositionsM f) :: (← mapPositionsAllM f gs)

end

mutual

/-- The geometry in the plane with every polygon ring closed. A polygon without rings
gets one empty ring. -/
def planar [Scalar K] : Geometry K → Geometry K
  | .point p => .point p.planar
  | .lineString line => .lineString (line.map Position.planar)
  | .polygon rings => .polygon (planarRings rings)
  | .multiPoint points => .multiPoint (points.map Position.planar)
  | .multiLineString lines => .multiLineString (lines.map fun l => l.map Position.planar)
  | .multiPolygon ps => .multiPolygon (ps.map planarRings)
  | .collection gs => .collection (planarAll gs)

def planarAll [Scalar K] : List (Geometry K) → List (Geometry K)
  | [] => []
  | g :: gs => g.planar :: planarAll gs

def planarRings [Scalar K] (rings : List (Path K)) : List (Path K) :=
  if rings.isEmpty then [[]] else rings.map fun r => Path.close (r.map Position.planar)

end

/-- The least box over all positions, none for a geometry without positions. -/
def bounds? [Scalar K] (g : Geometry K) : Option (Bounds K) := Bounds.ofPositions? g.positions

end Geometry
end Geospatial
