import Geospatial.Scalar

/-! Positions and planar points. For geographic data `x` is longitude and `y` latitude,
in degrees; a height is carried along and takes no part in planar computations. -/
namespace Geospatial

structure Position (K : Type) where
  x : K
  y : K
  z : Option K := none
  deriving BEq

namespace Position

variable {K : Type} [Scalar K]

def lon (p : Position K) : K := p.x

def lat (p : Position K) : K := p.y

/-- The height, zero when there is none. -/
def height (p : Position K) : K := p.z.getD 0

/-- Every coordinate that is present is finite. -/
def isFinite (p : Position K) : Bool :=
  Scalar.isFinite p.x && Scalar.isFinite p.y && p.z.all Scalar.isFinite

/-- Same place in the plane, heights aside. -/
def sameXY (p q : Position K) : Bool := p.x == q.x && p.y == q.y

/-- The position without its height. -/
def planar (p : Position K) : Position K := ⟨p.x, p.y, none⟩

/-- The coordinates that are present, in order. -/
def coordinates (p : Position K) : List K := p.x :: p.y :: p.z.toList

/-- Planar distance. -/
def distance (a b : Position K) : K := Scalar.hypot (b.x - a.x) (b.y - a.y)

/-- Great-circle distance on a sphere of the given radius, by the haversine formula. -/
def haversine (radius : K) (a b : Position K) : K :=
  let lat1 := Scalar.radians a.y
  let lat2 := Scalar.radians b.y
  let dLat := Scalar.radians (b.y - a.y)
  let dLon := Scalar.radians (b.x - a.x)
  let h := Scalar.square (Scalar.sin (dLat / 2)) +
    Scalar.cos lat1 * Scalar.cos lat2 * Scalar.square (Scalar.sin (dLon / 2))
  radius * (2 * Scalar.atan2 (Scalar.sqrt h) (Scalar.sqrt (1 - h)))

/-- Radius of the sphere that great-circle distances use by default, in meters. -/
def earthRadius : K := 6371000

/-- Arithmetic mean in the plane, none for no positions. -/
def mean? (ps : List (Position K)) : Option (Position K) :=
  if ps.isEmpty then none
  else
    let n : K := Nat.cast ps.length
    some ⟨Scalar.sum (ps.map (·.x)) / n, Scalar.sum (ps.map (·.y)) / n, none⟩

end Position
end Geospatial
