import Geospatial.Position

/-! Position sequences as open lines and closed rings. A ring is closed when its last
position repeats the first in the plane; the operations that go round a ring accept it
open or closed. -/
namespace Geospatial

/-- An open line or a ring. -/
abbrev Path (K : Type) := List (Position K)

namespace Path

variable {K : Type} [Scalar K]

/-- Each element with its successor. -/
def pairs (l : List α) : List (α × α) := l.zip l.tail

/-- Each element with its successor, the last one with the first. -/
def cyclicPairs (l : List α) : List (α × α) := l.zip (l.tail ++ l.head?.toList)

/-- The last position repeats the first. -/
def endsMeet (ring : Path K) : Bool :=
  match ring.head?, ring.getLast? with
  | some a, some b => a.sameXY b
  | _, _ => false

/-- Appends the first position unless the ends meet already. -/
def close (ring : Path K) : Path K :=
  match ring.head?, ring.getLast? with
  | some a, some b => if a.sameXY b then ring else ring ++ [a]
  | _, _ => ring

/-- The positions without the one that closes the ring. -/
def opened (ring : Path K) : Path K :=
  if 1 < ring.length && ring.endsMeet then ring.dropLast else ring

/-- Appends the first position, whatever the last one is. -/
def closedCopy (vertices : Path K) : Path K := vertices ++ vertices.head?.toList

/-- Planar length. -/
def planarLength (path : Path K) : K := Scalar.sum ((pairs path).map fun s => s.1.distance s.2)

/-- Great-circle length on a sphere. -/
def haversineLength (radius : K) (path : Path K) : K :=
  Scalar.sum ((pairs path).map fun s => s.1.haversine radius s.2)

def cross (a b : Position K) : K := a.x * b.y - b.x * a.y

/-- Enclosed area, positive for a counter-clockwise ring; zero below three positions. -/
def signedArea (ring : Path K) : K :=
  if ring.length < 3 then 0
  else Scalar.sum ((cyclicPairs ring).map fun s => cross s.1 s.2) / 2

/-- Drops each position that repeats the one kept before it. -/
def withoutRepeats : Path K → Path K
  | [] => []
  | p :: ps => p :: go p ps
where
  go (last : Position K) : Path K → Path K
    | [] => []
    | q :: qs => if last.sameXY q then go last qs else q :: go q qs

end Path
end Geospatial
