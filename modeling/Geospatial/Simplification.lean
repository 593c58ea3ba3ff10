import Geospatial.Order
import Geospatial.Fault
import Geospatial.Simplification.ChordSearch

/-! Lines with fewer, more or smoother vertices. Every operation but smoothing keeps the
ends of a line and the order of the vertices it keeps. -/
namespace Geospatial

namespace Path

variable {K : Type} [Scalar K]

/-- First position, those between, and last position of a line of two or more. -/
def ends? (points : Path K) : Option (Position K × Path K × Position K) :=
  match points with
  | a :: b :: rest => some (a, (b :: rest).dropLast, (b :: rest).getLast (List.cons_ne_nil b rest))
  | _ => none

/-- Drops the positions within the tolerance of the one kept before them. -/
def thinFrom (tolerance : K) (last : Position K) : Path K → Path K
  | [] => []
  | p :: ps =>
    if tolerance < last.distance p then p :: thinFrom tolerance p ps else thinFrom tolerance last ps

/-- Drops the vertices within the tolerance of the one kept before; the ends stay. -/
def simplifyByDistance (points : Path K) (tolerance : K) : Path K :=
  match ends? points with
  | none => points
  | some (a, middle, b) => a :: thinFrom tolerance a middle ++ [b]

def triangleArea (a b c : Position K) : K :=
  Scalar.abs ((b.x - a.x) * (c.y - a.y) - (c.x - a.x) * (b.y - a.y)) / 2

/-- Area of the triangle of each inner vertex with its neighbors. -/
def triangleAreas : Path K → List K
  | a :: b :: c :: rest => triangleArea a b c :: triangleAreas (b :: c :: rest)
  | _ => []

/-- Removes the inner vertex with the least triangle, if that is less than `minArea`. -/
def dropLeastTriangle? (minArea : K) (points : Path K) : Option (Path K) := do
  let (area, i) ← Order.least? (Order.on (·.1) Scalar.totalOrder) (triangleAreas points).zipIdx
  if area < minArea then some (points.eraseIdx (i + 1)) else none

/-- Removes the vertex with the least triangle again and again, until no triangle is less
than `minArea`. -/
def simplifyByArea (points : Path K) (minArea : K) : Path K :=
  Order.shrink (dropLeastTriangle? minArea) points

/-- More than two positions of which the last repeats the first. -/
def isLoop (points : Path K) : Bool := 2 < points.length && points.endsMeet

/-- The points at a quarter and three quarters of a segment. -/
def quarters (a b : Position K) : Path K :=
  [⟨0.75 * a.x + 0.25 * b.x, 0.75 * a.y + 0.25 * b.y, none⟩,
    ⟨0.25 * a.x + 0.75 * b.x, 0.25 * a.y + 0.75 * b.y, none⟩]

/-- Cuts every corner once. A loop is cut all the way round, any other line keeps its
ends. -/
def cutCorners (points : Path K) : Path K :=
  let inner := (pairs points).flatMap fun s => quarters s.1 s.2
  if points.isLoop then closedCopy inner
  else points.head?.toList ++ inner ++ points.getLast?.toList

/-- Cuts the corners of a line again and again. Fewer than three positions have none. -/
def smooth (points : Path K) (rounds : Nat) : Path K :=
  if points.length < 3 then points else rounds.repeat cutCorners points

/-- The vertices strictly inside a segment that is cut into equal pieces. -/
def subdivision (a b : Position K) (pieces : Nat) : Path K :=
  (List.range (pieces - 1)).map fun i =>
    let t : K := Nat.cast (i + 1) / Nat.cast pieces
    ⟨a.x + t * (b.x - a.x), a.y + t * (b.y - a.y), none⟩

/-- Pieces of at most `maxLength` that a segment is cut into. -/
def pieceCount (maxLength : K) (a b : Position K) : Nat :=
  Scalar.toNat (Scalar.max (Scalar.ceil (a.distance b / maxLength)) 1)

/-- Inserts vertices at even distances, so that no segment is longer than `maxLength`. -/
def densify (points : Path K) (maxLength : K) : Outcome K (Path K) :=
  if !(Scalar.isFinite maxLength && 0 < maxLength) then .refuse (.densifyLength maxLength)
  else
    .ok (points.head?.toList ++ (pairs points).flatMap fun s =>
      subdivision s.1 s.2 (pieceCount maxLength s.1 s.2) ++ [s.2])

/-- Turn at `b` in degrees: zero straight on, a half turn for the way back. None where an
edge has no length. -/
def turnAngle? (a b c : Position K) : Option K :=
  let ux := b.x - a.x
  let uy := b.y - a.y
  let vx := c.x - b.x
  let vy := c.y - b.y
  let norms := Scalar.hypot ux uy * Scalar.hypot vx vy
  if norms == 0 then none
  else some (Scalar.degrees (Scalar.acos (Scalar.clamp (-1) 1 ((ux * vx + uy * vy) / norms))))

def isSpike (threshold : K) (a b c : Position K) : Bool :=
  (turnAngle? a b c).any fun angle => threshold < angle

/-- Each vertex that has two neighbors, as a spike or not. -/
def spikeFlags (threshold : K) : Path K → List Bool
  | a :: b :: c :: rest => isSpike threshold a b c :: spikeFlags threshold (b :: c :: rest)
  | _ => []

/-- Removes the first spike of an open line of more than two vertices. -/
def dropSpike? (threshold : K) (points : Path K) : Option (Path K) := do
  if points.length ≤ 2 then none
  let i ← (spikeFlags threshold points).findIdx? id
  return points.eraseIdx (i + 1)

/-- Removes the first spike of a ring of more than three vertices, written without the
position that closes it. -/
def dropRingSpike? (threshold : K) (ring : Path K) : Option (Path K) := do
  if ring.length ≤ 3 then none
  let i ← (spikeFlags threshold (ring.getLast?.toList ++ ring ++ ring.head?.toList)).findIdx? id
  return ring.eraseIdx i

/-- Removes spikes, one after the other, until none is left. A loop stays closed. -/
def removeSpikes (points : Path K) (threshold : K) : Path K :=
  if points.isLoop then closedCopy (Order.shrink (dropRingSpike? threshold) points.dropLast)
  else Order.shrink (dropSpike? threshold) points

end Path

namespace Geometry

variable {K : Type} [Scalar K]

/-- By chords alone for high quality, else thinned by distance first. -/
def simplifyLine (tolerance : K) (highQuality : Bool) (line : Path K) : Path K :=
  if highQuality then line.simplifyByChord tolerance
  else (line.simplifyByDistance tolerance).simplifyByChord tolerance

/-- A ring that would have fewer than four positions stays as it is. -/
def simplifyRing (tolerance : K) (highQuality : Bool) (ring : Path K) : Path K :=
  let simpler := simplifyLine tolerance highQuality ring
  if simpler.length < 4 then ring else simpler

/-- Simplifies every line and ring; points stay. -/
def simplify (g : Geometry K) (tolerance : K) (highQuality : Bool) : Outcome K (Geometry K) :=
  if !(Scalar.isFinite tolerance && 0 ≤ tolerance) then .refuse (.simplifyTolerance tolerance)
  else
    .ok (g.mapParts (simplifyLine tolerance highQuality)
      fun rings => rings.map (simplifyRing tolerance highQuality))

end Geometry
end Geospatial
