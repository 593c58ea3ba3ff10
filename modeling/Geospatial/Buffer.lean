import Geospatial.Geometry.Shapes
import Geospatial.Settings

/-! Buffers: the area within a distance of a geometry, in the plane. Points become
circles, lines bands with caps, and polygons grow by moving their edges; a hole that the
distance fills disappears. Bands and rings ask for the normals of their edges, and of no other
pairs of positions. -/
namespace Geospatial

inductive LengthUnit where
  | meters | kilometers | feet | miles | degrees
  deriving DecidableEq

namespace LengthUnit

def name : LengthUnit → String
  | .meters => "meters"
  | .kilometers => "kilometers"
  | .feet => "feet"
  | .miles => "miles"
  | .degrees => "degrees"

def all : List LengthUnit := [.meters, .kilometers, .feet, .miles, .degrees]

def ofName? (s : String) : Option LengthUnit := all.find? fun u => u.name == s

/-- Length of the unit; a degree is one of arc at the equator. -/
def inMeters {K : Type} [Scalar K] : LengthUnit → K
  | .meters => 1
  | .kilometers => 1000
  | .feet => 0.3048
  | .miles => 1609.34
  | .degrees => 111320

end LengthUnit

/-- How the band round a line ends. -/
inductive Cap where
  | round | flat | square
  deriving DecidableEq

namespace Cap

def name : Cap → String
  | .round => "round"
  | .flat => "flat"
  | .square => "square"

def ofName? (s : String) : Option Cap := [round, flat, square].find? fun c => c.name == s

end Cap

structure BufferOptions (K : Type) where
  distance : K
  units : LengthUnit := .meters
  /-- Vertices of a full circle. -/
  steps : Nat := 32
  cap : Cap := .round

namespace BufferOptions

variable {K : Type} [Scalar K]

def ofSettings (s : Settings K) (distance : K) : BufferOptions K :=
  { distance, steps := s.bufferSteps }

def meters (o : BufferOptions K) : K := o.distance * o.units.inMeters

open Json (Tree) in
/-- Options from a JSON document; the distance must be given, unknown names are skipped. -/
def read? (t : Tree) : Option (BufferOptions Float) := do
  let [distance, units, steps, cap] ←
      Json.recordMembers? ["distance", "units", "steps", "cap"] .skip t
    | none
  return {
    distance := ← (← distance).double?
    units := ← Tree.withDefault? .meters (fun t => do LengthUnit.ofName? (← t.name?)) units
    steps := ← Tree.withDefault? 32 Tree.natural? steps
    cap := ← Tree.withDefault? .round (fun t => do Cap.ofName? (← t.name?)) cap }

def ofJson (text : String) : Outcome Float (BufferOptions Float) :=
  match (Json.Tree.read? text).bind read? with
  | some o => .ok o
  | none => .error (.document .notJson)

/-- The distance in meters, once the options are found in range. -/
def checkedMeters (o : BufferOptions K) : Outcome K K :=
  if !(Scalar.isFinite o.meters && 0 < o.meters) then .refuse (.bufferDistance o.distance)
  else if o.steps < 3 then .refuse (.bufferSteps o.steps)
  else .ok o.meters

end BufferOptions

namespace Buffer

variable {K : Type} [Scalar K]

/-- A displacement in the plane. -/
structure Shift (K : Type) where
  x : K
  y : K

namespace Shift

def scale (v : Shift K) (k : K) : Shift K := ⟨v.x * k, v.y * k⟩

end Shift

def translate (p : Position K) (v : Shift K) : Position K := ⟨p.x + v.x, p.y + v.y, none⟩

def translateBack (p : Position K) (v : Shift K) : Position K := ⟨p.x - v.x, p.y - v.y, none⟩

/-- Unit vector to the left of the direction from `a` to `b`. -/
def normal (a b : Position K) : Shift K :=
  let dx := b.x - a.x
  let dy := b.y - a.y
  let length := Scalar.hypot dx dy
  ⟨-dy / length, dx / length⟩

/-- Normals shorter than this have no direction. -/
def shortest : K := 1e-12

/-- Offset at a joint of two edges with the given normals, which keeps the distance `d`
from both edges and is at most twice as long. -/
def jointOffset (n₁ n₂ : Shift K) (d : K) : Shift K :=
  let sx := n₁.x + n₂.x
  let sy := n₁.y + n₂.y
  let length := Scalar.hypot sx sy
  if length < shortest then n₁.scale d
  else
    let nx := sx / length
    let ny := sy / length
    let cosHalf := Scalar.max (nx * n₁.x + ny * n₁.y) 0.5
    ⟨nx * d / cosHalf, ny * d / cosHalf⟩

/-- The circle round a point, as the rings of a polygon. -/
def pointRings (center : Position K) (d : K) (steps : Nat) : List (Path K) :=
  [Path.closedCopy ((List.range steps).map fun i => Geometry.polar center d (Geometry.turn i steps))]

/-- The vertices strictly inside an arc that is cut into equal pieces. -/
def arcInterior (center : Position K) (d start sweep : K) (pieces : Nat) : Path K :=
  (List.range (pieces - 1)).map fun i =>
    Geometry.polar center d (start + sweep * Nat.cast (i + 1) / Nat.cast pieces)

/-- Offsets of the vertices of an open line from the normals of its edges: those of the
end edges at the ends, joints in between. -/
def lineOffsets (d : K) : List (Shift K) → List (Shift K)
  | [] => []
  | n :: ns => n.scale d :: ((Path.pairs (n :: ns)).map fun p => jointOffset p.1 p.2 d) ++
      [((n :: ns).getLast (List.cons_ne_nil n ns)).scale d]

def heading (a b : Position K) : K := Scalar.atan2 (b.y - a.y) (b.x - a.x)

section

variable (normalOf : Position K → Position K → Shift K)

/-- The band round a line from `a₀` over `a₁` to `b₁` and `b₀`, the outer pairs being its
end edges: the right side forward, the end, the left side back, the start. -/
def bandRing (path : Path K) (a₀ a₁ b₁ b₀ : Position K) (d : K) (o : BufferOptions K) : Path K :=
  let offsets := lineOffsets d ((Path.pairs path).map fun e => normalOf e.1 e.2)
  let left := List.zipWith translate path offsets
  let right := List.zipWith translateBack path offsets
  let pieces := Nat.max (o.steps / 2) 2
  let startHeading := heading a₀ a₁
  let endHeading := heading b₁ b₀
  let forward : Shift K := ⟨Scalar.cos endHeading * d, Scalar.sin endHeading * d⟩
  let back : Shift K := ⟨Scalar.cos startHeading * d, Scalar.sin startHeading * d⟩
  let ends (f : Position K → Position K) (p : Option (Position K)) : Path K := p.toList.map f
  let ring := match o.cap with
    | .flat => right ++ left.reverse
    | .round =>
      right ++ arcInterior b₀ d (endHeading - Scalar.pi / 2) Scalar.pi pieces ++
        left.reverse ++ arcInterior a₀ d (startHeading + Scalar.pi / 2) Scalar.pi pieces
    | .square =>
      ends (translateBack · back) right.head? ++ right ++
        ends (translate · forward) right.getLast? ++ ends (translate · forward) left.getLast? ++
        left.reverse ++ ends (translateBack · back) left.head?
  Path.closedCopy ring

/-- The band round a line; a line that stays in one place gives a circle. -/
def lineRings (line : Path K) (d : K) (o : BufferOptions K) : Outcome K (List (Path K)) :=
  let path := Path.withoutRepeats line
  match path, path.reverse with
  | a₀ :: a₁ :: _, b₀ :: b₁ :: _ => .ok [bandRing normalOf path a₀ a₁ b₁ b₀ d o]
  | [p], _ => .ok (pointRings p d o.steps)
  | _, _ => .refuse .bufferOfEmptyLine

/-- Moves every edge of a ring to its left by `d`. -/
def offsetRing (ring : Path K) (d : K) : Path K :=
  let vertices := ring.opened
  let normals := (Path.cyclicPairs vertices).map fun e => normalOf e.1 e.2
  let before := normals.getLast?.toList ++ normals
  let offsets := List.zipWith (fun m n => jointOffset m n d) before normals
  Path.closedCopy (List.zipWith translate vertices offsets)

/-- The narrower side of the box round some vertices. -/
def leastExtent (vertices : Path K) : K :=
  let xs := vertices.map (·.x)
  let ys := vertices.map (·.y)
  Scalar.min (Scalar.greatest xs - Scalar.least xs) (Scalar.greatest ys - Scalar.least ys)

/-- The distance fills the hole: no room is left across, or the shrunk ring runs the
other way round or encloses nothing. -/
def fills (d : K) (hole shrunk : Path K) : Bool :=
  let after := shrunk.signedArea
  leastExtent hole.opened ≤ 2 * d ||
    !(Scalar.signum after == Scalar.signum hole.signedArea) || Scalar.abs after < shortest

/-- The hole made smaller, none where nothing is left of it. -/
def shrunkHole? (d : K) (hole : Path K) : Option (Path K) :=
  if hole.opened.length < 3 then none
  else
    let shrunk := offsetRing normalOf hole ((if hole.signedArea ≤ 0 then -1 else 1) * d)
    if fills d hole shrunk then none else some shrunk

/-- A polygon grown by `d`: the left of a counter-clockwise ring is its inside, so the
exterior moves to the right and the holes, which run clockwise, do too. -/
def polygonRings (rings : List (Path K)) (d : K) : Outcome K (List (Path K)) :=
  match rings with
  | [] => .refuse .bufferWithoutRings
  | exterior :: holes =>
    if exterior.opened.length < 3 then .refuse .bufferOfFewVertices
    else
      let sign := if 0 ≤ exterior.signedArea then -1 else 1
      .ok (offsetRing normalOf exterior (sign * d) :: holes.filterMap (shrunkHole? normalOf d))

mutual

/-- The polygons round each part of a geometry. -/
def parts (d : K) (o : BufferOptions K) : Geometry K → Outcome K (List (List (Path K)))
  | .point p => return [pointRings p d o.steps]
  | .multiPoint points => return points.map fun p => pointRings p d o.steps
  | .lineString line => return [← lineRings normalOf line d o]
  | .multiLineString lines => lines.mapM fun l => lineRings normalOf l d o
  | .polygon rings => return [← polygonRings normalOf rings d]
  | .multiPolygon ps => ps.mapM fun rings => polygonRings normalOf rings d
  | .collection gs => partsOfAll d o gs

def partsOfAll (d : K) (o : BufferOptions K) : List (Geometry K) → Outcome K (List (List (Path K)))
  | [] => return []
  | g :: gs => return (← parts d o g) ++ (← partsOfAll d o gs)

end

end

end Buffer

/-- The buffer of a geometry, given the normals of edges: a polygon round a single point, line or
polygon, a multiple round anything else. -/
def Geometry.bufferBy {K : Type} [Scalar K] (normalOf : Position K → Position K → Buffer.Shift K)
    (g : Geometry K) (o : BufferOptions K) : Outcome K (Geometry K) := do
  let d ← o.checkedMeters
  match g with
  | .point p => return .polygon (Buffer.pointRings p d o.steps)
  | .lineString line => return .polygon (← Buffer.lineRings normalOf line d o)
  | .polygon rings => return .polygon (← Buffer.polygonRings normalOf rings d)
  | g =>
    let polygons ← Buffer.parts normalOf d o g
    if polygons.isEmpty then .refuse .bufferOfNothing
    return .multiPolygon polygons

def Geometry.buffer {K : Type} [Scalar K] (g : Geometry K) (o : BufferOptions K) :
    Outcome K (Geometry K) :=
  g.bufferBy Buffer.normal o

end Geospatial
