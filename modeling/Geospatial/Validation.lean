import Geospatial.Segment

/-! Validation of geometries and the repair of rings. A finding is an error, which makes
the geometry unusable, or a warning; it names the part that it is about. Repair closes
rings and turns them the right way round, exteriors counter-clockwise and holes
clockwise, and does nothing else. -/
namespace Geospatial.Validation

inductive Severity where
  | error | warning
  deriving DecidableEq

inductive Code where
  | nonFiniteCoordinate | ringNotClosed | ringTooShort | lineTooShort | noRings | emptyGeometry
  | selfIntersection | holeOutsideShell | wrongOrientation | duplicatePoints | zeroArea | zeroLength
  deriving DecidableEq

def Code.name : Code → String
  | .nonFiniteCoordinate => "non_finite_coordinate"
  | .ringNotClosed => "ring_not_closed"
  | .ringTooShort => "ring_too_short"
  | .lineTooShort => "line_too_short"
  | .noRings => "no_rings"
  | .emptyGeometry => "empty_geometry"
  | .selfIntersection => "self_intersection"
  | .holeOutsideShell => "hole_outside_shell"
  | .wrongOrientation => "wrong_orientation"
  | .duplicatePoints => "duplicate_points"
  | .zeroArea => "zero_area"
  | .zeroLength => "zero_length"

/-- What is wrong with a part. -/
inductive Issue where
  | nonFiniteCoordinate (index : Nat)
  | ringNotClosed
  | ringTooShort (count : Nat)
  | lineTooShort (count : Nat)
  | noRings
  | empty (kind : GeometryKind)
  | ringCrossesItself
  | lineCrossesItself
  | holeOutsideShell
  | clockwiseExterior
  | counterClockwiseHole
  | duplicates (count : Nat)
  | ringWithoutArea
  | lineWithoutLength
  deriving DecidableEq

namespace Issue

def severity : Issue → Severity
  | .nonFiniteCoordinate _ | .ringNotClosed | .ringTooShort _ | .lineTooShort _ | .noRings
  | .empty _ | .ringCrossesItself | .holeOutsideShell => .error
  | .lineCrossesItself | .clockwiseExterior | .counterClockwiseHole | .duplicates _
  | .ringWithoutArea | .lineWithoutLength => .warning

def code : Issue → Code
  | .nonFiniteCoordinate _ => .nonFiniteCoordinate
  | .ringNotClosed => .ringNotClosed
  | .ringTooShort _ => .ringTooShort
  | .lineTooShort _ => .lineTooShort
  | .noRings => .noRings
  | .empty _ => .emptyGeometry
  | .ringCrossesItself | .lineCrossesItself => .selfIntersection
  | .holeOutsideShell => .holeOutsideShell
  | .clockwiseExterior | .counterClockwiseHole => .wrongOrientation
  | .duplicates _ => .duplicatePoints
  | .ringWithoutArea => .zeroArea
  | .lineWithoutLength => .zeroLength

def message : Issue → String
  | .nonFiniteCoordinate index => s!"Position {index} has a non-finite coordinate"
  | .ringNotClosed => "First and last positions differ"
  | .ringTooShort count => s!"Ring needs at least 4 positions, has {count}"
  | .lineTooShort count => s!"LineString needs at least 2 positions, has {count}"
  | .noRings => "Polygon has no rings"
  | .empty kind => s!"{kind.name} is empty"
  | .ringCrossesItself => "Ring intersects itself"
  | .lineCrossesItself => "LineString intersects itself"
  | .holeOutsideShell => "Hole extends outside the exterior ring"
  | .clockwiseExterior => "Exterior ring should be counter-clockwise"
  | .counterClockwiseHole => "Hole should be clockwise"
  | .duplicates count => s!"{count} duplicate consecutive position(s)"
  | .ringWithoutArea => "Ring encloses zero area"
  | .lineWithoutLength => "LineString has zero length"

end Issue

/-- A step into a geometry. -/
inductive Step where
  | ring (index : Nat)
  | line (index : Nat)
  | polygon (index : Nat)
  | member (index : Nat)
  deriving DecidableEq

def Step.describe : Step → String
  | .ring i => s!"ring {i}"
  | .line i => s!"line {i}"
  | .polygon i => s!"polygon {i}"
  | .member i => s!"geometry {i}"

/-- An issue and the part that it is about, by the steps that lead there. -/
structure Finding where
  issue : Issue
  place : List Step
  deriving DecidableEq

/-- The place in words; a finding about the whole geometry has none. -/
def Finding.location? (f : Finding) : Option String :=
  if f.place.isEmpty then none else some (String.intercalate " " (f.place.map Step.describe))

/-- Findings inside a part, seen from the whole. -/
def below (step : Step) (findings : List Finding) : List Finding :=
  findings.map fun f => { f with place := step :: f.place }

variable {K : Type} [Scalar K]

def here (issue : Issue) : List Finding := [⟨issue, []⟩]

/-- A finding where the condition holds. -/
def orNone (condition : Bool) (issue : Issue) : List Finding := if condition then here issue else []

/-- Index of the first position with a coordinate that is not finite. -/
def firstNonFinite? (path : Path K) : Option Nat := path.findIdx? fun p => !p.isFinite

def finiteFindings (path : Path K) : List Finding :=
  match firstNonFinite? path with
  | some i => here (.nonFiniteCoordinate i)
  | none => []

/-- The findings of `rest` where all positions are finite, else the first that is not. -/
def whenFinite (path : Path K) (rest : List Finding) : List Finding :=
  match firstNonFinite? path with
  | some i => here (.nonFiniteCoordinate i)
  | none => rest

def duplicateFindings (path : Path K) : List Finding :=
  let count := (Path.pairs path).countP fun s => s.1.sameXY s.2
  orNone (0 < count) (.duplicates count)

/-- A segment meets another one of the list that is neither before nor after it. -/
def anyMeetApart : List (Position K × Position K) → Bool
  | s :: t :: rest =>
    (rest.any fun u => Segment.intersects s.1 s.2 u.1 u.2) || anyMeetApart (t :: rest)
  | _ => false

/-- Segments that are not neighbors touch or cross. Segments without length are left out,
and the first and last one of a closed path are neighbors. -/
def crossesItself (path : Path K) : Bool :=
  if path.length < 4 then false
  else
    let segments := (Path.pairs path).filter fun s => !s.1.sameXY s.2
    match path.endsMeet, segments with
    | true, s :: t :: rest =>
      (rest.dropLast.any fun u => Segment.intersects s.1 s.2 u.1 u.2) || anyMeetApart (t :: rest)
    | _, segments => anyMeetApart segments

def lineFindings (line : Path K) : List Finding :=
  if line.length < 2 then here (.lineTooShort line.length)
  else
    whenFinite line <| duplicateFindings line ++
      if line.planarLength == 0 then here .lineWithoutLength
      else orNone (crossesItself line) .lineCrossesItself

/-- Area and sense of a ring. -/
def orientationFindings (ring : Path K) (isHole : Bool) : List Finding :=
  let signed := ring.signedArea
  if signed == 0 then here .ringWithoutArea
  else if isHole then orNone (0 < signed) .counterClockwiseHole
  else orNone (signed < 0) .clockwiseExterior

/-- The fault that makes a ring unusable, if any. -/
def ringFault? (ring : Path K) : Option Issue :=
  if ring.length < 4 then some (.ringTooShort ring.length)
  else match firstNonFinite? ring with
    | some i => some (.nonFiniteCoordinate i)
    | none => if ring.endsMeet then none else some .ringNotClosed

def ringFindings (ring : Path K) (isHole : Bool) : List Finding :=
  match ringFault? ring with
  | some issue => here issue
  | none =>
    duplicateFindings ring ++ orNone (crossesItself ring) .ringCrossesItself ++
      orientationFindings ring isHole

/-- Some vertex of the hole lies outside the exterior; unusable rings are not compared. -/
def leavesShell (exterior hole : Path K) : Bool :=
  (ringFault? exterior).isNone && (ringFault? hole).isNone &&
    hole.opened.any fun p => exterior.side p == .outside

/-- The findings of each element, with the step to it. -/
def eachFindings (step : Nat → Step) (findings : α → List Finding) (start : Nat) :
    List α → List Finding
  | [] => []
  | x :: xs => below (step start) (findings x) ++ eachFindings step findings (start + 1) xs

def polygonFindings (rings : List (Path K)) : List Finding :=
  match rings with
  | [] => here .noRings
  | exterior :: holes =>
    below (.ring 0) (ringFindings exterior false) ++
      eachFindings .ring
        (fun hole => ringFindings hole true ++ orNone (leavesShell exterior hole) .holeOutsideShell)
        1 holes

mutual

/-- All that is wrong with a geometry, in document order. -/
def findings : Geometry K → List Finding
  | .point p => finiteFindings [p]
  | .multiPoint points => if points.isEmpty then here (.empty .multiPoint) else finiteFindings points
  | .lineString line => lineFindings line
  | .multiLineString lines =>
    orNone lines.isEmpty (.empty .multiLineString) ++ eachFindings .line lineFindings 0 lines
  | .polygon rings => polygonFindings rings
  | .multiPolygon ps =>
    orNone ps.isEmpty (.empty .multiPolygon) ++ eachFindings .polygon polygonFindings 0 ps
  | .collection gs => memberFindings 0 gs

def memberFindings (start : Nat) : List (Geometry K) → List Finding
  | [] => []
  | g :: gs => below (.member start) (findings g) ++ memberFindings (start + 1) gs

end

/-- The findings of one severity. -/
def ofSeverity (s : Severity) (fs : List Finding) : List Finding :=
  fs.filter fun f => f.issue.severity == s

end Validation

namespace Geometry

variable {K : Type} [Scalar K]

/-- No error is found. -/
def isValid (g : Geometry K) : Bool :=
  (Validation.ofSeverity .error (Validation.findings g)).isEmpty

/-- Closes a ring of three positions or more and turns it the given way round. -/
def repairRing (counterClockwise : Bool) (ring : Path K) : Path K :=
  let closed := if ring.length < 3 then ring else ring.close
  let signed := closed.signedArea
  if if counterClockwise then signed < 0 else 0 < signed then closed.reverse else closed

def repairRings : List (Path K) → List (Path K)
  | [] => []
  | exterior :: holes => repairRing true exterior :: holes.map (repairRing false)

/-- Repairs the rings of every polygon; lines and points stay. -/
def repair (g : Geometry K) : Geometry K := g.mapParts id repairRings

end Geometry
end Geospatial
