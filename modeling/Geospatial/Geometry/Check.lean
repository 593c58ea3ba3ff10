import Geospatial.Fault

/-! Structural checks of geometries: lines have two positions at least, rings four and
meet their start, multiples are not empty. The first fault in document order is
reported. Collections may be empty. The constructors of each kind make the checks of its parts by
themselves, and a geometry that is there can be checked as a whole. -/
namespace Geospatial.Geometry

variable {K : Type}

def checkLine (part : Part) (line : Path K) : Except StructureFault Unit :=
  if line.length < 2 then .error (.lineTooShort part line.length) else .ok ()

def checkRing [Scalar K] (part : Part) (index : Nat) (ring : Path K) : Except StructureFault Unit :=
  if ring.length < 4 then .error (.ringTooShort part index ring.length)
  else if !ring.endsMeet then .error (.ringNotClosed part index)
  else .ok ()

/-- Checks elements in order, each with its index from `start` on. -/
def checkEach (check : Nat → α → Except StructureFault Unit) (start : Nat) :
    List α → Except StructureFault Unit
  | [] => .ok ()
  | x :: xs => do
    check start x
    checkEach check (start + 1) xs

def checkRings [Scalar K] (part : Part) (rings : List (Path K)) : Except StructureFault Unit :=
  if rings.isEmpty then .error (.noRings part) else checkEach (checkRing part) 0 rings

mutual

/-- The first structural fault of a geometry, if any. -/
def check [Scalar K] : Geometry K → Except StructureFault Unit
  | .point _ => .ok ()
  | .lineString line => checkLine .line line
  | .polygon rings => checkRings .polygon rings
  | .multiPoint points => if points.isEmpty then .error .noPositions else .ok ()
  | .multiLineString lines =>
    if lines.isEmpty then .error .noLines else checkEach (fun i l => checkLine (.lineOf i) l) 0 lines
  | .multiPolygon ps =>
    if ps.isEmpty then .error .noPolygons
    else checkEach (fun i rings => checkRings (.polygonOf i) rings) 0 ps
  | .collection gs => checkAll gs

def checkAll [Scalar K] : List (Geometry K) → Except StructureFault Unit
  | [] => .ok ()
  | g :: gs => do
    g.check
    checkAll gs

end

section Constructors

variable [Scalar K]

def createLineString (line : Path K) : Except StructureFault (Geometry K) := do
  checkLine .line line
  return .lineString line

/-- A polygon from its outer ring and the holes. -/
def createPolygon (rings : List (Path K)) : Except StructureFault (Geometry K) := do
  checkRings .polygon rings
  return .polygon rings

def createMultiPoint (points : Path K) : Except StructureFault (Geometry K) := do
  if points.isEmpty then throw .noPositions
  return .multiPoint points

def createMultiLineString (lines : List (Path K)) : Except StructureFault (Geometry K) := do
  if lines.isEmpty then throw .noLines
  checkEach (fun i line => checkLine (.lineOf i) line) 0 lines
  return .multiLineString lines

def createMultiPolygon (ps : List (List (Path K))) : Except StructureFault (Geometry K) := do
  if ps.isEmpty then throw .noPolygons
  checkEach (fun i rings => checkRings (.polygonOf i) rings) 0 ps
  return .multiPolygon ps

/-- A collection of members that are well formed, of which there may be none. -/
def createCollection (gs : List (Geometry K)) : Except StructureFault (Geometry K) := do
  gs.forM check
  return .collection gs

/-- Makes a geometry anew by the constructor of its kind. -/
def checked : Geometry K → Except StructureFault (Geometry K)
  | .point p => .ok (.point p)
  | .lineString line => createLineString line
  | .polygon rings => createPolygon rings
  | .multiPoint points => createMultiPoint points
  | .multiLineString lines => createMultiLineString lines
  | .multiPolygon ps => createMultiPolygon ps
  | .collection gs => createCollection gs

end Constructors

end Geospatial.Geometry
