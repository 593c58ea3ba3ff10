import Geospatial.Number.Notation
import Geospatial.Projection.Definition

/-! Coordinate reference systems and their catalogues. Every system converts its coordinates to and
from longitude, latitude and height of the reference datum; a conversion between two systems goes
through those. A catalogue has systems by code, written with or without the prefix `EPSG:`. The
standard catalogue holds common geographic and national systems and the zones of the universal
transverse Mercator system. -/
namespace Geospatial

structure ReferenceSystem (K : Type) extends Projection.Definition K where
  code : Nat
  name : String
  /-- The definition as written. -/
  text : String

namespace ReferenceSystem

/-- Reads the definition of a system. -/
def ofText (code : Nat) (name text : String) : Outcome Float (ReferenceSystem Float) := do
  return { ← Projection.Definition.parse text with code, name, text }

/-- The code as written in documents. -/
def label (s : ReferenceSystem K) : String := s!"EPSG:{s.code}"

def isGeographic (s : ReferenceSystem K) : Bool := s.projection.isGeographic

variable {K : Type} [Scalar K]

/-- Only finite positions are converted. -/
def requireFinite (p : Position K) : Outcome K Unit :=
  if p.isFinite then .ok () else .refuse (.nonFinitePosition p.x p.y)

/-- A position of the system as one of the reference datum. -/
def toWgs84 (s : ReferenceSystem K) (p : Position K) : Outcome K (Position K) := do
  requireFinite p
  let scale := s.axisUnit.inMeters
  let (lon, lat) := s.projection.inverse s.datum.ellipsoid (p.x * scale) (p.y * scale)
  let g := s.datum.toWgs84 ⟨lon, lat, p.height⟩
  return ⟨g.lon, g.lat, p.z.map fun _ => g.height⟩

/-- A position of the reference datum as one of the system. -/
def ofWgs84 (s : ReferenceSystem K) (p : Position K) : Outcome K (Position K) := do
  requireFinite p
  if !Scalar.within (-90) 90 p.y then throw (.projection (.latitudeOutOfRange p.y))
  let g := s.datum.ofWgs84 ⟨p.x, p.y, p.height⟩
  let (x, y) := s.projection.forward s.datum.ellipsoid g.lon g.lat
  let scale := s.axisUnit.inMeters
  return ⟨x / scale, y / scale, p.z.map fun _ => g.height⟩

/-- A position of one system as one of another. Systems of one code agree. -/
def convert (source target : ReferenceSystem K) (p : Position K) : Outcome K (Position K) := do
  if source.code = target.code then return p
  target.ofWgs84 (← source.toWgs84 p)

end ReferenceSystem

/-- Systems in ascending order of their codes, one for each code. -/
structure Catalogue (K : Type) where
  systems : List (ReferenceSystem K)

namespace Catalogue

variable {K : Type}

def empty : Catalogue K := ⟨[]⟩

def size (c : Catalogue K) : Nat := c.systems.length

/-- Puts a system in its place, instead of the one with its code if there is one. -/
def place (s : ReferenceSystem K) : List (ReferenceSystem K) → List (ReferenceSystem K)
  | [] => [s]
  | t :: ts =>
    if s.code < t.code then s :: t :: ts
    else if s.code = t.code then s :: ts
    else t :: place s ts

def insert (c : Catalogue K) (s : ReferenceSystem K) : Catalogue K := ⟨place s c.systems⟩

def find? (c : Catalogue K) (code : Nat) : Option (ReferenceSystem K) :=
  c.systems.find? fun s => s.code == code

def labels (c : Catalogue K) : List String := c.systems.map (·.label)

/-- The digits of a code, without the prefix in any case. -/
def digits (code : String) : String :=
  let trimmed := Text.trim code
  if Text.asciiLower (String.ofList (trimmed.toList.take 5)) == "epsg:" then
    String.ofList (trimmed.toList.drop 5)
  else trimmed

/-- Reads a code. -/
def codeOfText (code : String) : Outcome K Nat :=
  match Number.natural? UInt32.size (digits code) with
  | some n => .ok n
  | none => .error (.projection (.malformedCode code))

/-- The system of a code. A code among those of the transverse Mercator zones that names
no zone is told apart from one that is unknown. -/
def get (c : Catalogue K) (code : String) : Outcome K (ReferenceSystem K) := do
  let n ← codeOfText code
  match c.find? n with
  | some s => return s
  | none =>
    if Zone.northBase ≤ n ∧ n < Zone.southBase + 100 then
      let _ ← (Zone.ofCode n : Outcome K Zone)
    throw (.projection (.unknownCode n))

def has (c : Catalogue K) (code : String) : Bool :=
  match (codeOfText code : Outcome K Nat) with
  | .ok n => (c.find? n).isSome
  | .error _ => false

/-- Reads a definition and files it under a code. -/
def define (c : Catalogue Float) (code name text : String) : Outcome Float (Catalogue Float) := do
  let n ← codeOfText code
  return c.insert (← ReferenceSystem.ofText n name text)

variable [Scalar K]

def toWgs84 (c : Catalogue K) (p : Position K) (source : String) : Outcome K (Position K) := do
  (← c.get source).toWgs84 p

def ofWgs84 (c : Catalogue K) (p : Position K) (target : String) : Outcome K (Position K) := do
  (← c.get target).ofWgs84 p

/-- Converts a position between two systems. -/
def convert (c : Catalogue K) (p : Position K) (source target : String) :
    Outcome K (Position K) := do
  let s ← c.get source
  let t ← c.get target
  s.convert t p

/-- Converts every position of a geometry, up to the first that fails. -/
def convertGeometry (c : Catalogue K) (g : Geometry K) (source target : String) :
    Outcome K (Geometry K) := do
  let s ← c.get source
  let t ← c.get target
  g.mapPositionsM (s.convert t)

/-- The code of the transverse Mercator zone that a position lies in. -/
def zoneLabel (p : Position K) : Outcome K String := do
  return s!"EPSG:{(← Zone.ofPosition p.x p.y).code}"

/-- Codes, names and definitions of the standard systems other than zones. -/
def standardDefinitions : List (Nat × String × String) := [
  (4326, "WGS 84", "+proj=longlat +datum=WGS84 +no_defs"),
  (3857, "WGS 84 / Pseudo-Mercator",
    "+proj=merc +a=6378137 +b=6378137 +lat_ts=0 +lon_0=0 +x_0=0 +y_0=0 +k=1 +units=m +nadgrids=@null +wktext +no_defs"),
  (4269, "NAD83", "+proj=longlat +datum=NAD83 +no_defs"),
  (4267, "NAD27", "+proj=longlat +datum=NAD27 +no_defs"),
  (5070, "NAD83 / Conus Albers",
    "+proj=aea +lat_0=23 +lon_0=-96 +lat_1=29.5 +lat_2=45.5 +x_0=0 +y_0=0 +datum=NAD83 +units=m +no_defs"),
  (27700, "OSGB36 / British National Grid",
    "+proj=tmerc +lat_0=49 +lon_0=-2 +k=0.9996012717 +x_0=400000 +y_0=-100000 +ellps=airy +towgs84=446.448,-125.157,542.06,0.1502,0.2470,0.8421,-20.4894 +units=m +no_defs"),
  (4258, "ETRS89", "+proj=longlat +ellps=GRS80 +towgs84=0,0,0,0,0,0,0 +no_defs"),
  (4087, "WGS 84 / World Equidistant Cylindrical",
    "+proj=eqc +lat_ts=0 +lat_0=0 +lon_0=0 +x_0=0 +y_0=0 +datum=WGS84 +units=m +no_defs")]

/-- Code, name and definition of a zone's system. -/
def zoneDefinition (z : Zone) : Nat × String × String :=
  let hemisphere := if z.south then "S" else "N"
  let suffix := if z.south then " +south" else ""
  (z.code, s!"WGS 84 / UTM zone {z.number}{hemisphere}",
    s!"+proj=utm +zone={z.number}{suffix} +datum=WGS84 +units=m +no_defs")

def zoneDefinitions : List (Nat × String × String) :=
  (List.range 60).flatMap fun i => [false, true].map fun south => zoneDefinition ⟨i + 1, south⟩

/-- The systems that can be used without defining them. -/
def standard : Catalogue Float :=
  (standardDefinitions ++ zoneDefinitions).foldl (fun c (code, name, text) =>
    match ReferenceSystem.ofText code name text with
    | .ok s => c.insert s
    | .error _ => c) empty

end Catalogue
end Geospatial
