import Geospatial.Fault
import Geospatial.Number.Notation
import Geospatial.Projection.Datum
import Geospatial.Projection.Developable
import Geospatial.Projection.TransverseMercator
import Geospatial.Scalar.Double
import Geospatial.Text

/-! Map projections, from longitude and latitude in degrees to plane coordinates in meters and back,
and definitions of reference systems by them. Geographic systems project by the identity. A
definition is a parameter list, such as `+proj=utm +zone=31 +datum=WGS84`: words of the form
`+key=value` or `+key`, in any order. Only the last word of a key counts, so a list is its keys and
values and nothing else. Keys that no rule below asks for have no effect. -/
namespace Geospatial

inductive Projection (K : Type) where
  | geographic
  | mercator (p : Mercator K)
  | transverse (p : TransverseMercator K)
  | zone (z : Zone)
  | albers (p : AlbersConic K)
  | equidistant (p : EquidistantCylindrical K)

namespace Projection

section

variable {K : Type} [Scalar K]

def isGeographic : Projection K → Bool
  | .geographic => true
  | _ => false

/-- Plane coordinates of a longitude and latitude. -/
def forward (p : Projection K) (e : Ellipsoid K) (lon lat : K) : K × K :=
  match p with
  | .geographic => (lon, lat)
  | .mercator p => p.forward e lon lat
  | .transverse p => p.forward e lon lat
  | .zone z => z.projection.forward e lon lat
  | .albers p => p.forward e lon lat
  | .equidistant p => p.forward e lon lat

/-- Longitude and latitude of plane coordinates. -/
def inverse (p : Projection K) (e : Ellipsoid K) (x y : K) : K × K :=
  match p with
  | .geographic => (x, y)
  | .mercator p => p.inverse e x y
  | .transverse p => p.inverse e x y
  | .zone z => z.projection.inverse e x y
  | .albers p => p.inverse e x y
  | .equidistant p => p.inverse e x y

end

/-- The words of a list in the order written; a key without a value has none. -/
structure Parameters where
  entries : List (String × Option String)

namespace Parameters

/-- A word without its plus sign, cut at the first equals sign. -/
def entryOfChars (cs : List Char) : String × Option String :=
  match cs.span (· != '=') with
  | (key, _ :: value) => (String.ofList key, some (String.ofList value))
  | (key, []) => (String.ofList key, none)

/-- Reads one word, which must begin with a plus sign. -/
def entryOfWord (word : List Char) : Outcome Float (String × Option String) :=
  match word with
  | '+' :: body => .ok (entryOfChars body)
  | _ => .error (.projection (.malformedToken (String.ofList word)))

def ofText (text : String) : Outcome Float Parameters := do
  return ⟨← (Text.wordsOfChars text.toList).mapM entryOfWord⟩

/-- The last entry of a key. -/
def last? (ps : Parameters) (key : String) : Option (String × Option String) :=
  ps.entries.reverse.find? fun e => e.1 == key

/-- Whether the key occurs, with or without a value. -/
def has (ps : Parameters) (key : String) : Bool := (ps.last? key).isSome

/-- The value of a key. -/
def text? (ps : Parameters) (key : String) : Option String := (ps.last? key).bind (·.2)

/-- The value of a key as a number. -/
def number? (ps : Parameters) (key : String) : Outcome Float (Option Float) :=
  match ps.text? key with
  | none => .ok none
  | some raw => match Number.double? raw with
    | some x => .ok (some x)
    | none => .error (.projection (.invalidParameter key raw))

def numberOr (ps : Parameters) (key : String) (default : Float) : Outcome Float Float := do
  return (← ps.number? key).getD default

end Parameters

/-- Units of the coordinates of a system. -/
inductive AxisUnit where
  | degrees | meters | kilometers | feet | surveyFeet
  deriving DecidableEq

def AxisUnit.name : AxisUnit → String
  | degrees => "Degrees"
  | meters => "Meters"
  | kilometers => "Kilometers"
  | feet => "Feet"
  | surveyFeet => "UsFeet"

/-- Meters in one unit; degrees are not scaled. -/
def AxisUnit.inMeters {K : Type} [Scalar K] : AxisUnit → K
  | .degrees | .meters => 1
  | .kilometers => 1000
  | .feet => 0.3048
  | .surveyFeet => 1200 / 3937

structure Definition (K : Type) where
  projection : Projection K
  datum : Datum K
  axisUnit : AxisUnit

namespace Definition

def refuse (f : ProjectionFault Float) : Outcome Float α := .error (.projection f)

/-- A named ellipsoid, or one by its axes; the default has neither. -/
def ellipsoidOf (ps : Parameters) : Outcome Float (Ellipsoid Float) := do
  if let some name := ps.text? "ellps" then
    match Ellipsoid.ofName? name with
    | some e => return e
    | none => refuse (.unsupportedEllipsoid name)
  else
    let a ← ps.number? "a"
    let b ← ps.number? "b"
    let rf ← ps.number? "rf"
    match a, b, rf with
    | some a, some b, _ => return .ofRadii a b
    | some a, none, some rf => return ⟨a, rf⟩
    | some a, none, none => return .sphere a
    | none, _, _ => return .wgs84

/-- The numbers of a list with commas. -/
def shiftOf (raw : String) : Outcome Float (Helmert Float) := do
  let values ← (Text.splitAt ',' raw).mapM fun piece =>
    match Number.double? (Text.trim piece) with
    | some x => .ok x
    | none => refuse (.invalidParameter "towgs84" raw)
  Helmert.ofParameters values

/-- A named datum, or an ellipsoid without a shift; a shift that is given replaces the
datum's own. -/
def datumOf (ps : Parameters) : Outcome Float (Datum Float) := do
  let base ← match ps.text? "datum" with
    | some name => match Datum.ofName? name with
      | some d => pure d
      | none => refuse (.unsupportedDatum name)
    | none => pure ⟨← ellipsoidOf ps, .identity⟩
  match ps.text? "towgs84" with
  | some raw => return { base with shift := ← shiftOf raw }
  | none => return base

/-- The scale factor under either of its keys. -/
def scale? (ps : Parameters) : Outcome Float (Option Float) := do
  match ← ps.number? "k_0" with
  | some k => return some k
  | none => ps.number? "k"

def mercatorOf (ps : Parameters) (e : Ellipsoid Float) : Outcome Float (Mercator Float) := do
  let scale ← match ← scale? ps with
    | some k => pure k
    | none => pure (Mercator.scaleOfParallel (← ps.numberOr "lat_ts" 0) e)
  return {
    scale
    meridian := ← ps.numberOr "lon_0" 0
    falseEasting := ← ps.numberOr "x_0" 0
    falseNorthing := ← ps.numberOr "y_0" 0 }

def zoneOf (ps : Parameters) : Outcome Float Zone := do
  let some n ← ps.number? "zone" | refuse .utmWithoutZone
  if Scalar.fraction n == 0 && Scalar.within 1 60 n then
    return ⟨Scalar.toNat n, ps.has "south"⟩
  else refuse (.utmZoneOutOfRange n)

def transverseOf (ps : Parameters) : Outcome Float (TransverseMercator Float) := do
  return {
    parallel := ← ps.numberOr "lat_0" 0
    meridian := ← ps.numberOr "lon_0" 0
    scale := (← scale? ps).getD 1
    falseEasting := ← ps.numberOr "x_0" 0
    falseNorthing := ← ps.numberOr "y_0" 0 }

/-- The second parallel is the first one unless given; together they must not balance. -/
def albersOf (ps : Parameters) : Outcome Float (AlbersConic Float) := do
  let some south ← ps.number? "lat_1" | refuse .albersWithoutParallel
  let north ← ps.numberOr "lat_2" south
  if Scalar.abs (south + north) < 1e-10 then refuse .symmetricParallels
  return {
    southParallel := south
    northParallel := north
    parallel := ← ps.numberOr "lat_0" 0
    meridian := ← ps.numberOr "lon_0" 0
    falseEasting := ← ps.numberOr "x_0" 0
    falseNorthing := ← ps.numberOr "y_0" 0 }

def equidistantOf (ps : Parameters) : Outcome Float (EquidistantCylindrical Float) := do
  return {
    trueParallel := ← ps.numberOr "lat_ts" 0
    parallel := ← ps.numberOr "lat_0" 0
    meridian := ← ps.numberOr "lon_0" 0
    falseEasting := ← ps.numberOr "x_0" 0
    falseNorthing := ← ps.numberOr "y_0" 0 }

def projectionOf (ps : Parameters) (e : Ellipsoid Float) : Outcome Float (Projection Float) := do
  let some name := ps.text? "proj" | refuse .noProjection
  match name with
  | "longlat" | "latlong" | "lonlat" => return .geographic
  | "merc" => return .mercator (← mercatorOf ps e)
  | "utm" => return .zone (← zoneOf ps)
  | "tmerc" => return .transverse (← transverseOf ps)
  | "aea" => return .albers (← albersOf ps)
  | "eqc" => return .equidistant (← equidistantOf ps)
  | other => refuse (.unsupportedProjection other)

/-- Geographic systems are in degrees, whatever unit is given. -/
def axisUnitOf (ps : Parameters) (geographic : Bool) : Outcome Float AxisUnit :=
  if geographic then .ok .degrees
  else match ps.text? "units" with
    | none | some "m" => .ok .meters
    | some "km" => .ok .kilometers
    | some "ft" => .ok .feet
    | some "us-ft" => .ok .surveyFeet
    | some other => refuse (.unsupportedUnits other)

/-- The definition that a parameter list gives. -/
def ofParameters (ps : Parameters) : Outcome Float (Definition Float) := do
  let datum ← datumOf ps
  let projection ← projectionOf ps datum.ellipsoid
  return { datum, projection, axisUnit := ← axisUnitOf ps projection.isGeographic }

/-- Reads a definition. -/
def parse (text : String) : Outcome Float (Definition Float) := do
  ofParameters (← Parameters.ofText text)

end Definition
end Projection
end Geospatial
