import Geospatial.Fault
import Geospatial.Projection.Datum

/-! Transverse Mercator on the ellipsoid by Krüger's series in the third flattening, carried to the
fourth order, and the zones of its universal system: sixty strips of six degrees, numbered eastward
from the antimeridian, with the wider zones off Norway and around Svalbard, and the codes of the
zones' reference systems. -/
namespace Geospatial

structure TransverseMercator (K : Type) where
  /-- Latitude and longitude of the origin, in degrees. -/
  parallel : K
  meridian : K
  /-- Scale on the central meridian. -/
  scale : K
  falseEasting : K
  falseNorthing : K

namespace TransverseMercator

variable {K : Type} [Scalar K]

/-- The series of an ellipsoid; each list holds the coefficients of the multiples two,
four, six and eight of the angle. -/
structure Series (K : Type) where
  eccentricity : K
  /-- Radius of the sphere on which meridians keep their length. -/
  radius : K
  /-- From the sphere to the plane. -/
  forward : List K
  /-- From the plane to the sphere. -/
  inverse : List K
  /-- From conformal to geodetic latitude. -/
  latitude : List K

def Series.ofEllipsoid (e : Ellipsoid K) : Series K :=
  let n := e.thirdFlattening
  let n2 := n * n
  let n3 := n * n * n
  let n4 := n * n * n * n
  { eccentricity := e.eccentricity
    radius := e.radius / (1 + n) * (1 + n2 / 4 + n4 / 64)
    forward := [
      n / 2 - 2 * n2 / 3 + 5 * n3 / 16 + 41 * n4 / 180,
      13 * n2 / 48 - 3 * n3 / 5 + 557 * n4 / 1440,
      61 * n3 / 240 - 103 * n4 / 140,
      49561 * n4 / 161280]
    inverse := [
      -(n / 2 - 2 * n2 / 3 + 37 * n3 / 96 - n4 / 360),
      -(n2 / 48 + n3 / 15 - 437 * n4 / 1440),
      -(17 * n3 / 480 - 37 * n4 / 840),
      -(4397 * n4 / 161280)]
    latitude := [
      2 * n - 2 * n2 / 3 - 2 * n3 + 116 * n4 / 45,
      7 * n2 / 3 - 8 * n3 / 5 - 227 * n4 / 45,
      56 * n3 / 15 - 136 * n4 / 35,
      4279 * n4 / 630] }

/-- A point of the transverse plane: arcs along the central meridian and away from it. -/
structure Arcs (K : Type) where
  along : K
  away : K

/-- Each coefficient with the even multiple it belongs to. -/
def harmonics (coefficients : List K) : List (K × K) :=
  coefficients.zipIdx.map fun (c, i) => (c, 2 * ((i + 1 : Nat) : K))

/-- Adds a harmonic series in both arcs. -/
def Arcs.bend (p : Arcs K) (coefficients : List K) : Arcs K :=
  (harmonics coefficients).foldl (fun q (c, k) =>
    { along := q.along + c * Scalar.sin (k * p.along) * Scalar.cosh (k * p.away)
      away := q.away + c * Scalar.cos (k * p.along) * Scalar.sinh (k * p.away) }) p

/-- Tangent of the conformal latitude. -/
def Series.conformalTangent (s : Series K) (phi : K) : K :=
  let sine := Scalar.sin phi
  Scalar.sinh (Scalar.atanh sine - s.eccentricity * Scalar.atanh (s.eccentricity * sine))

/-- Arcs of a latitude and a longitude counted from the central meridian, in radians. -/
def Series.arcs (s : Series K) (phi lam : K) : Arcs K :=
  let t := s.conformalTangent phi
  let sphere : Arcs K :=
    { along := Scalar.atan2 t (Scalar.cos lam)
      away := Scalar.atanh (Scalar.sin lam / Scalar.sqrt (1 + t * t)) }
  sphere.bend s.forward

/-- Arc from the equator to the origin. -/
def originArc (p : TransverseMercator K) (s : Series K) : K :=
  (s.arcs (Scalar.radians p.parallel) 0).along

def forward (p : TransverseMercator K) (e : Ellipsoid K) (lon lat : K) : K × K :=
  let s := Series.ofEllipsoid e
  let arcs := s.arcs (Scalar.radians lat) (Scalar.radians (lon - p.meridian))
  let scale := p.scale * s.radius
  (p.falseEasting + scale * arcs.away, p.falseNorthing + scale * (arcs.along - p.originArc s))

def inverse (p : TransverseMercator K) (e : Ellipsoid K) (x y : K) : K × K :=
  let s := Series.ofEllipsoid e
  let scale := p.scale * s.radius
  let plane : Arcs K :=
    { along := (y - p.falseNorthing) / scale + p.originArc s
      away := (x - p.falseEasting) / scale }
  let sphere := plane.bend s.inverse
  let conformal := Scalar.asin (Scalar.sin sphere.along / Scalar.cosh sphere.away)
  let phi := (harmonics s.latitude).foldl (fun phi (c, k) => phi + c * Scalar.sin (k * conformal))
    conformal
  let lam := Scalar.atan2 (Scalar.sinh sphere.away) (Scalar.cos sphere.along)
  (p.meridian + Scalar.degrees lam, Scalar.degrees phi)

end TransverseMercator

/-- One strip on one side of the equator. -/
structure Zone where
  number : Nat
  south : Bool
  deriving DecidableEq

namespace Zone

variable {K : Type} [Scalar K]

/-- Longitude of the central meridian, in degrees. -/
def meridian (z : Zone) : K := (z.number : K) * 6 - 183

def projection (z : Zone) : TransverseMercator K where
  parallel := 0
  meridian := z.meridian
  scale := 0.9996
  falseEasting := 500000
  falseNorthing := if z.south then 10000000 else 0

/-- Codes of the northern zones follow this one. -/
def northBase : Nat := 32600

/-- Codes of the southern zones follow this one. -/
def southBase : Nat := 32700

def code (z : Zone) : Nat := (if z.south then southBase else northBase) + z.number

/-- The zone of a reference system's code. -/
def ofCode (code : Nat) : Outcome K Zone :=
  if northBase < code ∧ code ≤ northBase + 60 then .ok ⟨code - northBase, false⟩
  else if southBase < code ∧ code ≤ southBase + 60 then .ok ⟨code - southBase, true⟩
  else .error (.projection (.notUtmCode code))

/-- The longitude in `[-180, 180)`. -/
def wrapLongitude (lon : K) : K := Scalar.modulo (lon + 180) 360 - 180

/-- Off the south-western coast of Norway one zone reaches further west. -/
def inNorway (lon lat : K) : Bool := 56 ≤ lat && lat < 64 && 3 ≤ lon && lon < 12

/-- Around Svalbard four zones share the longitudes of seven. -/
def inSvalbard (lon lat : K) : Bool := 72 ≤ lat && lat ≤ 84 && 0 ≤ lon && lon < 42

/-- Number of the zone of a position. -/
def numberAt (lon lat : K) : Nat :=
  let lon := wrapLongitude lon
  if inNorway lon lat then 32
  else if inSvalbard lon lat then
    if lon < 9 then 31 else if lon < 21 then 33 else if lon < 33 then 35 else 37
  else min (Scalar.toNat (Scalar.floor ((lon + 180) / 6)) + 1) 60

/-- The zone of a position; the system ends at 80 degrees south and 84 degrees north. -/
def ofPosition (lon lat : K) : Outcome K Zone :=
  if Scalar.isFinite lon && Scalar.isFinite lat && Scalar.within (-80) 84 lat then
    .ok ⟨numberAt lon lat, lat < 0⟩
  else .error (.projection (.noUtmZone lon lat))

end Zone
end Geospatial
