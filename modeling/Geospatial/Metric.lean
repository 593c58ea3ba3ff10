import Geospatial.Position
import Geospatial.Scalar.Double

/-! Ways to measure the distance of two positions. All but the planar one read positions as longitude
and latitude in degrees and give meters. Distances on the ellipsoid and along lines of constant
bearing are those of a library of geodesy; what is said of distances holds for any such library. The
formulas here are what doubles are measured by: successive approximation on the ellipsoid, for
positions that are not nearly antipodal, and a closed form for lines of constant bearing. -/
namespace Geospatial

/-- Distances in meters of positions in degrees. -/
class Geodesy (K : Type) where
  /-- Along the shortest line on the reference ellipsoid. -/
  geodesic : Position K → Position K → K
  /-- Along the line of constant bearing. -/
  rhumb : Position K → Position K → K

namespace Geodesy

variable {K : Type} [Scalar K]

/-- An angle moved by at most one full turn into the half turns on either side of zero. -/
def wrapTurn (angle : K) : K :=
  if Scalar.pi < angle then -(2 * Scalar.pi - angle)
  else if angle < -Scalar.pi then 2 * Scalar.pi + angle
  else angle

/-- Mean radius of the ellipsoid, in meters. -/
def meanRadius : K := 6371008.8

/-- Stretched latitude differences below this one count as zero. -/
def leastStretch : K := 1e-11

/-- Distance along the line of constant bearing, on a sphere. -/
def rhumbDistance (a b : Position K) : K :=
  let lat₁ := Scalar.radians a.y
  let lat₂ := Scalar.radians b.y
  let dLat := lat₂ - lat₁
  let dLon := wrapTurn (Scalar.radians b.x - Scalar.radians a.x)
  let stretched := Scalar.log (Scalar.tan (lat₂ / 2 + Scalar.pi / 4) /
    Scalar.tan (lat₁ / 2 + Scalar.pi / 4))
  let q := if leastStretch < Scalar.abs stretched then dLat / stretched else Scalar.cos lat₁
  meanRadius * Scalar.sqrt (dLat * dLat + q * q * dLon * dLon)

/-- The auxiliary sphere of a geodesic, for a difference of longitudes on it. -/
structure Auxiliary (K : Type) where
  sinArc : K
  cosArc : K
  arc : K
  /-- Squared cosine of the azimuth at the equator. -/
  cosSqAzimuth : K
  sinAzimuth : K
  /-- Cosine of twice the arc from the equator to the middle of the line. -/
  cosMiddle : K

/-- The auxiliary sphere from the sines and cosines of the reduced latitudes. -/
def auxiliary (sin₁ cos₁ sin₂ cos₂ lambda : K) : Auxiliary K :=
  let sinL := Scalar.sin lambda
  let cosL := Scalar.cos lambda
  let sinArc := Scalar.hypot (cos₂ * sinL) (cos₁ * sin₂ - sin₁ * cos₂ * cosL)
  let cosArc := sin₁ * sin₂ + cos₁ * cos₂ * cosL
  let sinAzimuth := if sinArc == 0 then 0 else cos₁ * cos₂ * sinL / sinArc
  let cosSqAzimuth := 1 - sinAzimuth * sinAzimuth
  { sinArc, cosArc, sinAzimuth, cosSqAzimuth
    arc := Scalar.atan2 sinArc cosArc
    cosMiddle := if cosSqAzimuth ≤ 1e-12 then 0 else cosArc - 2 * sin₁ * sin₂ / cosSqAzimuth }

/-- Flattening of the reference ellipsoid. -/
def flattening : K := 1 / 298.257223563

/-- Equatorial radius of the reference ellipsoid, in meters. -/
def equatorialRadius : K := 6378137

/-- The next approximation of the longitude difference on the auxiliary sphere to the
difference `l` on the ellipsoid. -/
def refine (l : K) (s : Auxiliary K) : K :=
  let f : K := flattening
  let c := f / 16 * s.cosSqAzimuth * (4 + f * (4 - 3 * s.cosSqAzimuth))
  l + (1 - c) * f * s.sinAzimuth * (s.arc + c * s.sinArc *
    (s.cosMiddle + c * s.cosArc * (2 * s.cosMiddle * s.cosMiddle - 1)))

/-- Length of the line that belongs to an auxiliary sphere. -/
def lineLength (s : Auxiliary K) : K :=
  let polar : K := equatorialRadius * (1 - flattening)
  let u := s.cosSqAzimuth * (equatorialRadius * equatorialRadius - polar * polar) / (polar * polar)
  let a := 1 + u / 16384 * (4096 + u * (u * (320 - 175 * u) - 768))
  let b := u / 1024 * (256 + u * (u * (74 - 47 * u) - 128))
  let m := s.cosMiddle
  let delta := b * s.sinArc * (m + b / 4 * (s.cosArc * (2 * m * m - 1) -
    b / 6 * m * (4 * s.sinArc * s.sinArc - 3) * (4 * m * m - 3)))
  polar * a * (s.arc - delta)

/-- Distance on the ellipsoid by successive approximation, for positions that are not
nearly antipodal. -/
def geodesicDistance (a b : Position K) : K :=
  let reduced (lat : K) : K := Scalar.atan ((1 - flattening) * Scalar.tan (Scalar.radians lat))
  let u₁ := reduced a.y
  let u₂ := reduced b.y
  let sphere := auxiliary (Scalar.sin u₁) (Scalar.cos u₁) (Scalar.sin u₂) (Scalar.cos u₂)
  let l := wrapTurn (Scalar.radians (b.x - a.x))
  lineLength (sphere (Nat.repeat (fun lambda => refine l (sphere lambda)) 60 l))

/-- The geodesy of the formulas. -/
@[reducible]
def formulas : Geodesy K := ⟨geodesicDistance, rhumbDistance⟩

instance : Geodesy Float := formulas

end Geodesy

inductive Metric where
  /-- Great circles on a sphere. -/
  | haversine
  /-- Shortest lines on the reference ellipsoid. -/
  | geodesic
  /-- Lines of constant bearing on a sphere. -/
  | rhumb
  /-- The plane. -/
  | euclidean
  deriving DecidableEq

namespace Metric

def name : Metric → String
  | haversine => "haversine"
  | geodesic => "geodesic"
  | rhumb => "rhumb"
  | euclidean => "euclidean"

def ofName? (s : String) : Option Metric :=
  [haversine, geodesic, rhumb, euclidean].find? fun m => m.name == s

def isGeographic (m : Metric) : Bool := m != euclidean

variable {K : Type} [Scalar K] [Geodesy K]

/-- Distance of two positions. -/
def distance (m : Metric) (a b : Position K) : K :=
  match m with
  | haversine => a.haversine Position.earthRadius b
  | geodesic => Geodesy.geodesic a b
  | rhumb => Geodesy.rhumb a b
  | euclidean => a.distance b

end Metric
end Geospatial
