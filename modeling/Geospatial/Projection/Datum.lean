import Geospatial.Projection.Helmert
import Geospatial.Text

/-! Ellipsoids of revolution by equatorial radius and inverse flattening, and geodetic datums: an
ellipsoid and the shift of its frame to the reference frame. Shifts go through earth-centered
coordinates; a datum without a shift leaves longitude, latitude and height as they are, whatever its
ellipsoid. -/
namespace Geospatial

structure Ellipsoid (K : Type) where
  /-- Equatorial radius, in meters. -/
  radius : K
  /-- Reciprocal of the flattening; infinite for a sphere. -/
  inverseFlattening : K

namespace Ellipsoid

variable {K : Type} [Scalar K]

instance : BEq (Ellipsoid K) where
  beq a b := a.radius == b.radius && a.inverseFlattening == b.inverseFlattening

def wgs84 : Ellipsoid K := ⟨6378137, 298.257223563⟩

def grs80 : Ellipsoid K := ⟨6378137, 298.257222101⟩

def clarke1866 : Ellipsoid K := ⟨6378206.4, 294.978698213898⟩

def airy1830 : Ellipsoid K := ⟨6377563.396, 299.3249646⟩

def sphere (radius : K) : Ellipsoid K := ⟨radius, Scalar.infinity⟩

/-- The ellipsoid with the given equatorial and polar radius. -/
def ofRadii (equatorial polar : K) : Ellipsoid K :=
  if equatorial == polar then sphere equatorial
  else ⟨equatorial, equatorial / (equatorial - polar)⟩

/-- Looks an ellipsoid up by its short name, in any case. -/
def ofName? (name : String) : Option (Ellipsoid K) :=
  match Text.asciiLower name with
  | "wgs84" => some wgs84
  | "grs80" => some grs80
  | "clrk66" => some clarke1866
  | "airy" => some airy1830
  | _ => none

/-- Share by which the polar radius falls short of the equatorial one. -/
def flattening (e : Ellipsoid K) : K :=
  if Scalar.isFinite e.inverseFlattening || Scalar.isNaN e.inverseFlattening then
    1 / e.inverseFlattening
  else 0

def polarRadius (e : Ellipsoid K) : K := e.radius * (1 - e.flattening)

/-- Square of the first eccentricity. -/
def eccentricitySquared (e : Ellipsoid K) : K := e.flattening * (2 - e.flattening)

def eccentricity (e : Ellipsoid K) : K := Scalar.sqrt e.eccentricitySquared

/-- Square of the second eccentricity. -/
def secondEccentricitySquared (e : Ellipsoid K) : K :=
  e.eccentricitySquared / (1 - e.eccentricitySquared)

/-- Difference of the radii over their sum. -/
def thirdFlattening (e : Ellipsoid K) : K := e.flattening / (2 - e.flattening)

def isSphere (e : Ellipsoid K) : Bool := e.flattening == 0

end Ellipsoid

/-- Longitude and latitude in degrees and height over the ellipsoid in meters. -/
structure Geodetic (K : Type) where
  lon : K
  lat : K
  height : K

namespace Ellipsoid

variable {K : Type} [Scalar K]

/-- Radius of curvature across the meridian at a latitude with the given sine. -/
def crossRadius (e : Ellipsoid K) (sine : K) : K :=
  e.radius / Scalar.sqrt (1 - e.eccentricitySquared * Scalar.square sine)

/-- Earth-centered coordinates of a geodetic position. -/
def toCartesian (e : Ellipsoid K) (p : Geodetic K) : Cartesian K :=
  let phi := Scalar.radians p.lat
  let lam := Scalar.radians p.lon
  let n := e.crossRadius (Scalar.sin phi)
  { x := (n + p.height) * Scalar.cos phi * Scalar.cos lam
    y := (n + p.height) * Scalar.cos phi * Scalar.sin lam
    z := (n * (1 - e.eccentricitySquared) + p.height) * Scalar.sin phi }

/-- Improves a latitude and height, given the distance `p` from the axis. -/
def improve (e : Ellipsoid K) (p z : K) : K × K → K × K := fun (lat, _) =>
  let e2 := e.eccentricitySquared
  let n := e.crossRadius (Scalar.sin lat)
  let h := if 1e-12 < Scalar.abs (Scalar.cos lat) then p / Scalar.cos lat - n
    else Scalar.abs z - n * (1 - e2)
  (Scalar.atan2 z (p * (1 - e2 * n / (n + h))), h)

/-- Geodetic position of earth-centered coordinates, by five rounds of improvement. -/
def ofCartesian (e : Ellipsoid K) (c : Cartesian K) : Geodetic K :=
  let p := Scalar.hypot c.x c.y
  let start := (Scalar.atan2 c.z (p * (1 - e.eccentricitySquared)), 0)
  let (lat, height) := Nat.repeat (e.improve p c.z) 5 start
  { lon := Scalar.degrees (Scalar.atan2 c.y c.x)
    lat := Scalar.degrees lat
    height }

end Ellipsoid

structure Datum (K : Type) where
  ellipsoid : Ellipsoid K
  /-- Takes the datum's frame to the reference frame. -/
  shift : Helmert K

namespace Datum

variable {K : Type} [Scalar K]

def wgs84 : Datum K := ⟨.wgs84, .identity⟩

/-- Looks a datum up by its short name, in any case. -/
def ofName? (name : String) : Option (Datum K) :=
  match Text.asciiLower name with
  | "wgs84" => some wgs84
  | "nad83" => some ⟨.grs80, .identity⟩
  | "nad27" => some ⟨.clarke1866, .ofDisplacement (-8) 160 176⟩
  | "osgb36" =>
    some ⟨.airy1830, ⟨446.448, -125.157, 542.06, 0.1502, 0.247, 0.8421, -20.4894⟩⟩
  | _ => none

def isWgs84 (d : Datum K) : Bool := d.shift.isIdentity && d.ellipsoid == .wgs84

def toWgs84 (d : Datum K) (p : Geodetic K) : Geodetic K :=
  if d.shift.isIdentity then p
  else Ellipsoid.wgs84.ofCartesian (d.shift.apply (d.ellipsoid.toCartesian p))

def ofWgs84 (d : Datum K) (p : Geodetic K) : Geodetic K :=
  if d.shift.isIdentity then p
  else d.ellipsoid.ofCartesian (d.shift.applyInverse (Ellipsoid.wgs84.toCartesian p))

end Datum
end Geospatial
