import Geospatial.Projection.Datum

/-! Projections onto cylinders and cones: Mercator on the sphere and on the ellipsoid, the equidistant
cylindrical projection, and Albers' equal-area conic projection. Forward takes longitude and latitude
in degrees to easting and northing, inverse takes them back. -/
namespace Geospatial

/-- Repeats `step` until it moves the value by less than `tolerance`, at most `fuel`
times. -/
def Scalar.settle {K : Type} [Scalar K] (tolerance : K) (step : K → K) : Nat → K → K
  | 0, x => x
  | fuel + 1, x =>
    let next := step x
    if Scalar.abs (next - x) < tolerance then next else settle tolerance step fuel next

structure Mercator (K : Type) where
  /-- Central meridian, in degrees. -/
  meridian : K
  /-- Scale on the equator. -/
  scale : K
  falseEasting : K
  falseNorthing : K

namespace Mercator

variable {K : Type} [Scalar K]

/-- Latitudes beyond this one are projected as this one: there the square map of the
sphere ends. -/
def latitudeLimit : K := 85.05112878

/-- The equatorial scale that makes a parallel true to scale. -/
def scaleOfParallel (lat : K) (e : Ellipsoid K) : K :=
  let phi := Scalar.radians lat
  Scalar.cos phi / Scalar.sqrt (1 - e.eccentricitySquared * Scalar.square (Scalar.sin phi))

/-- Factor by which the ellipsoid changes the stretched latitude of the sphere. -/
def ellipsoidFactor (eccentricity phi : K) : K :=
  let s := eccentricity * Scalar.sin phi
  Scalar.pow ((1 - s) / (1 + s)) (eccentricity / 2)

def forward (m : Mercator K) (e : Ellipsoid K) (lon lat : K) : K × K :=
  let phi := Scalar.radians (Scalar.clamp (-latitudeLimit) latitudeLimit lat)
  let r := m.scale * e.radius
  let stretched := Scalar.tan (Scalar.pi / 4 + phi / 2)
  let y := Scalar.log
    (if e.isSphere then stretched else stretched * ellipsoidFactor e.eccentricity phi)
  (m.falseEasting + r * Scalar.radians (lon - m.meridian), m.falseNorthing + r * y)

def inverse (m : Mercator K) (e : Ellipsoid K) (x y : K) : K × K :=
  let r := m.scale * e.radius
  let shrunk := Scalar.exp (-(y - m.falseNorthing) / r)
  let latitude (t : K) : K := Scalar.pi / 2 - 2 * Scalar.atan t
  let spherical := latitude shrunk
  let phi := if e.isSphere then spherical
    else Scalar.settle 1e-14
      (fun phi => latitude (shrunk * ellipsoidFactor e.eccentricity phi)) 15 spherical
  (m.meridian + Scalar.degrees ((x - m.falseEasting) / r), Scalar.degrees phi)

end Mercator

structure EquidistantCylindrical (K : Type) where
  /-- The parallel that is true to scale, in degrees. -/
  trueParallel : K
  /-- Latitude and longitude of the origin, in degrees. -/
  parallel : K
  meridian : K
  falseEasting : K
  falseNorthing : K

namespace EquidistantCylindrical

variable {K : Type} [Scalar K]

def forward (q : EquidistantCylindrical K) (e : Ellipsoid K) (lon lat : K) : K × K :=
  (q.falseEasting + e.radius * Scalar.radians (lon - q.meridian) *
      Scalar.cos (Scalar.radians q.trueParallel),
    q.falseNorthing + e.radius * Scalar.radians (lat - q.parallel))

def inverse (q : EquidistantCylindrical K) (e : Ellipsoid K) (x y : K) : K × K :=
  (q.meridian + Scalar.degrees
      ((x - q.falseEasting) / (e.radius * Scalar.cos (Scalar.radians q.trueParallel))),
    q.parallel + Scalar.degrees ((y - q.falseNorthing) / e.radius))

end EquidistantCylindrical

structure AlbersConic (K : Type) where
  /-- Latitude and longitude of the origin, in degrees. -/
  parallel : K
  meridian : K
  /-- The two parallels that are true to scale, in degrees. -/
  southParallel : K
  northParallel : K
  falseEasting : K
  falseNorthing : K

namespace AlbersConic

variable {K : Type} [Scalar K]

/-- Logarithm by which the ellipsoid's zones differ from those of the sphere. -/
def zoneLog (eccentricity sine : K) : K :=
  (1 / (2 * eccentricity)) *
    Scalar.log ((1 - eccentricity * sine) / (1 + eccentricity * sine))

/-- Area of the zone between the equator and a latitude, per radian of longitude, in units
of half the squared radius. -/
def zoneArea (e : Ellipsoid K) (phi : K) : K :=
  let s := Scalar.sin phi
  let e2 := e.eccentricitySquared
  if e2 == 0 then 2 * s
  else (1 - e2) * (s / (1 - e2 * s * s) - zoneLog (Scalar.sqrt e2) s)

/-- Radius of a parallel in units of the equatorial radius. -/
def parallelRadius (e : Ellipsoid K) (phi : K) : K :=
  Scalar.cos phi / Scalar.sqrt (1 - e.eccentricitySquared * Scalar.square (Scalar.sin phi))

/-- The cone that is unrolled. -/
structure Cone (K : Type) where
  /-- Angle of the unrolled cone per radian of longitude. -/
  constant : K
  offset : K
  /-- Distance of the origin from the apex. -/
  originRadius : K

/-- Distance from the apex of the parallel that bounds the zone of the given area. -/
def apexDistance (e : Ellipsoid K) (constant offset area : K) : K :=
  e.radius * Scalar.sqrt (Scalar.max (offset - constant * area) 0) / constant

def cone (p : AlbersConic K) (e : Ellipsoid K) : Cone K :=
  let phi₀ := Scalar.radians p.parallel
  let phi₁ := Scalar.radians p.southParallel
  let phi₂ := Scalar.radians p.northParallel
  let m₁ := parallelRadius e phi₁
  let m₂ := parallelRadius e phi₂
  let q₁ := zoneArea e phi₁
  let q₂ := zoneArea e phi₂
  let n := if 1e-10 < Scalar.abs (phi₁ - phi₂) then (m₁ * m₁ - m₂ * m₂) / (q₂ - q₁)
    else Scalar.sin phi₁
  let c := m₁ * m₁ + n * q₁
  { constant := n, offset := c, originRadius := apexDistance e n c (zoneArea e phi₀) }

def forward (p : AlbersConic K) (e : Ellipsoid K) (lon lat : K) : K × K :=
  let cone := p.cone e
  let rho := apexDistance e cone.constant cone.offset (zoneArea e (Scalar.radians lat))
  let theta := cone.constant * Scalar.radians (lon - p.meridian)
  (p.falseEasting + rho * Scalar.sin theta,
    p.falseNorthing + cone.originRadius - rho * Scalar.cos theta)

/-- The next approximation to the latitude that bounds a zone of the given area. -/
def latitudeStep (e : Ellipsoid K) (area phi : K) : K :=
  let e2 := e.eccentricitySquared
  let s := Scalar.sin phi
  let one := 1 - e2 * s * s
  phi + one * one / (2 * Scalar.cos phi) *
    (area / (1 - e2) - s / one + zoneLog (Scalar.sqrt e2) s)

def inverse (p : AlbersConic K) (e : Ellipsoid K) (x y : K) : K × K :=
  let cone := p.cone e
  let n := cone.constant
  let dx := x - p.falseEasting
  let dy := cone.originRadius - (y - p.falseNorthing)
  let sign := Scalar.signum n
  let rho := Scalar.hypot dx dy * sign
  let theta := Scalar.atan2 (dx * sign) (dy * sign)
  let area := (cone.offset - Scalar.square (rho * n / e.radius)) / n
  let spherical := Scalar.asin (Scalar.clamp (-1) 1 (area / 2))
  let phi := if 0 < e.eccentricitySquared then
      Scalar.settle 1e-14 (latitudeStep e area) 20 spherical
    else spherical
  (p.meridian + Scalar.degrees (theta / n), Scalar.degrees phi)

end AlbersConic

end Geospatial
