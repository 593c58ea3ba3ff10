import Geospatial.Grid

/-! Slope, aspect, shading and curvature of an elevation grid. They come from the four
neighbors of a cell; where a neighbor is void or outside the grid, the nearest cell of
the grid or the cell itself stands in. Void cells stay void. -/
namespace Geospatial

/-- How a slope is measured. -/
inductive SlopeUnit where
  | degrees | percent
  deriving DecidableEq

namespace SlopeUnit

def name : SlopeUnit → String
  | degrees => "degrees"
  | percent => "percent"

def ofName? (s : String) : Option SlopeUnit := [degrees, percent].find? fun u => u.name == s

end SlopeUnit

namespace Terrain

variable {K : Type} [Scalar K]

/-- A cell's elevation and those around it. -/
structure Surroundings (K : Type) where
  center : K
  east : K
  west : K
  north : K
  south : K

/-- Elevation of the cell at an offset, that of the middle cell when it is void. -/
def beside (dem : Grid K) (row col : Nat) (dr dc : Int) (center : K) : K :=
  match dem.clamped (row + dr) (col + dc) with
  | none => center
  | some v => if dem.isVoid (some v) then center else v

def surroundings? (dem : Grid K) (row col : Nat) : Option (Surroundings K) :=
  (dem.value? row col).map fun z =>
    { center := z
      east := beside dem row col 0 1 z
      west := beside dem row col 0 (-1) z
      north := beside dem row col (-1) 0 z
      south := beside dem row col 1 0 z }

/-- Rise per unit of length toward the east and toward the north. -/
structure Gradient (K : Type) where
  east : K
  north : K

def gradient? (dem : Grid K) (row col : Nat) : Option (Gradient K) :=
  (surroundings? dem row col).map fun s =>
    { east := (s.east - s.west) / (2 * dem.frame.cellSize)
      north := (s.north - s.south) / (2 * dem.frame.cellSize) }

namespace Gradient

/-- Rise per unit of length in the steepest direction. -/
def steepness (g : Gradient K) : K := Scalar.hypot g.east g.north

/-- Direction of descent in radians, clockwise from north. -/
def descent (g : Gradient K) : K := Scalar.atan2 (-g.east) (-g.north)

/-- Direction of descent in degrees from 0 to 360, minus one on level ground. -/
def bearing (g : Gradient K) : K :=
  if g.east == 0 && g.north == 0 then -1
  else Scalar.modulo (Scalar.degrees g.descent) 360

/-- Light that falls on the surface, from 0 to 255. Angles are in radians. -/
def shade (zenith light : K) (g : Gradient K) : K :=
  let slope := Scalar.atan g.steepness
  let share := Scalar.cos zenith * Scalar.cos slope +
    Scalar.sin zenith * Scalar.sin slope * Scalar.cos (light - g.descent)
  Scalar.max (255 * share) 0

end Gradient

/-- Steepness of every cell. -/
def slope (dem : Grid K) (unit : SlopeUnit) (signal : Signal) : Outcome K (Grid K) :=
  Grid.compute dem.frame signal fun row col => (gradient? dem row col).map fun g =>
    match unit with
    | .degrees => Scalar.degrees (Scalar.atan g.steepness)
    | .percent => g.steepness * 100

/-- Bearing of descent of every cell. -/
def aspect (dem : Grid K) (signal : Signal) : Outcome K (Grid K) :=
  Grid.compute dem.frame signal fun row col => (gradient? dem row col).map Gradient.bearing

/-- Shading under a light from the given azimuth and altitude, in degrees. -/
def hillshade (dem : Grid K) (azimuth altitude : K) (signal : Signal) : Outcome K (Grid K) := do
  if !(Scalar.within 0 90 altitude && Scalar.isFinite azimuth) then
    Outcome.refuse (.hillshadeLight azimuth altitude)
  let zenith := Scalar.radians (90 - altitude)
  let light := Scalar.radians azimuth
  Grid.compute dem.frame signal fun row col =>
    (gradient? dem row col).map (Gradient.shade zenith light)

/-- Curvature of every cell, positive where the surface bulges. -/
def curvature (dem : Grid K) (signal : Signal) : Outcome K (Grid K) :=
  let area := dem.frame.cellSize * dem.frame.cellSize
  Grid.compute dem.frame signal fun row col => (surroundings? dem row col).map fun s =>
    let d := ((s.east + s.west) / 2 - s.center) / area
    let e := ((s.north + s.south) / 2 - s.center) / area
    (-2) * (d + e) * 100

end Terrain
end Geospatial
