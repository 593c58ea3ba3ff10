import Geospatial.Geometry
import Geospatial.Where.Token

/-! Why an operation refuses its input. Faults are causes with the values that show
them; `Fault.message?` words them. Outcomes such as "no route" or "no overlap" are not
faults but ordinary results. -/
namespace Geospatial

/-- The part of a geometry that a structural fault is about. -/
inductive Part where
  | line
  | lineOf (index : Nat)
  | polygon
  | polygonOf (index : Nat)
  deriving DecidableEq

def Part.describe : Part → String
  | .line => "LineString"
  | .lineOf i => s!"MultiLineString line {i}"
  | .polygon => "Polygon"
  | .polygonOf i => s!"MultiPolygon polygon {i}"

/-- A malformed geometry. -/
inductive StructureFault where
  | noPositions
  | noLines
  | noPolygons
  | lineTooShort (part : Part) (count : Nat)
  | noRings (part : Part)
  | ringTooShort (part : Part) (ring count : Nat)
  | ringNotClosed (part : Part) (ring : Nat)
  | positionTooShort (count : Nat)
  | featureWithoutGeometry
  deriving DecidableEq

def StructureFault.message : StructureFault → String
  | .noPositions => "MultiPoint must contain at least one position"
  | .noLines => "MultiLineString must contain at least one line"
  | .noPolygons => "MultiPolygon must contain at least one polygon"
  | .lineTooShort part count => s!"{part.describe} requires at least 2 positions, got {count}"
  | .noRings part => s!"{part.describe} requires at least one ring"
  | .ringTooShort part ring count =>
    s!"{part.describe} ring {ring} requires at least 4 positions, got {count}"
  | .ringNotClosed part ring => s!"{part.describe} ring {ring} is not closed"
  | .positionTooShort count => s!"Position must have at least 2 coordinates, got {count}"
  | .featureWithoutGeometry => "Feature has no geometry"

/-- A text that is not a document of the kind asked for. -/
inductive DocumentFault where
  | notJson
  | invalidMember
  | unknownGeometry
  | invalidCoordinates
  | collectionForGeometry
  deriving DecidableEq

/-- Operations that merge or cut polygonal geometries. -/
inductive OverlayKind where
  | union | intersection | difference | dissolve
  deriving DecidableEq

def OverlayKind.name : OverlayKind → String
  | .union => "union"
  | .intersection => "intersection"
  | .difference => "difference"
  | .dissolve => "dissolve"

/-- Route searches that need costs of at least zero. -/
inductive RouteSearch where
  | dijkstra | aStar | serviceArea | tour
  deriving DecidableEq

def RouteSearch.name : RouteSearch → String
  | .dijkstra => "Dijkstra"
  | .aStar => "A*"
  | .serviceArea => "Service area"
  | .tour => "Tour"

/-- A question that has no answer for the kind of geometry or network at hand. -/
inductive TopologyFault (K : Type) where
  | unknownRelationship (name : String)
  | notPolygonal (operation : OverlayKind) (kind : GeometryKind)
  | unknownEndpoint (edge node : String)
  | negativeCost (search : RouteSearch) (cost : K) (edge : String)
  | negativeCycle (start edge : String)

def TopologyFault.message : TopologyFault Float → String
  | .unknownRelationship name => s!"Unknown relationship '{name}'"
  | .notPolygonal operation kind =>
    s!"{operation.name} requires Polygon or MultiPolygon input, got {kind.name}"
  | .unknownEndpoint edge node => s!"Edge '{edge}' references unknown node '{node}'"
  | .negativeCost search cost edge =>
    s!"{search.name} cannot route over negative cost {Number.plain cost} on edge '{edge}'"
  | .negativeCycle start edge =>
    s!"Negative cycle reachable from '{start}' through edge '{edge}'"

/-- A reference system that cannot be read, found or applied. -/
inductive ProjectionFault (K : Type) where
  | malformedToken (token : String)
  | noProjection
  | unsupportedProjection (name : String)
  | unsupportedEllipsoid (name : String)
  | unsupportedDatum (name : String)
  | unsupportedUnits (name : String)
  | invalidParameter (key raw : String)
  | shiftParameterCount (count : Nat)
  | utmWithoutZone
  | utmZoneOutOfRange (zone : K)
  | albersWithoutParallel
  | symmetricParallels
  | latitudeOutOfRange (latitude : K)
  | notUtmCode (code : Nat)
  | noUtmZone (lon lat : K)
  | malformedCode (code : String)
  | unknownCode (code : Nat)

def ProjectionFault.message : ProjectionFault Float → String
  | .malformedToken token => s!"Malformed proj4 token '{token}'"
  | .noProjection => "Definition has no +proj"
  | .unsupportedProjection name => s!"Unsupported projection '+proj={name}'"
  | .unsupportedEllipsoid name => s!"Unsupported ellipsoid '{name}'"
  | .unsupportedDatum name => s!"Unsupported datum '{name}'"
  | .unsupportedUnits name => s!"Unsupported units '{name}'"
  | .invalidParameter key raw => s!"Invalid +{key} value '{raw}'"
  | .shiftParameterCount count => s!"towgs84 needs 3 or 7 parameters, got {count}"
  | .utmWithoutZone => "+proj=utm requires +zone"
  | .utmZoneOutOfRange zone => s!"UTM zone must be 1-60, got {Number.plain zone}"
  | .albersWithoutParallel => "+proj=aea requires +lat_1"
  | .symmetricParallels =>
    "Albers standard parallels must not be symmetric about the equator"
  | .latitudeOutOfRange latitude => s!"Latitude {Number.plain latitude} is outside [-90, 90]"
  | .notUtmCode code => s!"EPSG:{code} is not a WGS84 UTM zone code"
  | .noUtmZone lon lat => s!"No UTM zone covers ({Number.plain lon}, {Number.plain lat})"
  | .malformedCode code => s!"Malformed CRS code '{code}'"
  | .unknownCode code => s!"Unknown CRS code 'EPSG:{code}'"

/-- Lengths that have to be positive and finite. -/
inductive Extent where
  | bandwidth | searchRadius | distanceBand
  deriving DecidableEq

def Extent.name : Extent → String
  | .bandwidth => "Bandwidth"
  | .searchRadius => "Search radius"
  | .distanceBand => "Distance band"

/-- Parameters outside the domain of an operation. -/
inductive InputFault (K : Type) where
  | circleSteps (count : Nat)
  | ellipseRadii (rx ry : K)
  | polygonSides (count : Nat)
  | polygonRadius (radius : K)
  | starPoints (count : Nat)
  | starRadii (inner outer : K)
  | bufferDistance (distance : K)
  | bufferSteps (count : Nat)
  | bufferOfNothing
  | bufferOfEmptyLine
  | bufferWithoutRings
  | bufferOfFewVertices
  | simplifyTolerance (tolerance : K)
  | densifyLength (length : K)
  | unboundedItem
  | nonFiniteItem
  | condition (fault : Where.Fault)
  | orderTerm (term : String)
  | relationWithoutGeometry
  | nonFinitePosition (x y : K)
  | gridDimensions (width height : Nat)
  | gridCellSize (size : K)
  | gridOrigin
  | gridValueCount (width height needed got : Nat)
  | gridRowsUneven
  | zeroNeighbors
  | extentNotPositive (extent : Extent) (value : K)
  | weightCount (expected got : Nat)
  | valueCount (expected got : Nat)
  | tooFewObservations
  | nonFinitePoint (index : Nat)
  | neighborhoodRadius (eps : K)
  | neighborhoodCount
  | clusterCount (points k : Nat)
  | edgeCost (edge : String) (cost : K)
  | unknownNode (id : String)
  | serviceLimit (limit : K)
  | emptyTour
  | hillshadeLight (azimuth altitude : K)
  | observerOutside (x y : K)
  | observerOnVoid
  | targetOutside (x y : K)
  | targetOnVoid
  | sampleStep
  | noSamples
  | sampleValueCount (expected got : Nat)
  | nonFiniteSamples
  | weightingPower (power : K)
  | variogramLags (size : K) (count : Nat)
  | noSamplePairs
  | singularSystem

def InputFault.message : InputFault Float → String
  | .circleSteps count => s!"at least 3 steps are required, got {count}"
  | .ellipseRadii rx ry =>
    s!"radii must be positive and finite, got ({Number.plain rx}, {Number.plain ry})"
  | .polygonSides count => s!"a regular polygon needs at least 3 sides, got {count}"
  | .polygonRadius radius => s!"radius must be positive and finite, got {Number.plain radius}"
  | .starPoints count => s!"a star needs at least 2 points, got {count}"
  | .starRadii inner outer =>
    s!"star radii must satisfy 0 < inner < outer, got inner={Number.plain inner} outer={Number.plain outer}"
  | .bufferDistance distance =>
    s!"Buffer distance must be positive and finite, got {Number.plain distance}"
  | .bufferSteps count => s!"Buffer steps must be at least 3, got {count}"
  | .bufferOfNothing => "Nothing to buffer in an empty collection"
  | .bufferOfEmptyLine => "Cannot buffer an empty line"
  | .bufferWithoutRings => "Cannot buffer a polygon without rings"
  | .bufferOfFewVertices => "Polygon exterior needs at least 3 distinct vertices"
  | .simplifyTolerance tolerance =>
    s!"Simplify tolerance must be non-negative and finite, got {Number.plain tolerance}"
  | .densifyLength length =>
    s!"Densify segment length must be positive and finite, got {Number.plain length}"
  | .unboundedItem => "Cannot index an item without bounds"
  | .nonFiniteItem => "Cannot index an item with non-finite bounds"
  | .condition fault => fault.message
  | .orderTerm term => s!"Invalid orderBy term '{term}'"
  | .relationWithoutGeometry => "spatialRel requires a geometry"
  | .nonFinitePosition x y =>
    s!"Cannot transform non-finite position ({Number.plain x}, {Number.plain y})"
  | .gridDimensions width height => s!"Grid dimensions must be non-zero, got {width}x{height}"
  | .gridCellSize size => s!"Grid cell size must be positive and finite, got {Number.plain size}"
  | .gridOrigin => "Grid origin must be finite"
  | .gridValueCount width height needed got =>
    s!"Grid of {width}x{height} needs {needed} values, got {got}"
  | .gridRowsUneven => "Grid rows must all have the same length"
  | .zeroNeighbors => "k must be greater than zero"
  | .extentNotPositive extent value =>
    s!"{extent.name} must be positive and finite, got {Number.plain value}"
  | .weightCount expected got => s!"Expected {expected} weights, got {got}"
  | .valueCount expected got => s!"Expected {expected} values, got {got}"
  | .tooFewObservations => "Gi* needs at least two observations"
  | .nonFinitePoint index => s!"Point {index} has non-finite coordinates"
  | .neighborhoodRadius eps => s!"DBSCAN eps must be positive and finite, got {Number.plain eps}"
  | .neighborhoodCount => "DBSCAN min_points must be at least 1"
  | .clusterCount points k =>
    s!"k must be between 1 and the number of points ({points}), got {k}"
  | .edgeCost edge cost => s!"Edge '{edge}' has non-finite cost {Number.plain cost}"
  | .unknownNode id => s!"Unknown node '{id}'"
  | .serviceLimit limit =>
    s!"Service area cost limit must be non-negative, got {Number.plain limit}"
  | .emptyTour => "Tour needs at least one stop"
  | .hillshadeLight azimuth altitude =>
    s!"Hillshade needs a finite azimuth and altitude in 0..=90, got {Number.plain azimuth} / {Number.plain altitude}"
  | .observerOutside x y =>
    s!"Observer ({Number.plain x}, {Number.plain y}) lies outside the elevation grid"
  | .observerOnVoid => "Observer stands on a nodata cell"
  | .targetOutside x y =>
    s!"Target ({Number.plain x}, {Number.plain y}) lies outside the elevation grid"
  | .targetOnVoid => "Target lies on a nodata cell"
  | .sampleStep => "Sample step must be at least 1"
  | .noSamples => "Interpolation needs at least one sample"
  | .sampleValueCount expected got => s!"Expected {expected} sample values, got {got}"
  | .nonFiniteSamples => "Samples must have finite coordinates and values"
  | .weightingPower power => s!"IDW power must be positive, got {Number.plain power}"
  | .variogramLags size count =>
    s!"Variogram needs a positive lag size and count, got {Number.plain size} x {count}"
  | .noSamplePairs => "No sample pairs fall within the variogram lags"
  | .singularSystem => "Kriging system is singular (duplicate sample locations?)"

/-- A setting outside its range, or a text that holds no settings. -/
inductive SettingFault (K : Type) where
  | unreadable
  | earthRadius
  | nodeCapacity
  | leastFill (bound got : Nat)
  | bufferSteps
  | spikeAngle (degrees : K)
  | iterationCap
  | observerHeight

def SettingFault.message? : SettingFault Float → Option String
  | .unreadable => none
  | .earthRadius => some "Earth radius must be a positive finite number"
  | .nodeCapacity => some "Index node capacity must be at least 2"
  | .leastFill bound got => some s!"Index minimum fill must be between 1 and {bound}, got {got}"
  | .bufferSteps => some "Buffer steps must be at least 3"
  | .spikeAngle degrees =>
    some s!"Spike angle threshold must be within [0, 180] degrees, got {Number.plain degrees}"
  | .iterationCap => some "k-means iteration cap must be greater than zero"
  | .observerHeight => some "Observer height must be finite"

inductive Fault (K : Type) where
  | structural (f : StructureFault)
  | document (f : DocumentFault)
  | topology (f : TopologyFault K)
  | projection (f : ProjectionFault K)
  | input (f : InputFault K)
  | setting (f : SettingFault K)
  | cancelled

/-- The classes that callers tell faults apart by. -/
inductive FaultKind where
  | geometry | topology | projection | invalidInput | serialization | config | cancelled
  deriving DecidableEq

def FaultKind.name : FaultKind → String
  | .geometry => "Geometry"
  | .topology => "Topology"
  | .projection => "Projection"
  | .invalidInput => "InvalidInput"
  | .serialization => "Serialization"
  | .config => "Config"
  | .cancelled => "Cancelled"

/-- A document with wrong coordinates is a malformed geometry; any other one is not the
document asked for. -/
def DocumentFault.kind : DocumentFault → FaultKind
  | .unknownGeometry | .invalidCoordinates => .geometry
  | .notJson | .invalidMember | .collectionForGeometry => .serialization

namespace Fault

def kind : Fault K → FaultKind
  | .structural _ => .geometry
  | .document f => f.kind
  | .topology _ => .topology
  | .projection _ => .projection
  | .input _ => .invalidInput
  | .setting _ => .config
  | .cancelled => .cancelled

/-- The wording of a fault; documents that cannot be read have none. -/
def message? : Fault Float → Option String
  | .structural f => some s!"Geometry error: {f.message}"
  | .document _ => none
  | .topology f => some s!"Topology error: {f.message}"
  | .projection f => some s!"Projection error: {f.message}"
  | .input f => some s!"Invalid input: {f.message}"
  | .setting f => f.message?.map fun m => s!"Configuration error: {m}"
  | .cancelled => some "Operation cancelled"

end Fault

/-- The result of an operation that may refuse its input. -/
abbrev Outcome (K α : Type) := Except (Fault K) α

def Outcome.refuse (f : InputFault K) : Outcome K α := .error (.input f)

end Geospatial
