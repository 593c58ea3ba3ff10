import Geospatial.Feature
import Geospatial.Geometry.Check

/-! Documents in GeoJSON as typed trees. A shape holds coordinate lists of any length and
is converted to a geometry by the constructor of its kind; the other direction always
succeeds. Features carry over with their identifiers and properties. -/
namespace Geospatial.GeoJson

/-- A geometry whose places are plain lists of numbers. -/
inductive Shape (K : Type) where
  | point (place : List K)
  | lineString (places : List (List K))
  | polygon (rings : List (List (List K)))
  | multiPoint (places : List (List K))
  | multiLineString (lines : List (List (List K)))
  | multiPolygon (polygons : List (List (List (List K))))
  | collection (members : List (Shape K))

/-- The position of a coordinate list; coordinates after the third one are dropped. -/
def position? : List K → Except StructureFault (Position K)
  | [] => .error (.positionTooShort 0)
  | [_] => .error (.positionTooShort 1)
  | [x, y] => .ok ⟨x, y, none⟩
  | x :: y :: z :: _ => .ok ⟨x, y, some z⟩

def path? (places : List (List K)) : Except StructureFault (Path K) := places.mapM position?

namespace Shape

variable {K : Type}

mutual

def ofGeometry : Geometry K → Shape K
  | .point p => .point p.coordinates
  | .lineString line => .lineString (line.map Position.coordinates)
  | .polygon rings => .polygon (rings.map fun r => r.map Position.coordinates)
  | .multiPoint points => .multiPoint (points.map Position.coordinates)
  | .multiLineString lines => .multiLineString (lines.map fun l => l.map Position.coordinates)
  | .multiPolygon ps =>
    .multiPolygon (ps.map fun rings => rings.map fun r => r.map Position.coordinates)
  | .collection gs => .collection (ofGeometries gs)

def ofGeometries : List (Geometry K) → List (Shape K)
  | [] => []
  | g :: gs => ofGeometry g :: ofGeometries gs

end

mutual

/-- The geometry of a shape, or its first fault: a place that is too short before any
other fault of the same part. -/
def toGeometry? [Scalar K] : Shape K → Except StructureFault (Geometry K)
  | .point place => do return .point (← position? place)
  | .lineString places => do Geometry.createLineString (← path? places)
  | .polygon rings => do Geometry.createPolygon (← rings.mapM path?)
  | .multiPoint places => do Geometry.createMultiPoint (← path? places)
  | .multiLineString lines => do Geometry.createMultiLineString (← lines.mapM path?)
  | .multiPolygon ps => do
    Geometry.createMultiPolygon (← ps.mapM fun rings => rings.mapM path?)
  | .collection members => do Geometry.createCollection (← toGeometries? members)

def toGeometries? [Scalar K] : List (Shape K) → Except StructureFault (List (Geometry K))
  | [] => .ok []
  | s :: ss => do
    let g ← s.toGeometry?
    let gs ← toGeometries? ss
    return g :: gs

end

end Shape

/-- An identifier as a document has it. -/
inductive Identifier where
  | number (n : Json.Number)
  | text (s : String)

namespace Identifier

def ofFeatureId : FeatureId → Identifier
  | .number n => .number (.whole n.toInt)
  | .text s => .text s

/-- Whole numbers of sixty-four bits with sign stay numbers; others become their text. -/
def toFeatureId : Identifier → FeatureId
  | .text s => .text s
  | .number (.whole n) =>
    if Int64.minValue.toInt ≤ n && n ≤ Int64.maxValue.toInt then .number (Int64.ofInt n)
    else .text (Json.Number.whole n).text
  | .number (.double x) => .text (Json.Number.double x).text

end Identifier

/-- A feature as a document has it; only the shape must be there for the conversion. -/
structure FeatureObject (K : Type) where
  shape : Option (Shape K)
  properties : Option Json.Members
  id : Option Identifier

namespace FeatureObject

variable {K : Type}

def ofFeature (f : Feature K) : FeatureObject K :=
  ⟨some (.ofGeometry f.geometry), some f.properties, f.id.map .ofFeatureId⟩

def toFeature? [Scalar K] (o : FeatureObject K) : Except StructureFault (Feature K) := do
  let some shape := o.shape | throw .featureWithoutGeometry
  return {
    id := o.id.map Identifier.toFeatureId
    geometry := ← shape.toGeometry?
    properties := o.properties.getD [] }

end FeatureObject

inductive Document (K : Type) where
  | shape (s : Shape K)
  | feature (o : FeatureObject K)
  | features (os : List (FeatureObject K))

/-- The features of a document up to the first one that has a fault. A bare shape is a
feature without properties. -/
def Document.toFeatures? {K : Type} [Scalar K] : Document K → Except StructureFault (List (Feature K))
  | .shape s => do return [{ geometry := ← s.toGeometry? }]
  | .feature o => do return [← o.toFeature?]
  | .features os => os.mapM FeatureObject.toFeature?

end Geospatial.GeoJson
