import Geospatial.GeoJson.Shape
import Geospatial.Json.Tree

/-! GeoJSON documents as text. A document that is read may have members that it does not
need; a written one has its members in a fixed order, the type first. -/
namespace Geospatial.GeoJson

open Json (Value Members)

/-- What is read from a document, or why it is none. -/
abbrev Reading (α : Type) := Except DocumentFault α

def asArray : Value → Reading (List Value)
  | .array items => .ok items
  | _ => .error .invalidCoordinates

def asNumber : Value → Reading Float
  | .number n => .ok n.toDouble
  | _ => .error .invalidCoordinates

/-- A place has two coordinates at least. -/
def readPlace (v : Value) : Reading (List Float) := do
  let items ← asArray v
  if items.length < 2 then throw .invalidCoordinates
  items.mapM asNumber

def readList (read : Value → Reading α) (v : Value) : Reading (List α) := do
  (← asArray v).mapM read

def member (m : Members) (name : String) : Reading Value :=
  match m.get? name with
  | some v => .ok v
  | none => .error .invalidMember

def textMember (m : Members) (name : String) : Reading String := do
  match ← member m name with
  | .string s => return s
  | _ => throw .invalidMember

/-- A box, where there is one, is an array of numbers. -/
def checkBox (m : Members) : Reading Unit :=
  match m.get? "bbox" with
  | none | some .null => .ok ()
  | some (.array items) =>
    if items.all fun v => match v with
      | .number _ => true
      | _ => false then .ok ()
    else .error .invalidMember
  | some _ => .error .invalidMember

/-- The shape of a kind other than a collection. -/
def readCoordinates (kind : GeometryKind) (v : Value) : Reading (Shape Float) := do
  match kind with
  | .point => return .point (← readPlace v)
  | .lineString => return .lineString (← readList readPlace v)
  | .polygon => return .polygon (← readList (readList readPlace) v)
  | .multiPoint => return .multiPoint (← readList readPlace v)
  | .multiLineString => return .multiLineString (← readList (readList readPlace) v)
  | .multiPolygon => return .multiPolygon (← readList (readList (readList readPlace)) v)
  | .collection => throw .unknownGeometry

/-- The shape of an object, by recursion on a bound for the nesting of collections. -/
def readShape (m : Members) : Nat → Reading (Shape Float)
  | 0 => .error .notJson
  | depth + 1 => do
    checkBox m
    let name ← textMember m "type"
    let some kind := GeometryKind.ofName? name | throw .unknownGeometry
    if kind == .collection then
      let items ← asArray (← member m "geometries")
      return .collection (← items.mapM fun v => match v with
        | .object m => readShape m depth
        | _ => .error .invalidMember)
    readCoordinates kind (← member m "coordinates")

/-- The shape of an object of the nesting that documents may have. -/
def readShapeObject (m : Members) : Reading (Shape Float) := readShape m (Json.depthLimit + 1)

def readIdentifier (m : Members) : Reading (Option Identifier) :=
  match m.get? "id" with
  | none => .ok none
  | some (.number n) => .ok (some (.number n))
  | some (.string s) => .ok (some (.text s))
  | some _ => .error .invalidMember

def readProperties (m : Members) : Reading (Option Members) :=
  match m.get? "properties" with
  | none | some .null => .ok none
  | some (.object ps) => .ok (some ps)
  | some _ => .error .invalidMember

def readFeatureObject (m : Members) : Reading (FeatureObject Float) := do
  if (← textMember m "type") != "Feature" then throw .invalidMember
  let shape ← match ← member m "geometry" with
    | .null => pure none
    | .object g => some <$> readShapeObject g
    | _ => throw .invalidMember
  let properties ← readProperties m
  let id ← readIdentifier m
  checkBox m
  return { shape, properties, id }

def readDocument (m : Members) : Reading (Document Float) := do
  let some (.string name) := m.get? "type" | throw .unknownGeometry
  if name == "Feature" then return .feature (← readFeatureObject m)
  else if name == "FeatureCollection" then
    checkBox m
    let items ← asArray (← member m "features")
    return .features (← items.mapM fun v => match v with
      | .object m => readFeatureObject m
      | _ => .error .invalidMember)
  else if (GeometryKind.ofName? name).isSome then return .shape (← readShapeObject m)
  else throw .invalidMember

def Document.read (text : String) : Outcome Float (Document Float) :=
  match Value.read? text with
  | some (.object m) => (readDocument m).mapError .document
  | _ => .error (.document .notJson)

/-- The geometry that a document holds, alone or as its one feature. -/
def geometryOfText (text : String) : Outcome Float (Geometry Float) := do
  match ← Document.read text with
  | .shape s => s.toGeometry?.mapError .structural
  | .feature o => (o.toFeature?.map (·.geometry)).mapError .structural
  | .features _ => throw (.document .collectionForGeometry)

def featuresOfText (text : String) : Outcome Float (List (Feature Float)) := do
  (← Document.read text).toFeatures?.mapError .structural

/-- A list, each of whose items is written by `write`. -/
def arrayOf (write : α → Value) (items : List α) : Value := .array (items.map write)

/-- The object of a geometry. -/
def shapeObject (kind : GeometryKind) (contents : Value) : Value :=
  .object [("type", .string kind.name),
    (if kind == .collection then "geometries" else "coordinates", contents)]

mutual

/-- The object of a shape, whose coordinates are written by `number`. -/
def Shape.toJson (number : K → Value) : Shape K → Value
  | .point place => shapeObject .point (arrayOf number place)
  | .lineString places => shapeObject .lineString (arrayOf (arrayOf number) places)
  | .polygon rings => shapeObject .polygon (arrayOf (arrayOf (arrayOf number)) rings)
  | .multiPoint places => shapeObject .multiPoint (arrayOf (arrayOf number) places)
  | .multiLineString lines =>
    shapeObject .multiLineString (arrayOf (arrayOf (arrayOf number)) lines)
  | .multiPolygon ps =>
    shapeObject .multiPolygon (arrayOf (arrayOf (arrayOf (arrayOf number))) ps)
  | .collection ss => shapeObject .collection (.array (Shape.listToJson number ss))

def Shape.listToJson (number : K → Value) : List (Shape K) → List Value
  | [] => []
  | s :: ss => s.toJson number :: Shape.listToJson number ss

end

def Identifier.toJson : Identifier → Value
  | .number n => .number n
  | .text s => .string s

/-- The object of a feature; an absent identifier is left out. -/
def FeatureObject.toJson (o : FeatureObject Float) : Value :=
  .object ([("type", .string "Feature"),
      ("geometry", (o.shape.map (Shape.toJson Value.double)).getD .null),
      ("properties", (o.properties.map Value.object).getD .null)] ++
    (o.id.map fun i => ("id", i.toJson)).toList)

def geometryToJson (g : Geometry Float) : Value := (Shape.ofGeometry g).toJson Value.double

def geometryText (g : Geometry Float) : String := (geometryToJson g).text

/-- The text of a collection of features. -/
def featuresText (fs : List (Feature Float)) : String :=
  (Value.object [("type", .string "FeatureCollection"),
    ("features", arrayOf (fun f => (FeatureObject.ofFeature f).toJson) fs)]).text

end Geospatial.GeoJson
