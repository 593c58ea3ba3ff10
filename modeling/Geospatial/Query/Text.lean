import Geospatial.Query
import Geospatial.GeoJson.Text

/-! Queries as JSON records. -/
namespace Geospatial.Query

open Json (Tree Value)

/-- Names of the members, in declared order. -/
def memberNames : List String :=
  ["geometry", "spatialRel", "where", "fields", "returnGeometry", "orderBy", "limit"]

/-- The geometry of a query: an object with a sound GeoJSON geometry. -/
def readGeometry? (t : Tree) : Option (Geometry Float) := do
  let .object m ← t.value? (Json.depthLimit - 1) | none
  let shape ← (GeoJson.readShapeObject m).toOption
  shape.toGeometry?.toOption

def ofTree? (t : Tree) : Option (Query Float) := do
  let [geometry, relation, condition, fields, returnGeometry, orderBy, limit] ←
      Json.recordMembers? memberNames .skip t
    | none
  return {
    geometry := ← Tree.optional? readGeometry? geometry
    relation := ← Tree.optional? (fun t => do Relation.ofName? (← t.name?)) relation
    condition := ← Tree.optional? Tree.text? condition
    fields := ← Tree.optional? Tree.texts? fields
    returnGeometry := ← Tree.optional? Tree.bool? returnGeometry
    orderBy := ← Tree.optional? Tree.text? orderBy
    limit := ← Tree.optional? Tree.natural? limit }

def ofJson (text : String) : Outcome Float (Query Float) :=
  match (Tree.read? text).bind ofTree? with
  | some q => .ok q
  | none => .error (.document .notJson)

/-- The record of a query; what is absent is left out. -/
def toJson (q : Query Float) : String :=
  let values := [
    q.geometry.map GeoJson.geometryToJson,
    q.relation.map fun r => .string r.name,
    q.condition.map Value.string,
    q.fields.map (GeoJson.arrayOf Value.string),
    q.returnGeometry.map Value.bool,
    q.orderBy.map Value.string,
    q.limit.map fun n => .whole n]
  (Value.object ((memberNames.zip values).filterMap fun (n, v) => v.map (n, ·))).text

end Geospatial.Query
