import Geospatial.Index
import Geospatial.Relation
import Geospatial.Where.Parser
import Geospatial.Where.Truth

/-! Queries over features: a spatial filter, an attribute condition, an order, a limit and
a projection, each of them optional. An index over the same features makes the spatial
filter faster and changes no answer. -/
namespace Geospatial

structure Query (K : Type) where
  geometry : Option (Geometry K) := none
  /-- Relation of a feature to the geometry; intersection where there is none. -/
  relation : Option Relation := none
  condition : Option String := none
  /-- Names of the properties to keep; none, or a star among them, keeps all. -/
  fields : Option (List String) := none
  returnGeometry : Option Bool := none
  /-- Terms with commas between them, each a property with an optional direction. -/
  orderBy : Option String := none
  limit : Option Nat := none

namespace Query

variable {K : Type}

def beq [Scalar K] (a b : Query K) : Bool :=
  a.geometry == b.geometry && a.relation == b.relation && a.condition == b.condition &&
    a.fields == b.fields && a.returnGeometry == b.returnGeometry && a.orderBy == b.orderBy &&
    a.limit == b.limit

instance [Scalar K] : BEq (Query K) := ⟨beq⟩

/-- One feature of an answer. -/
structure Record (K : Type) where
  id : Option FeatureId
  geometry : Option (Geometry K)
  properties : Json.Members

/-- Place of a feature in a list, with its box. -/
structure Slot (K : Type) where
  index : Nat
  bounds : Bounds K

instance : Bounded K (Slot K) := ⟨fun s => some s.bounds⟩

/-- An index over the features that have positions. -/
def indexFeatures [Scalar K] (features : List (Feature K)) : Outcome K (Index K (Slot K)) :=
  let slots := features.zipIdx.filterMap fun (f, i) => f.geometry.bounds?.map (Slot.mk i)
  slots.foldlM Index.insert .empty

structure OrderTerm where
  field : String
  descending : Bool

/-- A property, alone or followed by a direction in any case. -/
def OrderTerm.ofText (text : String) : Outcome K OrderTerm :=
  match Text.words text with
  | [field] => .ok ⟨field, false⟩
  | [field, direction] =>
    if Text.asciiLower direction == "asc" then .ok ⟨field, false⟩
    else if Text.asciiLower direction == "desc" then .ok ⟨field, true⟩
    else .refuse (.orderTerm (Text.trim text))
  | _ => .refuse (.orderTerm (Text.trim text))

def orderTerms (text : String) : Outcome K (List OrderTerm) :=
  (Text.splitAt ',' text).mapM OrderTerm.ofText

/-- Numbers come first, then texts, truth values, arrays and objects, and last null and
what is missing. -/
def rank : Option Json.Value → Nat
  | some (.number _) => 0
  | some (.string _) => 1
  | some (.bool _) => 2
  | some (.array _) => 3
  | some (.object _) => 3
  | some .null => 4
  | none => 4

def isNull : Option Json.Value → Bool
  | some .null => true
  | none => true
  | _ => false

/-- Order of two property values: by value among numbers, texts and truth values, else by
rank. -/
def compareValues : Option Json.Value → Option Json.Value → Ordering
  | some (.number x), some (.number y) =>
    compare (Double.units x.toDouble) (Double.units y.toDouble)
  | some (.string x), some (.string y) => compare x y
  | some (.bool x), some (.bool y) => compare x y
  | a, b => compare (rank a) (rank b)

/-- Order of two values by a term. Null and missing values come last in both
directions. -/
def OrderTerm.compareValues (t : OrderTerm) (a b : Option Json.Value) : Ordering :=
  let o := Query.compareValues a b
  if t.descending && !(isNull a || isNull b) then o.swap else o

/-- Order of two features by some terms, the first one that tells them apart. -/
def compareFeatures (terms : List OrderTerm) (a b : Feature K) : Ordering :=
  match terms with
  | [] => .eq
  | t :: ts =>
    (t.compareValues (a.property? t.field) (b.property? t.field)).then (compareFeatures ts a b)

/-- The properties that the fields name. -/
def project (fields : Option (List String)) (properties : Json.Members) : Json.Members :=
  match fields with
  | none => properties
  | some names =>
    if names.contains "*" then properties
    else .ofList (names.filterMap fun n => (properties.get? n).map (n, ·))

def parseCondition (text : String) : Outcome K Where.Expr :=
  match Where.parse text with
  | .ok e => .ok e
  | .error f => .refuse (.condition f)

section

variable [Scalar K]

/-- The features that the index finds for a box, in their order. -/
def found (features : List (Feature K)) (index : Index K (Slot K)) (box : Bounds K) :
    List (Feature K) :=
  let a := features.toArray
  (Order.sort compare ((index.search box).map (·.index))).filterMap fun i => a[i]?

/-- The features that the spatial filter has to look at. A disjoint feature may be
anywhere, and a geometry without positions meets nothing. -/
def candidates (q : Query K) (features : List (Feature K)) (index : Option (Index K (Slot K))) :
    List (Feature K) :=
  if q.relation == some .disjoint then features
  else match q.geometry, index with
    | some g, some t =>
      match g.bounds? with
      | some box => found features t box
      | none => []
    | _, _ => features

/-- The spatial filter. -/
def admits (q : Query K) (f : Feature K) : Bool :=
  match q.geometry with
  | none => true
  | some g => f.geometry.relate g (q.relation.getD .intersects)

def record (q : Query K) (f : Feature K) : Record K where
  id := f.id
  geometry := if q.returnGeometry.getD true then some f.geometry else none
  properties := project q.fields f.properties

/-- Answers a query. Matches keep their order unless terms give another one. -/
def execute (q : Query K) (features : List (Feature K)) (index : Option (Index K (Slot K))) :
    Outcome K (List (Record K)) := do
  let condition ← q.condition.mapM parseCondition
  let terms ← q.orderBy.mapM orderTerms
  if q.geometry.isNone && q.relation.isSome then .refuse .relationWithoutGeometry
  let matching := (q.candidates features index).filter fun f =>
    q.admits f && condition.all fun e => e.holds f.properties
  let ordered := match terms with
    | none => matching
    | some ts => Order.sort (compareFeatures ts) matching
  let limited := match q.limit with
    | none => ordered
    | some n => ordered.take n
  return limited.map q.record

end

end Query
end Geospatial
