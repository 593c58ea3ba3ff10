import Geospatial.Geometry
import Geospatial.Json.Value

/-! Features: a geometry with properties and, where it has one, an identifier. -/
namespace Geospatial

inductive FeatureId where
  | number (n : Int64)
  | text (s : String)
  deriving DecidableEq

namespace FeatureId

def toJson : FeatureId → Json.Value
  | .number n => .whole n.toInt
  | .text s => .string s

/-- Text identifiers stand for themselves, numbers for their digits. -/
def display : FeatureId → String
  | .number n => toString n.toInt
  | .text s => s

end FeatureId

structure Feature (K : Type) where
  id : Option FeatureId := none
  geometry : Geometry K
  properties : Json.Members := []

namespace Feature

variable {K : Type}

/-- Same identifier, geometry and properties. -/
def beq [Scalar K] (a b : Feature K) : Bool :=
  a.id == b.id && a.geometry == b.geometry && Json.Value.object a.properties == .object b.properties

instance [Scalar K] : BEq (Feature K) := ⟨beq⟩

def property? (f : Feature K) (key : String) : Option Json.Value := f.properties.get? key

end Feature
end Geospatial
