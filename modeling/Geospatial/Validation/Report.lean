import Geospatial.Validation
import Geospatial.Json.Value

/-! Findings of a validation as a document: errors and warnings apart, each in the order
found, and whether there are no errors. -/
namespace Geospatial.Validation

open Json (Value)

def Severity.name : Severity → String
  | .error => "error"
  | .warning => "warning"

/-- A finding about the whole geometry has no location. -/
def Finding.toJson (f : Finding) : Value :=
  .object (Json.Members.ofList ([
    ("severity", .string f.issue.severity.name),
    ("code", .string f.issue.code.name),
    ("message", .string f.issue.message)] ++
    (f.location?.map fun l => ("location", Value.string l)).toList))

def reportJson (found : List Finding) : Value :=
  let errors := ofSeverity .error found
  .object (Json.Members.ofList [
    ("valid", .bool errors.isEmpty),
    ("errors", .array (errors.map Finding.toJson)),
    ("warnings", .array ((ofSeverity .warning found).map Finding.toJson))])

end Geospatial.Validation
