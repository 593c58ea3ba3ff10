import Geospatial.Fault
import Geospatial.Scalar.Double
import Geospatial.Json.Tree
import Geospatial.Toml

/-! Defaults that several operations share, with the range of each one. Settings are
read from JSON or changed one at a time; a count is checked when it is set, the other
values when the settings are checked as a whole. -/
namespace Geospatial

structure Settings (K : Type) where
  /-- Radius of the sphere for great-circle distances, in meters. -/
  earthRadius : K
  /-- Most entries of an index node. -/
  nodeCapacity : Nat
  /-- Fewest entries of an index node other than the root. -/
  leastFill : Nat
  /-- Vertices of a full circle in buffers. -/
  bufferSteps : Nat
  /-- Turn in degrees above which a vertex is a spike. -/
  spikeAngle : K
  /-- Most rounds of k-means. -/
  iterationCap : Nat
  /-- Height of an observer's eye over the terrain, in meters. -/
  observerHeight : K
  deriving BEq

namespace Settings

variable {K : Type} [Scalar K]

def default : Settings K where
  earthRadius := 6371000
  nodeCapacity := 9
  leastFill := 4
  bufferSteps := 32
  spikeAngle := 160
  iterationCap := 100
  observerHeight := 1.7

/-- The largest fewest count for a capacity: half of it, rounded up. Counts are
words of sixty-four bits. -/
def leastFillBound (capacity : Nat) : Nat := (capacity + 1) % UInt64.size / 2

def refuse (f : SettingFault K) : Outcome K α := .error (.setting f)

/-- The first setting out of range, in declared order. -/
def check (s : Settings K) : Outcome K Unit :=
  if !(Scalar.isFinite s.earthRadius && 0 < s.earthRadius) then refuse .earthRadius
  else if s.nodeCapacity < 2 then refuse .nodeCapacity
  else if s.leastFill < 1 || leastFillBound s.nodeCapacity < s.leastFill then
    refuse (.leastFill (leastFillBound s.nodeCapacity) s.leastFill)
  else if s.bufferSteps < 3 then refuse .bufferSteps
  else if !Scalar.within 0 180 s.spikeAngle then refuse (.spikeAngle s.spikeAngle)
  else if s.iterationCap = 0 then refuse .iterationCap
  else if !Scalar.isFinite s.observerHeight then refuse .observerHeight
  else .ok ()

def setNodeCapacity (s : Settings K) (most fewest : Nat) : Outcome K (Settings K) :=
  if most < 2 then refuse .nodeCapacity
  else .ok { s with nodeCapacity := most, leastFill := fewest }

def setBufferSteps (s : Settings K) (steps : Nat) : Outcome K (Settings K) :=
  if steps < 3 then refuse .bufferSteps else .ok { s with bufferSteps := steps }

def setIterationCap (s : Settings K) (rounds : Nat) : Outcome K (Settings K) :=
  if rounds = 0 then refuse .iterationCap else .ok { s with iterationCap := rounds }

/-- Names of the settings in documents, in declared order. -/
def names : List String :=
  ["earth_radius_m", "index_max_entries", "index_min_entries", "buffer_steps",
    "spike_angle_threshold", "kmeans_max_iterations", "observer_height"]

open Json (Tree Value) in
/-- Settings from a JSON document; what is missing keeps its default, and unknown names
are refused. -/
def read? (t : Tree) : Option (Settings Float) := do
  let d : Settings Float := default
  let [radius, most, fewest, steps, angle, rounds, height] ← Json.recordMembers? names .refuse t
    | none
  return {
    earthRadius := ← Tree.withDefault? d.earthRadius Tree.double? radius
    nodeCapacity := ← Tree.withDefault? d.nodeCapacity Tree.natural? most
    leastFill := ← Tree.withDefault? d.leastFill Tree.natural? fewest
    bufferSteps := ← Tree.withDefault? d.bufferSteps Tree.natural? steps
    spikeAngle := ← Tree.withDefault? d.spikeAngle Tree.double? angle
    iterationCap := ← Tree.withDefault? d.iterationCap Tree.natural? rounds
    observerHeight := ← Tree.withDefault? d.observerHeight Tree.double? height }

/-- Reads and checks settings written in JSON. -/
def ofJson (text : String) : Outcome Float (Settings Float) := do
  let some s := (Json.Tree.read? text).bind read? | throw (.document .notJson)
  s.check
  return s

open Json (Value) in
def toJson (s : Settings Float) : String :=
  (Value.object (Json.Members.ofList (names.zip
    [.double s.earthRadius, .whole s.nodeCapacity, .whole s.leastFill, .whole s.bufferSteps,
      .double s.spikeAngle, .whole s.iterationCap, .double s.observerHeight]))).text

/-- Changes the setting of a name to a number of a TOML document. -/
def assign? (s : Settings Float) (name : String) (value : Toml.Number) :
    Option (Settings Float) :=
  let count := match value with
    | .whole n => if 0 ≤ n then some n.toNat else none
    | .double _ => none
  let double := match value with
    | .whole n => Float.ofInt n
    | .double x => x
  match name with
  | "earth_radius_m" => some { s with earthRadius := double }
  | "index_max_entries" => count.map fun n => { s with nodeCapacity := n }
  | "index_min_entries" => count.map fun n => { s with leastFill := n }
  | "buffer_steps" => count.map fun n => { s with bufferSteps := n }
  | "spike_angle_threshold" => some { s with spikeAngle := double }
  | "kmeans_max_iterations" => count.map fun n => { s with iterationCap := n }
  | "observer_height" => some { s with observerHeight := double }
  | _ => none

/-- Reads and checks settings written in TOML. -/
def ofToml (text : String) : Outcome Float (Settings Float) := do
  let assignments := (Toml.read? text).bind fun es =>
    es.foldlM (fun s e => assign? s e.1 e.2) (default : Settings Float)
  let some s := assignments | refuse .unreadable
  s.check
  return s

end Settings
end Geospatial
