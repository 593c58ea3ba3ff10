import Geospatial.Json.Value
import Geospatial.Number.Notation
import Geospatial.Where.Token

/-! Attribute conditions as trees, and their value over the properties of a feature, in three-valued
logic: a comparison with null or with a missing property is unknown, which is written `none`. In a
text pattern a percent sign stands for any run of characters, an underscore for one character,
anything else for itself; matching walks the text once and keeps, for every prefix of the pattern,
whether it matches what was read. -/
namespace Geospatial.Where

/-- A constant. -/
inductive Literal where
  | null
  | bool (b : Bool)
  | number (x : Float)
  | text (s : String)
  deriving BEq

/-- Either side of a comparison: a property or a constant. -/
inductive Operand where
  | field (name : String)
  | literal (l : Literal)
  deriving BEq

inductive Expr where
  | or (left right : Expr)
  | and (left right : Expr)
  | not (inner : Expr)
  | compare (left : Operand) (op : Comparison) (right : Operand)
  | isNull (operand : Operand) (negated : Bool)
  | among (operand : Operand) (values : List Literal) (negated : Bool)
  | like (operand : Operand) (pattern : String) (negated : Bool)
  | between (operand low high : Operand) (negated : Bool)
  deriving BEq

/-- Which prefixes of a pattern match the empty text, given that the one before does. -/
def emptyMatches (before : Bool) : List Char → List Bool
  | [] => []
  | p :: ps =>
    let here := before && p == '%'
    here :: emptyMatches here ps

/-- Which prefixes match after one more character. `before` is the new answer for the
prefix before; the last list holds the old answers, that prefix included. -/
def advanceFrom (c : Char) (before : Bool) : List Char → List Bool → List Bool
  | p :: ps, old :: here :: rest =>
    let now :=
      if p == '%' then before || here
      else if p == '_' then old
      else old && p == c
    now :: advanceFrom c now ps (here :: rest)
  | _, _ => []

def advance (pattern : List Char) (matched : List Bool) (c : Char) : List Bool :=
  false :: advanceFrom c false pattern matched

/-- The whole text matches the whole pattern. -/
def matchesPattern (text pattern : List Char) : Bool :=
  (text.foldl (advance pattern) (true :: emptyMatches true pattern)).getLast?.getD false

/-- True, false or unknown. -/
abbrev Truth := Option Bool

namespace Truth

def or : Truth → Truth → Truth
  | some true, _ => some true
  | _, some true => some true
  | some false, some false => some false
  | _, _ => none

def and : Truth → Truth → Truth
  | some false, _ => some false
  | _, some false => some false
  | some true, some true => some true
  | _, _ => none

def not (t : Truth) : Truth := t.map (!·)

def negateIf (negated : Bool) (t : Truth) : Truth := if negated then t.not else t

end Truth

/-- The constant that a property value stands for; arrays and objects stand for none. -/
def Literal.ofJson? : Json.Value → Option Literal
  | .null => some .null
  | .bool b => some (.bool b)
  | .number n => some (.number n.toDouble)
  | .string s => some (.text s)
  | .array _ => none
  | .object _ => none

/-- The constant that an operand stands for. A missing property is null. -/
def Operand.resolve (properties : Json.Members) : Operand → Option Literal
  | .literal l => some l
  | .field name =>
    match properties.get? name with
    | some v => Literal.ofJson? v
    | none => some .null

/-- The constant that an operand stands for, unless that is null or none. -/
def Operand.known? (properties : Json.Members) (o : Operand) : Option Literal :=
  match o.resolve properties with
  | none | some .null => none
  | some l => some l

def numberInText? (s : String) : Option Float := Number.double? (Text.trim s)

/-- Order of two constants. A text that holds a number compares with numbers; values of
other different kinds do not compare. -/
def compare? : Literal → Literal → Option Ordering
  | .number x, .number y => Scalar.compare? x y
  | .text x, .text y => some (compare x y)
  | .bool x, .bool y => some (compare x y)
  | .number x, .text s => (numberInText? s).bind fun y => Scalar.compare? x y
  | .text s, .number y => (numberInText? s).bind fun x => Scalar.compare? x y
  | _, _ => none

def Comparison.holds : Comparison → Ordering → Bool
  | .eq, o => o == .eq
  | .notEq, o => o != .eq
  | .lt, o => o == .lt
  | .ltEq, o => o != .gt
  | .gt, o => o == .gt
  | .gtEq, o => o != .lt

/-- Whether a value is equal to one of some constants. A null among them leaves the
answer open unless another one is equal. -/
def isAmong (v : Literal) : List Literal → Truth
  | [] => some false
  | .null :: ls => (isAmong v ls).filter id
  | l :: ls => if compare? v l == some .eq then some true else isAmong v ls

namespace Expr

/-- The value of a condition. -/
def evaluate (properties : Json.Members) : Expr → Truth
  | .or a b => (a.evaluate properties).or (b.evaluate properties)
  | .and a b => (a.evaluate properties).and (b.evaluate properties)
  | .not e => (e.evaluate properties).not
  | .compare left op right => do
    let l ← left.known? properties
    let r ← right.known? properties
    return op.holds (← compare? l r)
  | .isNull o negated => some ((o.resolve properties == some .null) != negated)
  | .among o values negated => do
    let v ← o.known? properties
    (isAmong v values).negateIf negated
  | .like o pattern negated =>
    match o.resolve properties with
    | some (.text s) => some (matchesPattern s.toList pattern.toList != negated)
    | some (.number x) => some (matchesPattern (Number.plain x).toList pattern.toList != negated)
    | _ => none
  | .between o low high negated => do
    let v ← o.known? properties
    let lo ← low.known? properties
    let hi ← high.known? properties
    let above ← compare? v lo
    let below ← compare? v hi
    Truth.negateIf negated (some (above != .lt && below != .gt))

/-- The condition is definitely true. -/
def holds (e : Expr) (properties : Json.Members) : Bool := e.evaluate properties == some true

end Expr
end Geospatial.Where
