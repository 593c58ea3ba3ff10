import Geospatial.Number.Notation

/-! JSON values. Whole numbers and doubles are different values. `Members.ofList` puts the
members of an object in ascending order of their names, with no name twice; they are
written in the order in which an object has them. -/
namespace Geospatial.Json

inductive Number where
  | whole (n : Int)
  | double (x : Float)

/-- Numeric value; whole numbers are rounded to the nearest double. -/
def Number.toDouble : Number → Float
  | .whole n => Float.ofInt n
  | .double x => x

def Number.beq : Number → Number → Bool
  | .whole a, .whole b => a == b
  | .double a, .double b => a == b
  | _, _ => false

instance : BEq Number := ⟨Number.beq⟩

inductive Value where
  | null
  | bool (b : Bool)
  | number (n : Number)
  | string (s : String)
  | array (items : List Value)
  | object (members : List (String × Value))

mutual

def Value.beq : Value → Value → Bool
  | .null, .null => true
  | .bool a, .bool b => a == b
  | .number a, .number b => a == b
  | .string a, .string b => a == b
  | .array a, .array b => beqItems a b
  | .object a, .object b => beqMembers a b
  | _, _ => false

def Value.beqItems : List Value → List Value → Bool
  | [], [] => true
  | x :: xs, y :: ys => x.beq y && beqItems xs ys
  | _, _ => false

def Value.beqMembers : List (String × Value) → List (String × Value) → Bool
  | [], [] => true
  | (k, x) :: xs, (l, y) :: ys => k == l && x.beq y && beqMembers xs ys
  | _, _ => false

end

instance : BEq Value := ⟨Value.beq⟩

/-- The members of an object. -/
abbrev Members := List (String × Value)

namespace Members

def get? (m : Members) (key : String) : Option Value :=
  (m.find? fun e => e.1 == key).map (·.2)

/-- Sets a member, in its place by name. -/
def insert (key : String) (v : Value) : Members → Members
  | [] => [(key, v)]
  | (k, w) :: rest =>
    if key < k then (key, v) :: (k, w) :: rest
    else if key == k then (key, v) :: rest
    else (k, w) :: insert key v rest

/-- Members in order of name; of several with one name the last stays. -/
def ofList (entries : List (String × Value)) : Members :=
  entries.foldl (fun m e => insert e.1 e.2 m) []

end Members

/-- Whole numbers end in a zero after the point; exponents stand from ten to the
sixteenth up and below ten to the minus fifth; the last digit of a tie is even. -/
def numberLayout : Number.Layout where
  leastPositional := -5
  greatestPositional := 15
  keepPoint := true
  tie := .even
  notANumber := "null"
  infinite := "null"
  negativeInfinite := "null"

def Number.text : Number → String
  | .whole n => toString n
  | .double x => Geospatial.Number.render numberLayout x

def hexDigit (n : Nat) : Char := (Nat.toDigits 16 n).getD 0 '0'

/-- A character of a quoted text: quotes, backslashes and control characters are escaped. -/
def escapedChar (c : Char) : List Char :=
  if c == '"' then ['\\', '"']
  else if c == '\\' then ['\\', '\\']
  else if c == '\n' then ['\\', 'n']
  else if c == '\r' then ['\\', 'r']
  else if c == '\t' then ['\\', 't']
  else if c.toNat == 8 then ['\\', 'b']
  else if c.toNat == 12 then ['\\', 'f']
  else if c.toNat < 32 then ['\\', 'u', '0', '0', hexDigit (c.toNat / 16), hexDigit (c.toNat % 16)]
  else [c]

def quoted (s : String) : String :=
  String.ofList ('"' :: s.toList.flatMap escapedChar ++ ['"'])

/-- Texts with commas between them, inside brackets. -/
def enclosed (opening closing : String) (texts : List String) : String :=
  opening ++ String.intercalate "," texts ++ closing

mutual

/-- Text without blanks. -/
def Value.text : Value → String
  | .null => "null"
  | .bool b => if b then "true" else "false"
  | .number n => n.text
  | .string s => quoted s
  | .array items => enclosed "[" "]" (itemTexts items)
  | .object members => enclosed "\x7b" "\x7d" (memberTexts members)

def Value.itemTexts : List Value → List String
  | [] => []
  | v :: vs => v.text :: itemTexts vs

def Value.memberTexts : List (String × Value) → List String
  | [] => []
  | (k, v) :: rest => (quoted k ++ ":" ++ v.text) :: memberTexts rest

end

def Value.double (x : Float) : Value := .number (.double x)

def Value.whole (n : Int) : Value := .number (.whole n)

end Geospatial.Json
