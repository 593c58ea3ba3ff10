import Geospatial.Json.Value
import Geospatial.Number.Notation

/-! JSON texts as written. `Tree.read?` decides the grammar only: numbers and escapes stay
uninterpreted and nesting is unlimited. `Tree.value?` gives a tree its value, or none where a number
leaves the range of doubles, a surrogate stands alone, or nesting exceeds the given depth. A reader
that skips a member asks for its grammar alone. Records are read from objects with members of known
names, or from arrays with the members' values in declared order. A missing member is left to the
caller; a member given twice is refused, and one that is unknown is either refused or skipped
unread. -/
namespace Geospatial.Json

/-- A character of a string: written as itself, or as a sixteen-bit unit. -/
inductive StringPart where
  | char (c : Char)
  | unit (n : Nat)

/-- A number as written. -/
structure NumberText where
  negative : Bool
  whole : List Char
  fraction : Option (List Char)
  /-- Sign and digits. -/
  exponent : Option (Bool × List Char)

inductive Tree where
  | null
  | bool (b : Bool)
  | number (n : NumberText)
  | string (parts : List StringPart)
  | array (items : List Tree)
  | object (members : List (List StringPart × Tree))

namespace Tree

def isSpace (c : Char) : Bool := c == ' ' || c == '\n' || c == '\t' || c == '\r'

def skipSpace (cs : List Char) : List Char := cs.dropWhile isSpace

def hexValue? (c : Char) : Option Nat :=
  if c.isDigit then some (c.toNat - 48)
  else if 'a' ≤ c && c ≤ 'f' then some (c.toNat - 87)
  else if 'A' ≤ c && c ≤ 'F' then some (c.toNat - 55)
  else none

def simpleEscape? (c : Char) : Option Char :=
  match c with
  | '"' => some '"'
  | '\\' => some '\\'
  | '/' => some '/'
  | 'b' => some (Char.ofNat 8)
  | 'f' => some (Char.ofNat 12)
  | 'n' => some '\n'
  | 'r' => some '\r'
  | 't' => some '\t'
  | _ => none

/-- The parts of a string after its opening quote, and what follows the closing one. -/
def readString? : List Char → Option (List StringPart × List Char)
  | [] => none
  | '"' :: r => some ([], r)
  | '\\' :: 'u' :: a :: b :: c :: d :: r => do
    let n := (← hexValue? a) * 4096 + (← hexValue? b) * 256 + (← hexValue? c) * 16 + (← hexValue? d)
    let (ps, rest) ← readString? r
    some (.unit n :: ps, rest)
  | '\\' :: e :: r => do
    let c ← simpleEscape? e
    let (ps, rest) ← readString? r
    some (.char c :: ps, rest)
  | c :: r => do
    if c.toNat < 32 || c == '\\' then none
    let (ps, rest) ← readString? r
    some (.char c :: ps, rest)

def readExponent? (cs : List Char) : Option (Option (Bool × List Char) × List Char) :=
  let signed (negative : Bool) (r : List Char) :=
    let (ds, rest) := Number.spanDigits r
    if ds.isEmpty then none else some (some (negative, ds), rest)
  let afterMark (r : List Char) := match r with
    | '+' :: r => signed false r
    | '-' :: r => signed true r
    | r => signed false r
  match cs with
  | 'e' :: r => afterMark r
  | 'E' :: r => afterMark r
  | r => some (none, r)

/-- A number: no leading zeros, digits on both sides of a point. -/
def readNumber? (cs : List Char) : Option (NumberText × List Char) := do
  let (negative, r) := match cs with
    | '-' :: r => (true, r)
    | r => (false, r)
  let (whole, r) := Number.spanDigits r
  if whole.isEmpty || (whole.length != 1 && whole.head? == some '0') then none
  let (fraction, r) ← match r with
    | '.' :: r =>
      let (ds, rest) := Number.spanDigits r
      if ds.isEmpty then none else some (some ds, rest)
    | r => some (none, r)
  let (exponent, r) ← readExponent? r
  some (⟨negative, whole, fraction, exponent⟩, r)

mutual

/-- One value at the start of a text, and the rest. -/
def readValue? (cs : List Char) : Nat → Option (Tree × List Char)
  | 0 => none
  | fuel + 1 =>
    match skipSpace cs with
    | '[' :: r =>
      match skipSpace r with
      | ']' :: r => some (.array [], r)
      | r => (readItems? r fuel).map fun (ts, r) => (.array ts, r)
    | '\x7b' :: r =>
      match skipSpace r with
      | '\x7d' :: r => some (.object [], r)
      | r => (readMembers? r fuel).map fun (ms, r) => (.object ms, r)
    | '"' :: r => (readString? r).map fun (ps, r) => (.string ps, r)
    | 't' :: 'r' :: 'u' :: 'e' :: r => some (.bool true, r)
    | 'f' :: 'a' :: 'l' :: 's' :: 'e' :: r => some (.bool false, r)
    | 'n' :: 'u' :: 'l' :: 'l' :: r => some (.null, r)
    | r => (readNumber? r).map fun (n, r) => (.number n, r)

/-- The items of an array that is not empty, up to its closing bracket. -/
def readItems? (cs : List Char) : Nat → Option (List Tree × List Char)
  | 0 => none
  | fuel + 1 => do
    let (t, r) ← readValue? cs fuel
    match skipSpace r with
    | ',' :: r =>
      let (ts, r) ← readItems? r fuel
      some (t :: ts, r)
    | ']' :: r => some ([t], r)
    | _ => none

/-- The members of an object that is not empty, up to its closing brace. -/
def readMembers? (cs : List Char) : Nat → Option (List (List StringPart × Tree) × List Char)
  | 0 => none
  | fuel + 1 =>
    match skipSpace cs with
    | '"' :: r => do
      let (key, r) ← readString? r
      match skipSpace r with
      | ':' :: r =>
        let (t, r) ← readValue? r fuel
        match skipSpace r with
        | ',' :: r =>
          let (ms, r) ← readMembers? r fuel
          some ((key, t) :: ms, r)
        | '\x7d' :: r => some ([(key, t)], r)
        | _ => none
      | _ => none
    | _ => none

end

/-- Reads a whole text as one value. -/
def read? (s : String) : Option Tree := do
  let cs := s.toList
  let (t, r) ← readValue? cs (2 * cs.length + 2)
  if (skipSpace r).isEmpty then some t else none

end Tree

/-- The text of a string; surrogate units must form pairs. -/
def stringOf? : List StringPart → Option (List Char)
  | [] => some []
  | .char c :: r => (stringOf? r).map (c :: ·)
  | .unit hi :: .unit lo :: r =>
    if 0xD800 ≤ hi && hi < 0xDC00 then
      if 0xDC00 ≤ lo && lo < 0xE000 then
        (stringOf? r).map (Char.ofNat (0x10000 + (hi - 0xD800) * 0x400 + (lo - 0xDC00)) :: ·)
      else none
    else if 0xDC00 ≤ hi && hi < 0xE000 then none
    else (stringOf? (.unit lo :: r)).map (Char.ofNat hi :: ·)
  | .unit n :: r =>
    if 0xD800 ≤ n && n < 0xE000 then none else (stringOf? r).map (Char.ofNat n :: ·)

/-- Digits read into a sixty-four bit significand, as far as it holds them, and the
number of digits left over. -/
def takeSignificand (start : Nat) : List Char → Nat × Nat
  | [] => (start, 0)
  | c :: cs =>
    let next := 10 * start + Number.digitValue c
    if next < UInt64.size then takeSignificand next cs else (start, cs.length + 1)

/-- Multiplies a significand by a power of ten in double arithmetic, one operation where
the power is a double. None where the result leaves the range. -/
def scaledByTen? (x : Float) (exponent : Int) : Option Float :=
  if exponent ≥ 0 then
    if exponent > 308 then if x == 0.0 then some x else none
    else
      let y := x * Float.ofScientific 1 false exponent.toNat
      if y.isInf then none else some y
  else
    let n := exponent.natAbs
    let blocks := Nat.min ((n - 1) / 308) 3
    let y := (List.replicate blocks ()).foldl (fun y _ => y / Float.ofScientific 1 false 308) x
    let rest := n - 308 * blocks
    if rest > 308 then some 0.0 else some (y / Float.ofScientific 1 false rest)

/-- The double that a number with a point, an exponent or too many digits denotes. -/
def NumberText.double? (n : NumberText) : Option Float := do
  let (s, excess) := takeSignificand 0 n.whole
  let fraction := n.fraction.getD []
  let (s, left) := takeSignificand s fraction
  let shift : Int := excess - (fraction.length - left : Nat)
  let magnitude ← match n.exponent with
    | none => scaledByTen? (Float.ofNat s) shift
    | some (negative, ds) =>
      let e := Number.digitsValue ds
      if Int32.maxValue.toInt < e then if s == 0 || negative then some 0.0 else none
      else scaledByTen? (Float.ofNat s) (shift + if negative then -(e : Int) else e)
  some (if n.negative then -magnitude else magnitude)

/-- Whole numbers of sixty-four bits stay whole, except minus zero. -/
def NumberText.number? (n : NumberText) : Option Number :=
  let v := Number.digitsValue n.whole
  let isWhole := n.fraction.isNone && n.exponent.isNone
  if isWhole && !n.negative && v < UInt64.size then some (.whole v)
  else if isWhole && n.negative && 0 < v && v ≤ Int64.minValue.toInt.natAbs then
    some (.whole (-(v : Int)))
  else n.double?.map .double

mutual

/-- The value of a tree of at most `depth` nested containers. -/
def Tree.value? (depth : Nat) : Tree → Option Value
  | .null => some .null
  | .bool b => some (.bool b)
  | .number n => n.number?.map .number
  | .string ps => (stringOf? ps).map fun cs => .string (String.ofList cs)
  | .array items => if depth = 0 then none else (Tree.values? (depth - 1) items).map .array
  | .object ms =>
    if depth = 0 then none
    else (Tree.memberValues? (depth - 1) ms).map fun es => .object (Members.ofList es)

def Tree.values? (depth : Nat) : List Tree → Option (List Value)
  | [] => some []
  | t :: ts => do
    let v ← t.value? depth
    let vs ← Tree.values? depth ts
    some (v :: vs)

def Tree.memberValues? (depth : Nat) : List (List StringPart × Tree) → Option (List (String × Value))
  | [] => some []
  | (k, t) :: ms => do
    let key ← stringOf? k
    let v ← t.value? depth
    let vs ← Tree.memberValues? depth ms
    some ((String.ofList key, v) :: vs)

end

/-- Containers may be nested this deep. -/
def depthLimit : Nat := 127

def Value.read? (s : String) : Option Value := do (← Tree.read? s).value? depthLimit

/-- What a record's declaration says about names that it does not list. -/
inductive Unknown where
  | skip
  | refuse
  deriving DecidableEq

/-- Trees of the members in declared order. -/
def recordMembers? (names : List String) (unknown : Unknown) : Tree → Option (List (Option Tree))
  | .array items =>
    if names.length < items.length then none
    else some (items.map some ++ List.replicate (names.length - items.length) none)
  | .object members => do
    let keyed ← members.mapM fun (k, t) => (stringOf? k).map fun cs => (String.ofList cs, t)
    if unknown = .refuse && keyed.any (fun e => !names.contains e.1) then none
    names.mapM fun n =>
      match keyed.filter (fun e => e.1 == n) with
      | [] => some none
      | [e] => some (some e.2)
      | _ => none
  | _ => none

namespace Tree

def double? : Tree → Option Float
  | .number n => n.number?.map Number.toDouble
  | _ => none

/-- A natural number of sixty-four bits, written without point or exponent. -/
def natural? : Tree → Option Nat
  | .number n =>
    match n.number? with
    | some (.whole v) => if 0 ≤ v then some v.toNat else none
    | _ => none
  | _ => none

def bool? : Tree → Option Bool
  | .bool b => some b
  | _ => none

def text? : Tree → Option String
  | .string ps => (stringOf? ps).map String.ofList
  | _ => none

/-- The name of an alternative, alone or as the one member of an object that holds null. -/
def name? : Tree → Option String
  | .string ps => (stringOf? ps).map String.ofList
  | .object [(k, .null)] => (stringOf? k).map String.ofList
  | _ => none

def texts? : Tree → Option (List String)
  | .array items => items.mapM text?
  | _ => none

/-- A member that may be null or missing. -/
def optional? (read : Tree → Option α) : Option Tree → Option (Option α)
  | none | some .null => some none
  | some t => (read t).map some

/-- A member that has a default. -/
def withDefault? (default : α) (read : Tree → Option α) : Option Tree → Option α
  | none => some default
  | some t => read t

end Tree
end Geospatial.Json
