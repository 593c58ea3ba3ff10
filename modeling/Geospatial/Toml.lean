import Geospatial.Number.Notation

/-! Assignments in TOML: lines of the form `key = number` with comments, as far as a
document without tables, texts and lists goes. Every other document is refused. -/
namespace Geospatial.Toml

inductive Number where
  | whole (n : Int)
  | double (x : Float)

def isBareKeyChar (c : Char) : Bool := c.isAlphanum || c == '_' || c == '-'

def skipBlanks (cs : List Char) : List Char := cs.dropWhile fun c => c == ' ' || c == '\t'

/-- Digits of a base with single underscores between them, without the underscores. -/
def digitRun? (isDigit : Char → Bool) : List Char → Option (List Char)
  | [] => none
  | [c] => if isDigit c then some [c] else none
  | c :: '_' :: d :: rest =>
    if isDigit c && isDigit d then (digitRun? isDigit (d :: rest)).map (c :: ·) else none
  | c :: rest => if isDigit c then (digitRun? isDigit rest).map (c :: ·) else none

def digitOfBase? (base : Nat) (c : Char) : Option Nat :=
  let d :=
    if c.isDigit then c.toNat - 48
    else if 'a' ≤ c && c ≤ 'f' then c.toNat - 87
    else if 'A' ≤ c && c ≤ 'F' then c.toNat - 55
    else base
  if d < base then some d else none

/-- A natural number in a base other than ten. -/
def inBase? (base : Nat) (cs : List Char) : Option Nat := do
  let ds ← digitRun? (fun c => (digitOfBase? base c).isSome) cs
  return ds.foldl (fun n c => n * base + (digitOfBase? base c).getD 0) 0

/-- A number of sixty-four bits with sign. -/
def word? (n : Int) : Option Number :=
  if Int64.minValue.toInt ≤ n && n ≤ Int64.maxValue.toInt then some (.whole n) else none

/-- Digits without a leading zero, unless zero is the only one. -/
def decimalRun? (cs : List Char) : Option (List Char) := do
  let ds ← digitRun? Char.isDigit cs
  if ds.length != 1 && ds.head? == some '0' then none else some ds

/-- Fraction and exponent after the whole part. -/
def doubleParts? (whole : List Char) (rest : List Char) : Option Float := do
  let (fraction, rest) ← match rest with
    | '.' :: r =>
      let (ds, r) := r.span fun c => c.isDigit || c == '_'
      (digitRun? Char.isDigit ds).map (·, r)
    | r => some ([], r)
  let exponent ← match rest with
    | [] => some 0
    | mark :: r =>
      if mark != 'e' && mark != 'E' then none
      else
        let (negative, ds) := match r with
          | '-' :: ds => (true, ds)
          | '+' :: ds => (false, ds)
          | ds => (false, ds)
        let run ← digitRun? Char.isDigit ds
        let n : Int := Geospatial.Number.digitsValue run
        some (if negative then -n else n)
  return Geospatial.Number.Numeral.toDouble ⟨whole, fraction, exponent⟩

/-- A number without its sign: the words for special values, or digits with an optional
fraction and exponent. -/
def unsigned? (cs : List Char) : Option Number := do
  if cs == ['i', 'n', 'f'] then return .double (1.0 / 0.0)
  if cs == ['n', 'a', 'n'] then return .double (0.0 / 0.0)
  let (run, rest) := cs.span fun c => c.isDigit || c == '_'
  let whole ← decimalRun? run
  if rest.isEmpty then return .whole (Geospatial.Number.digitsValue whole)
  return .double (← doubleParts? whole rest)

/-- A number. One that is written with digits and exceeds all doubles is refused. -/
def number? (cs : List Char) : Option Number := do
  match cs with
  | '0' :: 'x' :: r => word? (← inBase? 16 r)
  | '0' :: 'o' :: r => word? (← inBase? 8 r)
  | '0' :: 'b' :: r => word? (← inBase? 2 r)
  | cs =>
    let (negative, body) := match cs with
      | '-' :: r => (true, r)
      | '+' :: r => (false, r)
      | r => (false, r)
    match ← unsigned? body with
    | .whole n => word? (if negative then -n else n)
    | .double x =>
      if x.isInf && !negative && body.head? != some 'i' then none
      else some (.double (if negative then -x else x))

/-- The characters of a key in single quotes, and the rest. -/
def literalKey? : List Char → Option (List Char × List Char)
  | [] => none
  | '\'' :: r => some ([], r)
  | c :: r => (literalKey? r).map fun (k, r) => (c :: k, r)

/-- The characters of a key in double quotes, and the rest. Escaped code points stand for
themselves. -/
def basicKey? : List Char → Option (List Char × List Char)
  | [] => none
  | '"' :: r => some ([], r)
  | '\\' :: 'u' :: a :: b :: c :: d :: r => do
    let n ← inBase? 16 [a, b, c, d]
    let (k, r) ← basicKey? r
    return (Char.ofNat n :: k, r)
  | '\\' :: 'U' :: a :: b :: c :: d :: e :: f :: g :: h :: r => do
    let n ← inBase? 16 [a, b, c, d, e, f, g, h]
    let (k, r) ← basicKey? r
    return (Char.ofNat n :: k, r)
  | '\\' :: _ => none
  | c :: r => (basicKey? r).map fun (k, r) => (c :: k, r)

def key? : List Char → Option (List Char × List Char)
  | '"' :: r => basicKey? r
  | '\'' :: r => literalKey? r
  | cs =>
    let (k, r) := cs.span isBareKeyChar
    if k.isEmpty then none else some (k, r)

/-- Nothing but blanks and a comment without control characters. -/
def isRemark (cs : List Char) : Bool :=
  match skipBlanks cs with
  | [] => true
  | '#' :: r => r.all fun c => c == '\t' || (32 ≤ c.toNat && c.toNat != 127)
  | _ => false

/-- The assignment of one line; none for a line without one. -/
def line? (cs : List Char) : Option (Option (String × Number)) := do
  if isRemark cs then return none
  let (k, r) ← key? (skipBlanks cs)
  let '=' :: r := skipBlanks r | none
  let (value, rest) := (skipBlanks r).span fun c => c != ' ' && c != '\t' && c != '#'
  let n ← number? value
  if isRemark rest then some (some (String.ofList k, n)) else none

/-- Lines end in a line feed with an optional carriage return before it. -/
def linesOf (cs : List Char) : List (List Char) :=
  match cs with
  | [] => [[]]
  | '\r' :: '\n' :: r => [] :: linesOf r
  | '\n' :: r => [] :: linesOf r
  | c :: r =>
    match linesOf r with
    | [] => [[c]]
    | l :: ls => (c :: l) :: ls

/-- The assignments of a document; no key may be assigned twice. -/
def read? (text : String) : Option (List (String × Number)) := do
  let cs := match text.toList with
    | '\uFEFF' :: r => r
    | cs => cs
  let entries := (← (linesOf cs).mapM line?).filterMap id
  let keys := entries.map (·.1)
  if keys.eraseDups.length == keys.length then some entries else none

end Geospatial.Toml
