import Geospatial.Scalar.Double

/-! Doubles read from and written as decimal digits. A numeral in running text has an optional sign,
digits with an optional point, and an optional exponent, or is one of the words for infinity and for
not-a-number; reading rounds to the nearest double. The fewest digits that identify a double come
from the interval of reals that round to `significand * 2 ^ exponent`; the first decimal grid,
coarsest first, with a point in that interval supplies the digits, and of two such points the nearer
one wins. All arithmetic is on naturals. A `Layout` holds the decisions of one output format;
`render` applies them to the digits. -/
namespace Geospatial.Number

/-- A decimal numeral as written, without its sign. -/
structure Numeral where
  whole : List Char
  fraction : List Char
  exponent : Int
  deriving DecidableEq

def digitValue (c : Char) : Nat := c.toNat - '0'.toNat

/-- The natural number that a run of digits writes. -/
def digitsValue (cs : List Char) : Nat := cs.foldl (fun n c => 10 * n + digitValue c) 0

def spanDigits (cs : List Char) : List Char × List Char := cs.span Char.isDigit

/-- The exponent after its mark: an optional sign and at least one digit, to the end. -/
def exponentOf? (cs : List Char) : Option Int :=
  let read (ds : List Char) : Option Nat :=
    if ds.isEmpty || !ds.all Char.isDigit then none else some (digitsValue ds)
  match cs with
  | '+' :: ds => (read ds).map Int.ofNat
  | '-' :: ds => (read ds).map fun n => -(n : Int)
  | ds => (read ds).map Int.ofNat

/-- Reads a whole text as an unsigned numeral; a digit must stand on one side of the
point at least. -/
def Numeral.ofChars? (cs : List Char) : Option Numeral :=
  let (whole, rest) := spanDigits cs
  let (fraction, rest) := match rest with
    | '.' :: rest => spanDigits rest
    | rest => ([], rest)
  if whole.isEmpty && fraction.isEmpty then none
  else match rest with
    | [] => some ⟨whole, fraction, 0⟩
    | 'e' :: rest => (exponentOf? rest).map (⟨whole, fraction, ·⟩)
    | 'E' :: rest => (exponentOf? rest).map (⟨whole, fraction, ·⟩)
    | _ => none

/-- Nearest double. An exponent far beyond the range decides the answer alone. -/
def Numeral.toDouble (n : Numeral) : Float :=
  let digits := (n.whole ++ n.fraction).dropWhile (· == '0')
  let e := n.exponent - n.fraction.length
  let top := e + digits.length
  if digits.isEmpty || top < -400 then 0.0
  else if 400 < top then 1.0 / 0.0
  else
    let m := digitsValue digits
    if e < 0 then Float.ofScientific m true (-e).toNat else Float.ofScientific m false e.toNat

/-- A signed numeral, or a word for an infinite value or for no number, in any case. -/
def doubleOfChars? (cs : List Char) : Option Float :=
  let (negative, body) := match cs with
    | '-' :: r => (true, r)
    | '+' :: r => (false, r)
    | r => (false, r)
  let word := String.ofList (body.map Char.toLower)
  let magnitude :=
    if word == "inf" || word == "infinity" then some (1.0 / 0.0)
    else if word == "nan" then some (0.0 / 0.0)
    else (Numeral.ofChars? body).map Numeral.toDouble
  magnitude.map fun x => if negative then -x else x

def double? (s : String) : Option Float := doubleOfChars? s.toList

/-- A natural number below `bound`, with an optional plus sign. -/
def natural? (bound : Nat) (s : String) : Option Nat :=
  let ds := match s.toList with
    | '+' :: r => r
    | r => r
  if ds.isEmpty || !ds.all Char.isDigit then none
  else
    let n := digitsValue ds
    if n < bound then some n else none

/-- Which of two digits wins when a value is halfway between them. -/
inductive Tie where
  | upper | even
  deriving DecidableEq

/-- The decimal `digits * 10 ^ exponent`. -/
structure Decimal where
  digits : Nat
  exponent : Int
  deriving DecidableEq

namespace Decimal

/-- The reals that round to a double, over the common denominator `den`. The ends
belong to it when `closed`. -/
structure Interval where
  low : Nat
  value : Nat
  high : Nat
  den : Nat
  closed : Bool

/-- Below a power of two the gap to the next double is half as wide. -/
def roundingInterval (significand : Nat) (exponent : Int) : Interval :=
  let narrow := significand == Double.leadingBit && exponent > -1074
  let e := exponent - 2
  let scale := 1 <<< e.toNat
  { low := (4 * significand - if narrow then 1 else 2) * scale
    value := 4 * significand * scale
    high := (4 * significand + 2) * scale
    den := 1 <<< (-e).toNat
    closed := significand % 2 == 0 }

/-- The interval measured in units of `10 ^ s`. -/
def Interval.inUnits (i : Interval) (s : Int) : Interval :=
  let up := Nat.pow 10 (-s).toNat
  { i with
    low := i.low * up
    value := i.value * up
    high := i.high * up
    den := i.den * Nat.pow 10 s.toNat }

def Interval.contains (i : Interval) (n : Nat) : Bool :=
  let x := n * i.den
  if i.closed then i.low ≤ x && x ≤ i.high else i.low < x && x < i.high

/-- The lower of two neighboring grid points is to be taken: the value is nearer to it, or
halfway, and the tie goes to it. -/
def Interval.takesLower (i : Interval) (tie : Tie) (below : Nat) : Bool :=
  let middle := (2 * below + 1) * i.den
  2 * i.value < middle || (2 * i.value == middle && tie == .even && below % 2 == 0)

/-- The grid point inside the interval that is nearest to the value. -/
def Interval.nearest? (i : Interval) (tie : Tie) : Option Nat :=
  let below := i.value / i.den
  match i.contains below, i.contains (below + 1) with
  | false, false => none
  | true, false => some below
  | false, true => some (below + 1)
  | true, true => some (if i.takesLower tie below then below else below + 1)

/-- Removes trailing zeros, at most `fuel` of them. -/
def strip (d : Decimal) : Nat → Decimal
  | 0 => d
  | fuel + 1 =>
    if d.digits != 0 && d.digits % 10 == 0 then strip ⟨d.digits / 10, d.exponent + 1⟩ fuel else d

/-- The least power of ten above the value, searched near the binary logarithm. -/
def magnitude (i : Interval) (significand : Nat) (exponent : Int) : Int :=
  let guess := (((significand.log2 : Int) + exponent) * 30103) / 100000
  let above (k : Int) : Bool := let u := i.inUnits k; u.value < u.den
  if above (guess - 1) then guess - 1
  else if above guess then guess
  else if above (guess + 1) then guess + 1
  else guess + 2

/-- The fewest digits that read back to `significand * 2 ^ exponent`, for a positive
significand. Seventeen digits always suffice. -/
def shortest (tie : Tie) (significand : Nat) (exponent : Int) : Decimal :=
  let i := roundingInterval significand exponent
  let k := magnitude i significand exponent
  let found := (List.range 17).findSome? fun (n : Nat) =>
    let s := k - (n + 1)
    ((i.inUnits s).nearest? tie).map fun d => strip ⟨d, s⟩ 20
  found.getD (strip ⟨i.value / i.den, 0⟩ 400)

end Decimal

/-- The decisions of one way to write doubles. -/
structure Layout where
  /-- Scientific exponents below this one are written with an exponent mark. -/
  leastPositional : Int
  /-- Scientific exponents above this one are written with an exponent mark. -/
  greatestPositional : Int
  /-- A whole number ends in a point and a zero. -/
  keepPoint : Bool
  tie : Tie
  notANumber : String
  infinite : String
  negativeInfinite : String

/-- Digits and a point only, at any size. -/
def Layout.plain : Layout where
  leastPositional := -400
  greatestPositional := 400
  keepPoint := false
  tie := .upper
  notANumber := "NaN"
  infinite := "inf"
  negativeInfinite := "-inf"

def zeros (n : Nat) : String := String.ofList (List.replicate n '0')

/-- Digits with the point placed by the exponent. -/
def positional (d : Decimal) (keepPoint : Bool) : String :=
  let ds := toString d.digits
  let n := ds.length
  if 0 ≤ d.exponent then
    ds ++ zeros d.exponent.toNat ++ if keepPoint then ".0" else ""
  else
    let places := (-d.exponent).toNat
    if places < n then
      String.ofList (ds.toList.take (n - places)) ++ "." ++ String.ofList (ds.toList.drop (n - places))
    else
      "0." ++ zeros (places - n) ++ ds

/-- One digit, the others after a point, and a signed exponent. -/
def scientific (d : Decimal) : String :=
  let ds := (toString d.digits).toList
  let e := d.exponent + (ds.length : Int) - 1
  let rest := ds.drop 1
  String.ofList (ds.take 1) ++ (if rest.isEmpty then "" else "." ++ String.ofList rest) ++ "e" ++
    (if e < 0 then "-" else "+") ++ toString e.natAbs

def renderMagnitude (l : Layout) (d : Decimal) : String :=
  let e := d.exponent + ((toString d.digits).length : Int) - 1
  if d.digits == 0 then (if l.keepPoint then "0.0" else "0")
  else if l.leastPositional ≤ e && e ≤ l.greatestPositional then positional d l.keepPoint
  else scientific d

/-- Text of a double with the fewest digits that read back. -/
def render (l : Layout) (x : Float) : String :=
  if x.isNaN then l.notANumber
  else if x.isInf then if x < 0.0 then l.negativeInfinite else l.infinite
  else
    let p := Double.parts x
    let d := if p.significand == 0 then ⟨0, 0⟩ else Decimal.shortest l.tie p.significand p.exponent
    (if p.negative then "-" else "") ++ renderMagnitude l d

/-- A double in running text. -/
def plain (x : Float) : String := render .plain x

end Geospatial.Number
