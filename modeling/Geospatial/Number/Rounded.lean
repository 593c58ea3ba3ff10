import Geospatial.Number.Notation

/-! Doubles as text of limited precision. The exact value is rounded, half to even, to a
number of significant digits and of decimal places; zeros at the end are left out. -/
namespace Geospatial.Number

structure Precision where
  /-- Most significant digits. -/
  significant : Nat
  /-- Most digits after the point. -/
  places : Nat

/-- The quotient rounded half to even. -/
def roundQuotient (num den : Nat) : Nat :=
  let q := num / den
  let r := num % den
  if 2 * r < den then q else if den < 2 * r then q + 1 else q + q % 2

/-- The magnitude of a double in units of `10 ^ -s`, rounded half to even. -/
def roundedUnits (p : Double.Parts) (s : Int) : Nat :=
  roundQuotient ((p.significand <<< p.exponent.toNat) * Nat.pow 10 s.toNat)
    (Nat.pow 10 (-s).toNat <<< (-p.exponent).toNat)

/-- A decimal text without the zeros that end its fraction. -/
def trimFraction (whole fraction : List Char) : String :=
  let kept := (fraction.reverse.dropWhile (· == '0')).reverse
  String.ofList (if kept.isEmpty then whole else whole ++ '.' :: kept)

/-- Digits with at least `n` of them. -/
def padded (n : Nat) (digits : String) : List Char :=
  List.replicate (n - digits.length) '0' ++ digits.toList

/-- The magnitude of a nonzero double. From `10 ^ significant` on, an exponent is
written. -/
def roundedMagnitude (precision : Precision) (p : Double.Parts) : String :=
  let digits : Int := precision.significant
  let interval := Decimal.roundingInterval p.significand p.exponent
  let start := Decimal.magnitude interval p.significand p.exponent - 1
  let first := roundedUnits p (digits - 1 - start)
  let carried := first == Nat.pow 10 precision.significant
  let mantissa := if carried then first / 10 else first
  let e := if carried then start + 1 else start
  if digits ≤ e then
    let ds := (toString mantissa).toList
    trimFraction (ds.take 1) (ds.drop 1) ++ "e" ++ toString e
  else
    let d := (min (digits - 1 - e) precision.places).toNat
    let n := roundedUnits p d
    let one := Nat.pow 10 d
    trimFraction (toString (n / one)).toList (padded d (toString (n % one)))

/-- Text of a double of limited precision. Zero has no sign. -/
def rounded (precision : Precision) (x : Float) : String :=
  if x.isNaN then "nan"
  else if x.isInf then if x < 0.0 then "-inf" else "inf"
  else
    let p := Double.parts x
    let text := if p.significand == 0 then "0" else roundedMagnitude precision p
    if p.negative && text != "0" then "-" ++ text else text

end Geospatial.Number
