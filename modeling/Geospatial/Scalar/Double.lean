import Geospatial.Scalar

/-! Doubles as scalars. The elementary functions are the platform's; the hypotenuse
and the remainder, which core does not offer, are defined here. The hypotenuse is a
square root followed by one correction step, with operands scaled where their squares
would leave the range. The remainder is computed on the exact integer significands. -/
namespace Geospatial.Double

/-- A finite double as sign, significand and power of two. -/
structure Parts where
  negative : Bool
  significand : Nat
  exponent : Int

/-- The leading bit of the significands of normal doubles. -/
def leadingBit : Nat := 0x10000000000000

/-- The exact value of a finite double. -/
def parts (x : Float) : Parts :=
  let bits := x.toBits.toNat
  let field := bits / leadingBit % 2048
  let low := bits % leadingBit
  { negative := bits / (2048 * leadingBit) == 1
    significand := if field == 0 then low else low + leadingBit
    exponent := ((if field == 0 then 1 else field : Nat) : Int) - 1075 }

/-- The exact value of a finite double in units of the least positive one. -/
def units (x : Float) : Int :=
  let p := parts x
  let n : Int := (p.significand <<< (p.exponent + 1074).toNat : Nat)
  if p.negative then -n else n

/-- Two to the power `e`, for an exponent of normal doubles. -/
def powerOfTwo (e : Int) : Float := Float.ofBits (UInt64.ofNat ((e + 1023).toNat * leadingBit))

/-- The double `n * 2 ^ e`, exact when the value has at most 53 significant bits. -/
def scaled (n : Nat) (e : Int) : Float := (Float.ofNat n).scaleB e

/-- Significand of `a` modulo that of `b`, both aligned to the smaller exponent. -/
def remainderSignificand (a b : Parts) : Nat × Int :=
  if a.exponent < b.exponent then
    let shift := (b.exponent - a.exponent).toNat
    (a.significand % (b.significand <<< shift), a.exponent)
  else
    let shift := (a.exponent - b.exponent).toNat
    ((a.significand <<< shift) % b.significand, b.exponent)

/-- Remainder of the truncated quotient, exact, with the sign of the dividend. -/
def remainder (x y : Float) : Float :=
  if x.isNaN || y.isNaN || x.isInf || y == 0.0 then 0.0 / 0.0
  else if y.isInf || x == 0.0 then x
  else
    let (m, e) := remainderSignificand (parts x) (parts y)
    let r := scaled m e
    if (parts x).negative then -r else r

/-- One Newton-like correction of `sqrt (ax² + ay²)` for `ay ≤ ax`. -/
def hypotCore (ax ay : Float) : Float :=
  let h := Float.sqrt (ax * ax + ay * ay)
  let correction :=
    if h <= 2.0 * ay then
      let delta := h - ay
      ax * (2.0 * delta - ax) + (delta - 2.0 * (ax - ay)) * delta
    else
      let delta := h - ax
      2.0 * delta * (ax - 2.0 * ay) + ((4.0 * delta - ay) * ay + delta * delta)
  h - correction / (2.0 * h)

/-- Length of the hypotenuse. An infinite leg wins over one that is not a number. -/
def hypot (x y : Float) : Float :=
  if x.isInf || y.isInf then 1.0 / 0.0
  else if x.isNaN || y.isNaN then 0.0 / 0.0
  else
    let a := x.abs
    let b := y.abs
    let ax := if a < b then b else a
    let ay := if a < b then a else b
    let negligible := powerOfTwo (-54)
    let up := powerOfTwo 600
    if ay <= ax * negligible then ax + ay
    else if powerOfTwo 511 < ax then hypotCore (ax / up) (ay / up) * up
    else if ay < powerOfTwo (-459) then hypotCore (ax * up) (ay * up) / up
    else hypotCore ax ay

/-- Bits mapped so that their integer order is the total order of doubles. -/
def orderKey (x : Float) : Int :=
  let bits := x.toBits.toNat
  let sign := 2048 * leadingBit
  if bits < sign then (bits : Int) else (sign : Int) - bits - 1

instance : Scalar Float where
  zero := 0.0
  one := 1.0
  natCast := Float.ofNat
  decLT := inferInstance
  decLE := inferInstance
  beq := inferInstance
  totalOrder a b := compare (orderKey a) (orderKey b)
  isFinite := Float.isFinite
  infinity := 1.0 / 0.0
  pi := 3.141592653589793
  abs := Float.abs
  signum x := if x.isNaN then x else if (parts x).negative then -1.0 else 1.0
  floor := Float.floor
  ceil := Float.ceil
  remainder := remainder
  toNat x := x.toUInt64.toNat
  sqrt := Float.sqrt
  hypot := hypot
  exp := Float.exp
  log := Float.log
  pow := Float.pow
  sin := Float.sin
  cos := Float.cos
  tan := Float.tan
  asin := Float.asin
  acos := Float.acos
  atan := Float.atan
  atan2 := Float.atan2
  sinh := Float.sinh
  cosh := Float.cosh
  atanh := Float.atanh

end Geospatial.Double
