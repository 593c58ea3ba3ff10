/-! The arithmetic the library is written over. Every algorithm takes its numbers
from a `Scalar`, so one definition runs on doubles and is reasoned about in exact
arithmetic. The class fixes operations only and states no law: what holds in an
ordered field is proved there, and nothing here hides a rounding. -/
namespace Geospatial

/-- Numbers with the operations that planar, spherical and raster computations need. -/
class Scalar (K : Type) extends
    Zero K, One K, Add K, Sub K, Mul K, Div K, Neg K, LT K, LE K, NatCast K, OfScientific K where
  decLT : DecidableLT K
  decLE : DecidableLE K
  /-- Numeric equality; a value that is not a number differs from itself. -/
  beq : BEq K
  /-- An order on all values, refining the numeric order where that leaves a tie. -/
  totalOrder : K → K → Ordering
  isFinite : K → Bool
  /-- The value of an unbounded quantity where the arithmetic has one. -/
  infinity : K
  pi : K
  abs : K → K
  /-- One with the sign of the argument. -/
  signum : K → K
  floor : K → K
  ceil : K → K
  /-- Remainder of the truncated quotient; it has the sign of the dividend. -/
  remainder : K → K → K
  /-- The whole part as a natural number; values below one give zero. -/
  toNat : K → Nat
  sqrt : K → K
  /-- Length of the hypotenuse over two legs. -/
  hypot : K → K → K
  exp : K → K
  log : K → K
  pow : K → K → K
  sin : K → K
  cos : K → K
  tan : K → K
  asin : K → K
  acos : K → K
  atan : K → K
  /-- Angle of the point with the given ordinate and abscissa. -/
  atan2 : K → K → K
  sinh : K → K
  cosh : K → K
  atanh : K → K

attribute [reducible, instance] Scalar.decLT Scalar.decLE Scalar.beq

namespace Scalar

variable {K : Type} [Scalar K]

instance (priority := low) instOfNat (n : Nat) : OfNat K (n + 2) := ⟨Nat.cast (n + 2)⟩

/-- A value that differs from itself is not a number. -/
def isNaN (a : K) : Bool := !(a == a)

/-- The lesser of two values; a value that is not a number gives way to the other. -/
def min (a b : K) : K := if b < a || isNaN a then b else a

/-- The greater of two values; a value that is not a number gives way to the other. -/
def max (a b : K) : K := if a < b || isNaN a then b else a

/-- Nearest value of the interval from `lo` to `hi`. -/
def clamp (lo hi a : K) : K := if a < lo then lo else if hi < a then hi else a

def square (a : K) : K := a * a

/-- Sum in list order. -/
def sum (xs : List K) : K := xs.foldl (· + ·) 0

/-- The least of the numbers in a list, `infinity` when there is none. -/
def least : List K → K
  | [] => infinity
  | x :: xs =>
    let m := xs.foldl min x
    if isNaN m then infinity else m

/-- The greatest of the numbers in a list, the negated `infinity` when there is none. -/
def greatest : List K → K
  | [] => -infinity
  | x :: xs =>
    let m := xs.foldl max x
    if isNaN m then -infinity else m

/-- A whole number of either sign. -/
def ofInt (n : Int) : K := if n < 0 then -((n.natAbs : Nat) : K) else ((n.natAbs : Nat) : K)

/-- Remainder in `[0, b)` of a division by a positive `b`. -/
def modulo (a b : K) : K :=
  let r := remainder a b
  if r < 0 then r + abs b else r

/-- Part after the point, with the sign of the value. -/
def fraction (a : K) : K := a - (if a < 0 then ceil a else floor a)

def radians (degrees : K) : K := degrees * (pi / 180)

def degrees (radians : K) : K := radians * (180 / pi)

/-- Numeric comparison, undefined when either side is not a number. -/
def compare? (a b : K) : Option Ordering :=
  if a < b then some .lt else if b < a then some .gt else if a == b then some .eq else none

/-- Numeric comparison in which values that cannot be compared count as equal. -/
def order (a b : K) : Ordering := (compare? a b).getD .eq

/-- Within the closed interval from `lo` to `hi`. -/
def within (lo hi a : K) : Bool := lo ≤ a && a ≤ hi

end Scalar
end Geospatial
