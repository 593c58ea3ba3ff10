import Geospatial.Interpolation
import Geospatial.LinearSystem
import Geospatial.Order

/-! Variograms, and kriging by them. A variogram says how much values differ, on average, by the
distance between them. The empirical variogram of samples is a list of classes of distance; a model
is a curve that rises from zero through its nugget to its sill. Ordinary kriging takes at every cell
the linear combination of the samples that is expected to err least, given a model and an unknown
mean. -/
namespace Geospatial

/-- Shape of a variogram's curve. -/
inductive VariogramModel where
  | spherical | exponential | gaussian | linear
  deriving DecidableEq

namespace VariogramModel

def name : VariogramModel → String
  | spherical => "spherical"
  | exponential => "exponential"
  | gaussian => "gaussian"
  | linear => "linear"

def ofName? (s : String) : Option VariogramModel :=
  [spherical, exponential, gaussian, linear].find? fun m => m.name == s

variable {K : Type} [Scalar K]

/-- Share of the rise that is reached at distance `h`, for a range `r`. -/
def share (m : VariogramModel) (h r : K) : K :=
  match m with
  | spherical =>
    if r ≤ h then 1
    else
      let t := h / r
      1.5 * t - 0.5 * t * t * t
  | exponential => 1 - Scalar.exp (-3 * h / r)
  | gaussian => 1 - Scalar.exp (-3 * h * h / (r * r))
  | linear => Scalar.min (h / r) 1

end VariogramModel

structure Variogram (K : Type) where
  model : VariogramModel
  /-- Value just beyond distance zero. -/
  nugget : K
  /-- Value that is reached or approached. -/
  sill : K
  /-- Distance at which, or near which, the sill is reached. -/
  range : K

/-- One class of distances of an empirical variogram. -/
structure VariogramBin (K : Type) where
  /-- Mean distance of the pairs. -/
  lag : K
  /-- Half the mean squared difference of the pairs' values. -/
  semivariance : K
  pairs : Nat

namespace Variogram

variable {K : Type} [Scalar K]

/-- The range is never taken as less than this length. -/
def leastRange : K := 2.2250738585072014e-308

/-- Half the expected squared difference of two values at distance `h`. -/
def evaluate (v : Variogram K) (h : K) : K :=
  if h ≤ 0 then 0
  else v.nugget + (v.sill - v.nugget) * v.model.share h (Scalar.max v.range leastRange)

/-- Two samples: their distance and the square of their values' difference. -/
structure Pair (K : Type) where
  distance : K
  squaredDifference : K

def pairOf (a b : Sample K) : Pair K where
  distance := a.distanceTo b.position
  squaredDifference := (a.value - b.value) * (a.value - b.value)

/-- The class of a distance, counted from zero. -/
def lagClass (size : K) (p : Pair K) : Nat := Scalar.toNat (p.distance / size)

/-- What the pairs of a class come to so far. -/
structure Tally (K : Type) where
  distance : K
  squaredDifference : K
  pairs : Nat

namespace Tally

def empty : Tally K := ⟨0, 0, 0⟩

def add (t : Tally K) (p : Pair K) : Tally K :=
  ⟨t.distance + p.distance, t.squaredDifference + p.squaredDifference, t.pairs + 1⟩

def bin (t : Tally K) : VariogramBin K :=
  let n : K := (t.pairs : K)
  ⟨t.distance / n, t.squaredDifference / (2 * n), t.pairs⟩

end Tally

/-- Adds a pair to the tally of its class. Beyond the last class nothing is added. -/
def enter (size : K) (tallies : Array (Tally K)) (p : Pair K) : Array (Tally K) :=
  tallies.modify (lagClass size p) fun t => t.add p

/-- The tallies of the classes, each two samples entered in turn. -/
def tallies (size : K) (count : Nat) (samples : List (Sample K)) : Array (Tally K) :=
  ((Order.couples samples).map fun (a, b) => pairOf a b).foldl (enter size)
    (Array.replicate count .empty)

/-- The classes that have pairs, the nearest first. -/
def binsOf (size : K) (count : Nat) (samples : List (Sample K)) : List (VariogramBin K) :=
  ((tallies size count samples).toList.filter fun t => 0 < t.pairs).map Tally.bin

/-- The empirical variogram in classes of equal width. -/
def empirical (points : List (Position K)) (values : List K) (size : K) (count : Nat) :
    Outcome K (List (VariogramBin K)) := do
  let samples ← Sample.ofLists points values
  if !(Scalar.isFinite size && 0 < size) || count == 0 then
    Outcome.refuse (.variogramLags size count)
  return binsOf size count samples

/-- Sum of the squared deviations of a model from the classes, weighted by their pairs. -/
def misfit (bins : List (VariogramBin K)) (v : Variogram K) : K :=
  Scalar.sum (bins.map fun b =>
    (b.pairs : K) * Scalar.square (v.evaluate b.lag - b.semivariance))

/-- The whole population's variance. -/
def variance (values : List K) : K :=
  let n : K := (values.length : K)
  let mean := Scalar.sum values / n
  Scalar.sum (values.map fun v => Scalar.square (v - mean)) / n

/-- The model without nugget that fits best, its sill being the variance, among a hundred
ranges up to the greatest lag. -/
def fit (model : VariogramModel) (points : List (Position K)) (values : List K) (size : K)
    (count : Nat) : Outcome K (Variogram K) := do
  let bins ← empirical points values size count
  if bins.isEmpty then Outcome.refuse .noSamplePairs
  let sill := variance values
  let greatest := size * (count : K)
  let candidate (step : Nat) : Variogram K := ⟨model, 0, sill, greatest * (step : K) / 100⟩
  let ranked := ((List.range 100).map fun i => candidate (i + 1)).map fun v => (misfit bins v, v)
  let best := Order.least? (Order.on (·.1) Scalar.order) (ranked.filter fun r => Scalar.isFinite r.1)
  return (best.map (·.2)).getD ⟨model, 0, sill, greatest⟩

end Variogram

namespace Interpolation

variable {K : Type} [Scalar K]

/-- Estimates and the variances of their errors. -/
structure Kriging (K : Type) where
  estimate : Grid K
  variance : Grid K

/-- Variogram values between all samples, bordered by ones: the weights add up to one. -/
def krigingMatrix (v : Variogram K) (samples : List (Sample K)) : List (List K) :=
  samples.map (fun a => samples.map (fun b => v.evaluate (a.distanceTo b.position)) ++ [1]) ++
    [samples.map (fun _ => 1) ++ [0]]

/-- Variogram values between a position and the samples, and the sum of the weights. -/
def krigingSide (v : Variogram K) (samples : List (Sample K)) (p : Position K) : List K :=
  samples.map (fun s => v.evaluate (s.distanceTo p)) ++ [1]

/-- Sum of the products of corresponding elements. -/
def dot (xs ys : List K) : K := Scalar.sum (List.zipWith (· * ·) xs ys)

/-- The estimate at a cell. The weights end in the multiplier of their sum's condition,
which belongs to no sample. -/
def krigingEstimate (weights : List K) (samples : List (Sample K)) : K :=
  dot weights (samples.map (·.value))

/-- The variance of the error, never taken as negative. -/
def krigingVariance (weights side : List K) : K := Scalar.max (dot weights side) 0

/-- Kriging of every cell center. -/
def kriging (v : Variogram K) (f : GridFrame K) (signal : Signal) (points : List (Position K))
    (values : List K) : Outcome K (Kriging K) := do
  let samples ← Sample.ofLists points values
  let some factors := LinearSystem.factor? (samples.length + 1) (krigingMatrix v samples)
    | Outcome.refuse .singularSystem
  let side (row col : Nat) : List K := krigingSide v samples (f.cellCenter row col)
  let weights (row col : Nat) : List K := LinearSystem.solve factors (side row col)
  let estimate ← Grid.compute f signal fun r c => some (krigingEstimate (weights r c) samples)
  signal.check
  let variance ← Grid.compute f signal fun r c => some (krigingVariance (weights r c) (side r c))
  return ⟨estimate, variance⟩

end Interpolation
end Geospatial
