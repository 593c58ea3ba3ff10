import Geospatial.Density
import Geospatial.Metric

/-! Clusters of high and low values by the local statistic Gi*: the sum of the values
around a point against what their overall mean and spread lead to expect. -/
namespace Geospatial

/-- Significance of a score, hot for high and cold for low values, by level in percent. -/
inductive HotspotClass where
  | hot99 | hot95 | hot90 | notSignificant | cold90 | cold95 | cold99
  deriving DecidableEq

namespace HotspotClass

def name : HotspotClass → String
  | hot99 => "hot99"
  | hot95 => "hot95"
  | hot90 => "hot90"
  | notSignificant => "not_significant"
  | cold90 => "cold90"
  | cold95 => "cold95"
  | cold99 => "cold99"

/-- The strictest level that a standard score reaches. -/
def ofScore {K : Type} [Scalar K] (z : K) : HotspotClass :=
  if 2.576 ≤ z then hot99
  else if 1.96 ≤ z then hot95
  else if 1.645 ≤ z then hot90
  else if z ≤ -2.576 then cold99
  else if z ≤ -1.96 then cold95
  else if z ≤ -1.645 then cold90
  else notSignificant

end HotspotClass

structure Hotspot (K : Type) where
  score : K
  /-- Chance of a score at least this far from zero in either direction. -/
  pValue : K
  level : HotspotClass

namespace Hotspot

variable {K : Type} [Scalar K]

/-- Distribution function of the standard normal law, by a polynomial of degree five in
`1 / (1 + p |x|)`; the error is below `1e-7`. -/
def normalDistribution (x : K) : K :=
  let z := Scalar.abs x
  let t := 1 / (1 + 0.2316419 * z)
  let density := Scalar.exp (-0.5 * z * z) / Scalar.sqrt (2 * Scalar.pi)
  let poly := t * (0.319381530 + t * (-0.356563782 + t * (1.781477937 + t * (-1.821255978 +
    t * 1.330274429))))
  let upper := density * poly
  if 0 ≤ x then 1 - upper else upper

def ofScore (z : K) : Hotspot K where
  score := z
  pValue := 2 * (1 - normalDistribution (Scalar.abs z))
  level := .ofScore z

/-- Mean and standard deviation of a whole population. -/
def moments (values : List K) : K × K :=
  let n : K := (values.length : K)
  let mean := Scalar.sum values / n
  let variance := Scalar.sum (values.map fun v => v * v) / n - mean * mean
  (mean, Scalar.sqrt (Scalar.max variance 0))

/-- Standard score of the values `near` a point among `n` values; zero when the values
do not vary or all of them are near. -/
def scoreOf (n mean deviation : K) (near : List K) : K :=
  let w : K := (near.length : K)
  let spread := deviation * Scalar.sqrt (Scalar.max ((n * w - w * w) / (n - 1)) 0)
  if 0 < spread then (Scalar.sum near - mean * w) / spread else 0

/-- Gi* of every point; the point itself is among those within the band. -/
def analyze [Geodesy K] (m : Metric) (signal : Signal) (band : K) (points : List (Position K))
    (values : List K) : Outcome K (List (Hotspot K)) := do
  if points.length ≠ values.length then Outcome.refuse (.valueCount points.length values.length)
  if points.length < 2 then Outcome.refuse .tooFewObservations
  Extent.distanceBand.check band
  let (mean, deviation) := moments values
  let observations := points.zip values
  signal.forEach points fun p =>
    let near := (observations.filter fun o => m.distance p o.1 ≤ band).map (·.2)
    .ok (ofScore (scoreOf (values.length : K) mean deviation near))

end Hotspot
end Geospatial
