import Mathlib.Tactic.NormNum
import Mathlib.Tactic.Ring
import Geospatial.Hotspot
import Geospatial.Proofs.Outcome
import Geospatial.Proofs.Scalar.Mean

/-! Hot spots of values in other units, over the real numbers. When all values are scaled and
shifted, their mean goes along with them, and their deviation is scaled; so each score keeps its
size, and its sign too, unless the values are turned over. -/
namespace Geospatial

namespace HotspotClass

/-- The same significance at the other end of the scale. -/
def opposite : HotspotClass → HotspotClass
  | hot99 => cold99
  | hot95 => cold95
  | hot90 => cold90
  | notSignificant => notSignificant
  | cold90 => hot90
  | cold95 => hot95
  | cold99 => hot99

theorem opposite_opposite (c : HotspotClass) : c.opposite.opposite = c := by
  cases c <;> rfl

variable {K : Type} [Euclidean K] {z : K}

theorem ofScore_neg_of_nonneg (nonneg : 0 ≤ z) : ofScore (-z) = (ofScore z).opposite := by
  -- No such score is below a negative bound, and its opposite is above no positive one.
  have above (m e : ℕ) : ¬OfScientific.ofScientific (m + 1) true e ≤ -z :=
    ((neg_nonpos.mpr nonneg).trans_lt (Euclidean.ofScientific_pos m e)).not_ge
  have below (m e : ℕ) : ¬z ≤ -OfScientific.ofScientific (m + 1) true e :=
    ((neg_lt_zero.mpr (Euclidean.ofScientific_pos m e)).trans_le nonneg).not_ge
  simp only [ofScore, neg_le_neg_iff, above 2575 3, above 195 2, above 1644 3, below 2575 3,
    below 195 2, below 1644 3, if_false]
  split_ifs <;> rfl

theorem ofScore_neg (z : K) : ofScore (-z) = (ofScore z).opposite := by
  rcases le_total 0 z with nonneg | nonpos
  · exact ofScore_neg_of_nonneg nonneg
  · have turned := ofScore_neg_of_nonneg (neg_nonneg.mpr nonpos)
    rw [neg_neg] at turned
    rw [turned, opposite_opposite]

end HotspotClass

namespace Hotspot

section

variable {K : Type} [Scalar K] {m : Metric} {band : K} {points : List (Position K)}
  {values : List K}

/-- The finding of the opposite score, which is as likely. -/
def opposite (h : Hotspot K) : Hotspot K := ⟨-h.score, h.pValue, h.level.opposite⟩

variable [Geodesy K]

/-- The values of the points that are within the band around a place. -/
def valuesNear (m : Metric) (band : K) (points : List (Position K)) (values : List K)
    (p : Position K) : List K :=
  ((points.zip values).filter fun o => m.distance p o.1 ≤ band).map (·.2)

theorem valuesNear_map (f : K → K) (p : Position K) :
    valuesNear m band points (values.map f) p = (valuesNear m band points values p).map f := by
  simp only [valuesNear, List.zip_map_right, List.filter_map, List.map_map]
  rfl

/-- The finding at a place. -/
def spotAt (m : Metric) (band : K) (points : List (Position K)) (values : List K)
    (p : Position K) : Hotspot K :=
  ofScore (scoreOf values.length (moments values).1 (moments values).2
    (valuesNear m band points values p))

theorem analyze_eq (m : Metric) (signal : Signal) (band : K) (points : List (Position K))
    (values : List K) : analyze m signal band points values =
      if points.length ≠ values.length then .refuse (.valueCount points.length values.length)
      else if points.length < 2 then .refuse .tooFewObservations
      else Extent.distanceBand.check band >>= fun _ =>
        signal.forEach points fun p => .ok (spotAt m band points values p) := by
  unfold analyze
  split_ifs <;> rfl

/-- What a change of the values does to the finding at each place, it does to the whole answer. -/
theorem analyze_map {f : K → K} {g : Hotspot K → Hotspot K}
    (turned : values ≠ [] → ∀ p,
      spotAt m band points (values.map f) p = g (spotAt m band points values p))
    (signal : Signal) : analyze m signal band points (values.map f) =
      (analyze m signal band points values).map (List.map g) := by
  rw [analyze_eq, analyze_eq, List.length_map]
  split_ifs with unpaired few
  · rfl
  · rfl
  have filled : values ≠ [] := List.ne_nil_of_length_pos (by omega)
  cases Extent.distanceBand.check band with
  | error fault => rfl
  | ok _ =>
    change signal.forEach points _ = (signal.forEach points _).map _
    -- The signal is asked once per point in both runs, so it stops both or none.
    rcases signal.forEach_cases (K := K) (β := Hotspot K) points with ⟨-, stopped⟩ | runs
    · rw [stopped, stopped]
      rfl
    · rw [runs, runs, Except.map, List.map_map]
      exact congrArg _ (List.map_congr_left fun p _ => turned filled p)

end

theorem ofScore_neg {K : Type} [Euclidean K] (z : K) : ofScore (-z) = (ofScore z).opposite := by
  simp only [ofScore, opposite, Euclidean.abs_eq, abs_neg, HotspotClass.ofScore_neg]

variable {α β : ℝ} {values : List ℝ}

/-- Where there are values, the deviation is the root of the mean squared difference from the mean:
the bound below by zero is never needed. -/
theorem moments_eq (filled : values ≠ []) : moments values = (Exact.mean values,
    √(Exact.mean (values.map fun v => (v - Exact.mean values) ^ 2))) := by
  have nonneg : 0 ≤ Exact.mean (values.map fun v => (v - Exact.mean values) ^ 2) :=
    Exact.mean_nonneg (by simp [sq_nonneg])
  simp only [moments, Exact.sum_eq, ← sq]
  rw [← Exact.mean, ← Exact.mean_sq_sub_mean filled, Exact.max_eq_left nonneg]
  rfl

theorem moments_affine (filled : values ≠ []) (α β : ℝ) :
    moments (values.map fun v => α * v + β) =
      (α * (moments values).1 + β, |α| * (moments values).2) := by
  have scaled : (values.map fun v => α * v + β).map
      (fun v => (v - (α * Exact.mean values + β)) ^ 2) =
      (values.map fun v => (v - Exact.mean values) ^ 2).map fun d => α ^ 2 * d + 0 := by
    rw [List.map_map, List.map_map]
    refine List.map_congr_left fun v _ => ?_
    simp only [Function.comp_apply]
    ring
  rw [moments_eq (by simpa using filled), moments_eq filled, Exact.mean_affine filled, scaled,
    Exact.mean_affine (by simpa using filled), add_zero, Real.sqrt_mul (sq_nonneg α),
    Real.sqrt_sq_eq_abs]

/-- A score is a quotient, of which both parts are scaled. Whether the values vary, and whether all
of them are near, is the same for scaled values. -/
theorem scoreOf_affine (scaled : α ≠ 0) (β n mean deviation : ℝ) (near : List ℝ) :
    scoreOf n (α * mean + β) (|α| * deviation) (near.map fun v => α * v + β) =
      α / |α| * scoreOf n mean deviation near := by
  have size : 0 < |α| := abs_pos.mpr scaled
  have excess : Scalar.sum (near.map fun v => α * v + β) - (α * mean + β) * near.length =
      α * (Scalar.sum near - mean * near.length) := by
    rw [Exact.sum_eq, Exact.sum_eq, Exact.sum_affine]
    ring
  simp only [scoreOf, List.length_map, excess, mul_assoc, mul_pos_iff_of_pos_left size]
  split_ifs
  · rw [mul_div_mul_comm]
  · rw [mul_zero]

section

-- Any geodesy does, not only that of the formulas.
variable [Geodesy ℝ] {m : Metric} {band : ℝ} {points : List (Position ℝ)}

theorem spotAt_affine (scaled : α ≠ 0) (β : ℝ) (filled : values ≠ []) (p : Position ℝ) :
    spotAt m band points (values.map fun v => α * v + β) p =
      ofScore (α / |α| * (spotAt m band points values p).score) := by
  rw [spotAt, valuesNear_map, List.length_map, moments_affine filled, scoreOf_affine scaled]
  rfl

/-- Whatever comes of an analysis, the same comes of it when the values are scaled up or down and
shifted; and when they are turned over, each finding is turned to the opposite. -/
theorem analyze_affine (m : Metric) (signal : Signal) (band : ℝ) (points : List (Position ℝ))
    (values : List ℝ) (positive : 0 < α) (β : ℝ) :
    analyze m signal band points (values.map fun v => α * v + β) =
        analyze m signal band points values ∧
      analyze m signal band points (values.map fun v => -v) =
        (analyze m signal band points values).map (List.map opposite) := by
  constructor
  · refine (analyze_map (g := id) (fun filled p => ?_) signal).trans ?_
    · rw [spotAt_affine positive.ne' β filled, abs_of_pos positive, div_self positive.ne', one_mul]
      rfl
    · rw [List.map_id_fun, Except.map_id]
      rfl
  · refine analyze_map (fun filled p => ?_) signal
    have negated : (values.map fun v => -v) = values.map fun v => -1 * v + 0 := by simp
    rw [negated, spotAt_affine (neg_ne_zero.mpr one_ne_zero) 0 filled, abs_neg, abs_one, div_one,
      neg_one_mul, ofScore_neg]
    rfl

end

/-- One high value among five that are far from each other. -/
theorem analyze_affine_peak :
    let points : List (Position ℝ) :=
      [⟨0, 0, none⟩, ⟨3, 0, none⟩, ⟨6, 0, none⟩, ⟨9, 0, none⟩, ⟨12, 0, none⟩]
    let peak : Hotspot ℝ := ofScore 2
    let low : Hotspot ℝ := ofScore (-1 / 2)
    (0 : ℝ) < 3 ∧ peak.level = .hot95 ∧
      analyze .euclidean .absent 1 points [5, 0, 0, 0, 0] = .ok [peak, low, low, low, low] ∧
      analyze .euclidean .absent 1 points [16, 1, 1, 1, 1] = .ok [peak, low, low, low, low] ∧
      analyze .euclidean .absent 1 points [-5, -0, -0, -0, -0] =
        .ok [peak.opposite, low.opposite, low.opposite, low.opposite, low.opposite] := by
  intro points peak low
  have spread : moments [5, 0, 0, 0, (0 : ℝ)] = (1, 2) := by
    have root : √(4 : ℝ) = 2 :=
      (Real.sqrt_eq_iff_mul_self_eq_of_pos (by norm_num)).mpr (by norm_num)
    rw [moments_eq (List.cons_ne_nil _ _)]
    norm_num [Exact.mean, root]
  have score (v : ℝ) : scoreOf 5 1 2 [v] = (v - 1) / 2 := by
    have whole : Scalar.sqrt (Scalar.max ((5 - 1) / (5 - 1) : ℝ) 0) = 1 := by
      rw [div_self (by norm_num), Exact.max_eq_left zero_le_one]
      exact Real.sqrt_one
    simp [scoreOf, whole, Exact.sum_eq]
  have alone : points.map (valuesNear .euclidean 1 points [5, 0, 0, 0, 0]) =
      [[5], [0], [0], [0], [0]] := by
    norm_num [points, valuesNear, List.filter_cons, Metric.distance, Position.distance,
      Euclidean.hypot_zero_right, abs_of_pos, abs_of_neg]
  have spots : points.map (spotAt .euclidean 1 points [5, 0, 0, 0, 0]) =
      [peak, low, low, low, low] := by
    have each : spotAt .euclidean 1 points [5, 0, 0, 0, 0] =
        (fun near => ofScore (scoreOf 5 1 2 near)) ∘
          valuesNear .euclidean 1 points [5, 0, 0, 0, 0] := by
      funext p
      rw [Function.comp_apply, spotAt, spread]
      norm_num
    rw [each, ← List.map_map, alone]
    simp only [List.map_cons, List.map_nil, score, peak, low]
    norm_num
  have found : analyze .euclidean .absent 1 points [5, 0, 0, 0, 0] =
      .ok [peak, low, low, low, low] := by
    have quiet : Signal.absent ≠ .triggered := by decide
    have band : Extent.distanceBand.check (1 : ℝ) = .ok () := if_pos (by simp [Scalar.isFinite])
    rw [analyze_eq, if_neg (by simp [points]), if_neg (by simp [points]), band]
    exact (Signal.forEach_eq_ok quiet _ points).trans (congrArg Except.ok spots)
  have three : (0 : ℝ) < 3 := by norm_num
  obtain ⟨scaled, turned⟩ := analyze_affine .euclidean .absent 1 points [5, 0, 0, 0, 0] three 1
  rw [found] at scaled turned
  refine ⟨three, ?_, found, ?_, turned⟩
  · norm_num [peak, ofScore, HotspotClass.ofScore]
  · rw [← scaled]
    norm_num

end Hotspot
end Geospatial
