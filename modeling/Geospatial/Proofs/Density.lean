import Mathlib.Analysis.InnerProductSpace.PiL2
import Mathlib.Analysis.Normed.Lp.MeasurableSpace
import Mathlib.MeasureTheory.Measure.Hausdorff
import Geospatial.Density
import Geospatial.Proofs.Ring.Cycle
import Geospatial.Proofs.Scalar.Real
import Geospatial.Proofs.Segment.Between

/-! Line density over the real numbers. The share of the way at which a place of a segment is in a
disc solves a quadratic inequality, so that what is worked out from its two roots is the length of
the part of the segment in the disc, as a measure of that set of points. What is known of measures
then holds of it: the segment may be walked either way, and it may be cut. -/
open MeasureTheory Metric Set

namespace Geospatial

/-- A position as a point of the plane. -/
noncomputable def Position.point (p : Position ℝ) : EuclideanSpace ℝ (Fin 2) :=
  WithLp.toLp _ ![p.x, p.y]

theorem Position.dist_point (p q : Position ℝ) : dist p.point q.point = p.distance q := by
  rw [distance_comm, point, point, EuclideanSpace.dist_eq, Fin.sum_univ_two]
  simp only [Real.dist_eq, sq_abs]
  rfl

theorem quadratic_nonpos_iff_sq_le {p q s t : ℝ} (leading : 0 < p) :
    p * (t * t) + q * t + s ≤ 0 ↔ (2 * p * t + q) ^ 2 ≤ q * q - 4 * p * s := by
  have completed : 4 * p * (p * (t * t) + q * t + s) =
      (2 * p * t + q) ^ 2 - (q * q - 4 * p * s) := by ring
  rw [← mul_le_mul_iff_right₀ (show 0 < 4 * p by positivity), mul_zero, completed, sub_nonpos]

/-- Where the leading coefficient is positive, a quadratic is not positive between its roots. -/
theorem quadratic_nonpos_iff {p q s t : ℝ} (leading : 0 < p) (real : 0 < q * q - 4 * p * s) :
    p * (t * t) + q * t + s ≤ 0 ↔
      (-q - √(q * q - 4 * p * s)) / (2 * p) ≤ t ∧ t ≤ (-q + √(q * q - 4 * p * s)) / (2 * p) := by
  have double : 0 < 2 * p := by positivity
  rw [quadratic_nonpos_iff_sq_le leading, ← Real.sqrt_le_sqrt_iff real.le, Real.sqrt_sq_eq_abs,
    abs_le, div_le_iff₀ double, le_div_iff₀ double]
  constructor <;> rintro ⟨low, high⟩ <;> constructor <;> linarith

/-- The shares of the way between the roots lie from the first root on, or from the start where
that is later, and as far as the second root or the end. -/
theorem Icc_inter_quadratic {p q s : ℝ} (leading : 0 < p) (real : 0 < q * q - 4 * p * s) :
    Icc 0 1 ∩ {t | p * (t * t) + q * t + s ≤ 0} =
      Icc (Scalar.max ((-q - √(q * q - 4 * p * s)) / (2 * p)) 0)
        (Scalar.min ((-q + √(q * q - 4 * p * s)) / (2 * p)) 1) := by
  ext t
  change (0 ≤ t ∧ t ≤ 1) ∧ p * (t * t) + q * t + s ≤ 0 ↔ Scalar.max _ 0 ≤ t ∧ t ≤ Scalar.min _ 1
  rw [quadratic_nonpos_iff leading real, Exact.max_le_iff, Exact.le_min_iff]
  constructor
  · rintro ⟨⟨low, high⟩, enters, leaves⟩
    exact ⟨⟨enters, low⟩, leaves, high⟩
  · rintro ⟨⟨enters, low⟩, leaves, high⟩
    exact ⟨⟨low, high⟩, enters, leaves⟩

/-- A quadratic with a single root or none takes no two nonpositive values. -/
theorem quadratic_nonpos_subsingleton {p q s : ℝ} (leading : 0 < p)
    (few : q * q - 4 * p * s ≤ 0) : {t | p * (t * t) + q * t + s ≤ 0}.Subsingleton := by
  have root {t : ℝ} (here : p * (t * t) + q * t + s ≤ 0) : 2 * p * t + q = 0 :=
    pow_eq_zero_iff two_ne_zero |>.mp <| le_antisymm
      (((quadratic_nonpos_iff_sq_le leading).mp here).trans few) (sq_nonneg _)
  intro t ht u hu
  apply mul_left_cancel₀ (show 2 * p ≠ 0 by positivity)
  linear_combination root ht - root hu

namespace Segment

variable {r : ℝ} {a b c m : Position ℝ}

/-- Shares of the way along a segment at which it is in a disc. -/
def sharesInDisc (r : ℝ) (c a b : Position ℝ) : Set ℝ :=
  {t | AffineMap.lineMap a.point b.point t ∈ closedBall c.point r}

theorem lineMap_point (a b : Position ℝ) (t : ℝ) : AffineMap.lineMap a.point b.point t =
    Position.point ⟨a.x + t * (b.x - a.x), a.y + t * (b.y - a.y), none⟩ := by
  ext i
  fin_cases i <;> simp [Position.point, AffineMap.lineMap_apply, add_comm]

/-- What is left of the square of the radius by the square of the distance from the center. -/
theorem mem_sharesInDisc (positive : 0 < r) {t : ℝ} : t ∈ sharesInDisc r c a b ↔
    ((b.x - a.x) * (b.x - a.x) + (b.y - a.y) * (b.y - a.y)) * (t * t) +
      2 * ((a.x - c.x) * (b.x - a.x) + (a.y - c.y) * (b.y - a.y)) * t +
      ((a.x - c.x) * (a.x - c.x) + (a.y - c.y) * (a.y - c.y) - r * r) ≤ 0 := by
  change AffineMap.lineMap a.point b.point t ∈ closedBall c.point r ↔ _
  rw [mem_closedBall, lineMap_point, Position.dist_point, Position.distance,
    mul_self_le_mul_self_iff (Euclidean.hypot_nonneg _ _) positive.le,
    Euclidean.hypot_mul_self, ← sub_nonpos]
  apply Eq.to_iff
  congr 1
  ring

theorem hausdorffMeasure_inDisc (r : ℝ) (c a b : Position ℝ) (s : Set ℝ) :
    μH[1] (AffineMap.lineMap a.point b.point '' s ∩ closedBall c.point r) =
      nndist a.point b.point • volume (s ∩ sharesInDisc r c a b) := by
  rw [← image_inter_preimage, hausdorffMeasure_lineMap_image, hausdorffMeasure_real]
  rfl

theorem lengthInDisc_nonneg (r : ℝ) (c a b : Position ℝ) : 0 ≤ lengthInDisc r c a b := by
  unfold lengthInDisc
  extract_lets dx dy fx fy qa qb qc disc entry leave
  split_ifs with still outside apart
  · exact le_rfl
  · exact le_rfl
  · exact le_rfl
  · exact mul_nonneg (sub_nonneg.mpr (not_le.mp apart).le) (Real.sqrt_nonneg qa)

/-- The length worked out is that of the segment times the size of the set of shares. -/
theorem ofReal_lengthInDisc (positive : 0 < r) : ENNReal.ofReal (lengthInDisc r c a b) =
    ENNReal.ofReal (a.distance b) * volume (Icc 0 1 ∩ sharesInDisc r c a b) := by
  unfold lengthInDisc
  extract_lets dx dy fx fy qa qb qc disc entry leave
  have inside : sharesInDisc r c a b = {t | qa * (t * t) + qb * t + qc ≤ 0} :=
    Set.ext fun t => mem_sharesInDisc positive
  have way : Scalar.sqrt qa = a.distance b := by
    rw [Position.distance, ← Real.sqrt_mul_self (Euclidean.hypot_nonneg _ _),
      Euclidean.hypot_mul_self]
    rfl
  have squares : 0 ≤ qa := add_nonneg (mul_self_nonneg _) (mul_self_nonneg _)
  have leading (moves : ¬(qa == 0) = true) : 0 < qa :=
    squares.lt_of_ne' fun same => moves (beq_iff_eq.mpr same)
  split_ifs with still outside apart
  · have : a.distance b = 0 := by rw [← way, eq_of_beq still]; exact Real.sqrt_zero
    rw [this, ENNReal.ofReal_zero, zero_mul]
  · -- The line of the segment touches the disc or passes it by.
    have single := quadratic_nonpos_subsingleton (leading still) outside
    rw [inside, measure_mono_null inter_subset_right (single.measure_zero volume), mul_zero,
      ENNReal.ofReal_zero]
  all_goals
    have shares : Icc 0 1 ∩ sharesInDisc r c a b = Icc entry leave :=
      inside ▸ Icc_inter_quadratic (leading still) (not_le.mp outside)
    rw [shares, Real.volume_Icc]
  · rw [ENNReal.ofReal_of_nonpos (sub_nonpos.mpr apart), mul_zero, ENNReal.ofReal_zero]
  · rw [way, mul_comm, ENNReal.ofReal_mul (Position.distance_nonneg a b)]

/-- The length worked out is the measure of the part of the closed segment in the closed disc. -/
theorem hausdorffMeasure_segment_inDisc (positive : 0 < r) (c a b : Position ℝ) :
    μH[1] (segment ℝ a.point b.point ∩ closedBall c.point r) =
      ENNReal.ofReal (lengthInDisc r c a b) := by
  rw [segment_eq_image_lineMap, hausdorffMeasure_inDisc, ofReal_lengthInDisc positive,
    ← Position.dist_point, ← coe_nndist, ENNReal.ofReal_coe_nnreal]
  rfl

theorem lengthInDisc_comm (positive : 0 < r) (c a b : Position ℝ) :
    lengthInDisc r c b a = lengthInDisc r c a b := by
  rw [← ENNReal.ofReal_eq_ofReal_iff (lengthInDisc_nonneg r c b a) (lengthInDisc_nonneg r c a b),
    ← hausdorffMeasure_segment_inDisc positive, ← hausdorffMeasure_segment_inDisc positive,
    segment_symm]

theorem lengthInDisc_le_distance (positive : 0 < r) (c a b : Position ℝ) :
    lengthInDisc r c a b ≤ a.distance b := by
  rw [← ENNReal.ofReal_le_ofReal_iff (Position.distance_nonneg a b),
    ← hausdorffMeasure_segment_inDisc positive, ← Position.dist_point, ← edist_dist,
    ← hausdorffMeasure_segment]
  exact measure_mono inter_subset_left

/-- The shares of a segment that a part of it has in the disc measure the length of the part. -/
theorem ofReal_lengthInDisc_part {x y : Position ℝ} {s t : ℝ} (positive : 0 < r) (order : s ≤ t)
    (start : x.point = AffineMap.lineMap a.point b.point s)
    (stop : y.point = AffineMap.lineMap a.point b.point t) :
    ENNReal.ofReal (lengthInDisc r c x y) =
      nndist a.point b.point • volume (Icc s t ∩ sharesInDisc r c a b) := by
  rw [← hausdorffMeasure_segment_inDisc positive, start, stop, ← image_segment,
    segment_eq_Icc order, hausdorffMeasure_inDisc]

/-- A place on a segment cuts it in two parts that have no more than the place in common. -/
theorem lengthInDisc_add (positive : 0 < r) (c : Position ℝ) (on : On m a b) :
    lengthInDisc r c a m + lengthInDisc r c m b = lengthInDisc r c a b := by
  obtain ⟨s, low, high, hx, hy⟩ := on
  have cut : m.point = AffineMap.lineMap a.point b.point s := by
    rw [lineMap_point, Position.point, Position.point, hx, hy]
  have start := (AffineMap.lineMap_apply_zero (k := ℝ) a.point b.point).symm
  have stop := (AffineMap.lineMap_apply_one (k := ℝ) a.point b.point).symm
  have measurable : MeasurableSet (sharesInDisc r c a b) :=
    (isClosed_closedBall.preimage AffineMap.lineMap_continuous).measurableSet
  have apart : AEDisjoint volume (Icc 0 s ∩ sharesInDisc r c a b)
      (Icc s 1 ∩ sharesInDisc r c a b) := by
    refine measure_mono_null (fun t both => ?_) (Real.volume_singleton (a := s))
    exact le_antisymm both.1.1.2 both.2.1.1
  have whole := measure_union₀ (measurableSet_Icc.inter measurable).nullMeasurableSet apart
  rw [← union_inter_distrib_right, Icc_union_Icc_eq_Icc low high] at whole
  rw [← ENNReal.ofReal_eq_ofReal_iff
      (add_nonneg (lengthInDisc_nonneg r c a m) (lengthInDisc_nonneg r c m b))
      (lengthInDisc_nonneg r c a b),
    ENNReal.ofReal_add (lengthInDisc_nonneg r c a m) (lengthInDisc_nonneg r c m b),
    ofReal_lengthInDisc_part positive low start cut,
    ofReal_lengthInDisc_part positive high cut stop,
    ofReal_lengthInDisc_part positive zero_le_one start stop, whole, smul_add]

/-- A place put in where it lies on the way adds a step and no length. -/
theorem sum_lengthInDisc_insert (positive : 0 < r) (c : Position ℝ) (on : On m a b)
    (head tail : Path ℝ) :
    ((Path.pairs (head ++ a :: m :: b :: tail)).map fun s => lengthInDisc r c s.1 s.2).sum =
      ((Path.pairs (head ++ a :: b :: tail)).map fun s => lengthInDisc r c s.1 s.2).sum := by
  have steps (x y : Position ℝ) (rest : Path ℝ) :
      Path.pairs (x :: y :: rest) = (x, y) :: Path.pairs (y :: rest) := rfl
  rw [Path.pairs_append_cons, Path.pairs_append_cons head (b :: tail), steps, steps, steps]
  simp only [List.map_append, List.map_cons, List.sum_append, List.sum_cons]
  rw [← lengthInDisc_add positive c on, ← add_assoc (lengthInDisc r c a m)]

end Segment

/-- Lines with the same length in every disc are equally dense everywhere. -/
theorem Density.lineDensity_congr {r : ℝ} {lines lines' : List (Path ℝ)}
    (same : 0 < r → ∀ c,
      ((lines.flatMap Path.pairs).map fun s => Segment.lengthInDisc r c s.1 s.2).sum =
        ((lines'.flatMap Path.pairs).map fun s => Segment.lengthInDisc r c s.1 s.2).sum)
    (f : GridFrame ℝ) (signal : Signal) :
    lineDensity f signal r lines = lineDensity f signal r lines' := by
  unfold lineDensity Extent.check
  split
  · rename_i passed
    have positive : 0 < r := of_decide_eq_true (Bool.and_eq_true_iff.mp passed).2
    simp only [Exact.sum_eq, same positive]
  · rfl

/-- What is taken for the length of a segment in a disc is the length of the points of the closed
segment in the closed disc. So it does not depend on the direction, is at most the length of the
segment, and is the sum over the two parts into which a place cuts the segment, which leaves the
density of lines as it was. -/
theorem Segment.lengthInDisc_isLength {r : ℝ} (positive : 0 < r) :
    (∀ c a b, 0 ≤ lengthInDisc r c a b ∧ ENNReal.ofReal (lengthInDisc r c a b) =
      μH[1] (segment ℝ a.point b.point ∩ closedBall c.point r)) ∧
    (∀ c a b, lengthInDisc r c b a = lengthInDisc r c a b) ∧
    (∀ c a b, lengthInDisc r c a b ≤ a.distance b) ∧
    (∀ c a b m, On m a b →
      lengthInDisc r c a m + lengthInDisc r c m b = lengthInDisc r c a b) ∧
    ∀ (f : GridFrame ℝ) (signal : Signal) (before after : List (Path ℝ)) (head tail : Path ℝ)
      (a b m : Position ℝ), On m a b →
      Density.lineDensity f signal r (before ++ (head ++ a :: m :: b :: tail) :: after) =
        Density.lineDensity f signal r (before ++ (head ++ a :: b :: tail) :: after) := by
  refine ⟨fun c a b => ⟨lengthInDisc_nonneg r c a b,
      (hausdorffMeasure_segment_inDisc positive c a b).symm⟩,
    lengthInDisc_comm positive, lengthInDisc_le_distance positive,
    fun c _ _ _ on => lengthInDisc_add positive c on, ?_⟩
  intro f signal before after head tail a b m on
  refine Density.lineDensity_congr (fun _ c => ?_) f signal
  simp only [List.flatMap_append, List.flatMap_cons, List.map_append, List.sum_append,
    sum_lengthInDisc_insert positive c on]

theorem Segment.lengthInDisc_isLength_diameter :
    let c : Position ℝ := ⟨0, 0, none⟩
    let a : Position ℝ := ⟨-10, 0, none⟩
    let b : Position ℝ := ⟨10, 0, none⟩
    (0 : ℝ) < 1 ∧ On c a b ∧ lengthInDisc 1 c a b = 2 ∧
      μH[1] (segment ℝ a.point b.point ∩ closedBall c.point 1) = 2 ∧
      ∀ f signal, Density.lineDensity f signal 1 [[a, c, b]] =
        Density.lineDensity f signal 1 [[a, b]] := by
  intro c a b
  have middle : On c a b := ⟨1 / 2, by norm_num, by norm_num, by norm_num [c, a, b],
    by norm_num [c, a, b]⟩
  have root : Scalar.sqrt (1600 : ℝ) = 40 :=
    (Real.sqrt_eq_iff_mul_self_eq_of_pos (by norm_num)).mpr (by norm_num)
  have way : Scalar.sqrt (400 : ℝ) = 20 :=
    (Real.sqrt_eq_iff_mul_self_eq_of_pos (by norm_num)).mpr (by norm_num)
  have length : lengthInDisc 1 c a b = 2 := by
    norm_num [lengthInDisc, a, b, c, root, way, Scalar.max, Scalar.min, Exact.isNaN_eq_false]
  obtain ⟨measures, -, -, -, cut⟩ := lengthInDisc_isLength one_pos
  refine ⟨one_pos, middle, length, ?_, fun f signal => ?_⟩
  · rw [← (measures c a b).2, length, ENNReal.ofReal_ofNat]
  · exact cut f signal [] [] [] [] a b c middle

end Geospatial
