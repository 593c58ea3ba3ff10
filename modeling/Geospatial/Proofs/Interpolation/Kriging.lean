import Mathlib.Analysis.SpecialFunctions.Complex.Arg
import Geospatial.Proofs.Grid
import Geospatial.Proofs.Interpolation.Samples
import Geospatial.Proofs.LinearSystem
import Geospatial.Proofs.Scalar.Real

/-! Kriging honors the samples, in exact arithmetic. The bordered system makes the weights add
up to one; where a sample lies, the right-hand side is that sample's own column, so that all
the weight falls on it. -/
namespace Geospatial.Interpolation

open LinearSystem

section

variable {K : Type} [Scalar K]

/-- What each sample counts for at a position: the solution without the multiplier. -/
def weightsAt (factors : Factors K) (v : Variogram K) (samples : List (Sample K))
    (p : Position K) : List K :=
  (solve factors (krigingSide v samples p)).take samples.length

/-- All the weight on the sample between those before and those after it. -/
def unitWeights (before after : List (Sample K)) : List K :=
  before.map (fun _ => 0) ++ 1 :: after.map (fun _ => 0)

theorem kriging_eq_ok {signal : Signal} {points : List (Position K)} {values : List K}
    {v : Variogram K} {samples : List (Sample K)} {factors : Factors K} {f : GridFrame K}
    (quiet : signal ≠ .triggered) (accepted : Sample.ofLists points values = .ok samples)
    (factored : factor? (samples.length + 1) (krigingMatrix v samples) = some factors) :
    kriging v f signal points values = .ok
      { estimate := Grid.tabulate f fun row col => some
          (krigingEstimate (solve factors (krigingSide v samples (f.cellCenter row col))) samples)
        variance := Grid.tabulate f fun row col => some
          (krigingVariance (solve factors (krigingSide v samples (f.cellCenter row col)))
            (krigingSide v samples (f.cellCenter row col))) } := by
  simp only [kriging, accepted, bind, Except.bind, factored, Grid.compute_eq_ok quiet,
    Signal.check_eq_ok quiet]
  rfl

theorem kriging_eq_refuse {signal : Signal} {points : List (Position K)} {values : List K}
    {v : Variogram K} {samples : List (Sample K)} {f : GridFrame K}
    (accepted : Sample.ofLists points values = .ok samples)
    (failed : factor? (samples.length + 1) (krigingMatrix v samples) = none) :
    kriging v f signal points values = Outcome.refuse .singularSystem := by
  simp only [kriging, accepted, bind, Except.bind, failed]

end

section

variable {K : Type} [Exact K]

theorem exists_concat_of_length_succ {n : ℕ} {xs : List α} (length : xs.length = n + 1) :
    ∃ ys y, xs = ys ++ [y] ∧ ys.length = n := by
  obtain ⟨y, ys, reversed⟩ := List.exists_of_length_succ _ (xs.length_reverse.trans length)
  refine ⟨ys.reverse, y, by rw [← List.reverse_cons, ← reversed, List.reverse_reverse], ?_⟩
  rw [← xs.length_reverse, reversed] at length
  rw [List.length_reverse, Nat.succ.inj length]

theorem dot_map_zero (f : α → K) (xs : List α) : dot (xs.map f) (xs.map fun _ => 0) = 0 := by
  induction xs with
  | nil => exact dot_nil []
  | cons x xs ih => rw [List.map_cons, List.map_cons, dot_cons, ih, mul_zero, add_zero]

theorem dot_map_const (u : K) (xs : List α) {ws : List K} (lengths : ws.length = xs.length) :
    dot (xs.map fun _ => u) ws = u * ws.sum := by
  induction xs generalizing ws with
  | nil =>
    obtain rfl := List.length_eq_zero_iff.mp lengths
    simp
  | cons x xs ih =>
    obtain ⟨w, ws, rfl⟩ := List.exists_of_length_succ ws lengths
    rw [List.map_cons, dot_cons, ih (Nat.succ.inj lengths), List.sum_cons, mul_add]

theorem dot_concat {ws ys : List K} (lengths : ws.length = ys.length) (m : K) :
    dot (ws ++ [m]) ys = dot ws ys := by
  rw [dot_comm, dot_append_right lengths.symm, dot_comm]

variable {before after : List (Sample K)}

theorem dot_unitWeights (f : Sample K → K) (s : Sample K) :
    dot ((before ++ s :: after).map f) (unitWeights before after) = f s := by
  rw [unitWeights, List.map_append, List.map_cons, dot_append (by simp), dot_cons, dot_map_zero,
    dot_map_zero, mul_one, add_zero, zero_add]

theorem length_unitWeights (s : Sample K) :
    (unitWeights before after).length = (before ++ s :: after).length := by
  simp [unitWeights]

theorem sum_unitWeights : (unitWeights before after).sum = 1 := by
  simp [unitWeights]

theorem evaluate_zero (v : Variogram K) : v.evaluate 0 = 0 := if_pos le_rfl

theorem square_krigingMatrix (v : Variogram K) (samples : List (Sample K)) :
    Square (samples.length + 1) (krigingMatrix v samples) := by
  constructor
  · simp [krigingMatrix]
  · intro r hr
    rw [krigingMatrix, List.mem_append, List.mem_map, List.mem_singleton] at hr
    rcases hr with ⟨a, _, rfl⟩ | rfl <;> simp

section

variable {v : Variogram K} {samples : List (Sample K)} {ws : List K}
  (lengths : ws.length = samples.length)
include lengths

theorem dot_bordered (f : Sample K → K) (last m : K) :
    dot (samples.map f ++ [last]) (ws ++ [m]) = dot (samples.map f) ws + last * m := by
  rw [dot_append (by simp [lengths]), dot_cons, dot_nil, add_zero]

/-- One condition for each sample, the multiplier being the same in all of them, and one for the
sum of the weights. -/
theorem solves_kriging {p : Position K} {m : K} :
    Solves (ws ++ [m]) (krigingMatrix v samples) (krigingSide v samples p) ↔
      (∀ a ∈ samples, dot (samples.map fun b => v.evaluate (a.distanceTo b.position)) ws + m =
        v.evaluate (a.distanceTo p)) ∧ ws.sum = 1 := by
  rw [Solves, krigingMatrix, krigingSide, List.zip_append (by simp), List.zip_map',
    List.forall_mem_append]
  simp only [List.forall_mem_map, List.zip_cons_cons, List.zip_nil_right, List.forall_mem_singleton,
    dot_bordered lengths, one_mul, zero_mul, add_zero, dot_map_const 1 samples lengths]

end

end

variable {K : Type} [Euclidean K] {v : Variogram K} {samples : List (Sample K)}
  {factors : Factors K} {f : GridFrame K}

section

variable (factored : factor? (samples.length + 1) (krigingMatrix v samples) = some factors)

include factored

theorem exists_multiplier (p : Position K) : (weightsAt factors v samples p).length = samples.length ∧
    ∃ m, solve factors (krigingSide v samples p) = weightsAt factors v samples p ++ [m] := by
  obtain ⟨ws, m, solution, lengths⟩ := exists_concat_of_length_succ
    (length_solve factored (square_krigingMatrix v samples) (krigingSide v samples p))
  have weights : weightsAt factors v samples p = ws := by
    rw [weightsAt, solution, ← lengths, List.take_left]
  exact ⟨weights ▸ lengths, m, weights ▸ solution⟩

theorem solves_weights_iff {p : Position K} {ws : List K} {m : K}
    (lengths : ws.length = samples.length) :
    ws ++ [m] = solve factors (krigingSide v samples p) ↔
      (∀ a ∈ samples, dot (samples.map fun b => v.evaluate (a.distanceTo b.position)) ws + m =
        v.evaluate (a.distanceTo p)) ∧ ws.sum = 1 := by
  rw [← solves_kriging lengths]
  exact (solves_iff factored (square_krigingMatrix v samples) (by simp [krigingSide])
    (by simp [lengths])).symm

theorem sum_weightsAt (p : Position K) : (weightsAt factors v samples p).sum = 1 := by
  obtain ⟨lengths, m, solution⟩ := exists_multiplier factored p
  exact ((solves_weights_iff factored lengths).mp solution.symm).2

theorem krigingEstimate_eq (p : Position K) :
    krigingEstimate (solve factors (krigingSide v samples p)) samples =
      dot (weightsAt factors v samples p) (samples.map (·.value)) := by
  obtain ⟨lengths, m, solution⟩ := exists_multiplier factored p
  rw [solution, krigingEstimate, dot_concat (by rw [lengths, List.length_map])]

theorem krigingEstimate_const {u : K} (same : ∀ s ∈ samples, s.value = u) (p : Position K) :
    krigingEstimate (solve factors (krigingSide v samples p)) samples = u := by
  rw [krigingEstimate_eq factored, dot_comm, List.map_congr_left same,
    dot_map_const u samples (exists_multiplier factored p).1, sum_weightsAt factored, mul_one]

end

/-- Where a sample lies, the solution is that sample alone, and the multiplier is zero. -/
theorem solve_at_sample {before after : List (Sample K)} {s : Sample K} {p : Position K}
    (factored : factor? ((before ++ s :: after).length + 1)
      (krigingMatrix v (before ++ s :: after)) = some factors) (here : s.position.sameXY p = true) :
    solve factors (krigingSide v (before ++ s :: after) p) = unitWeights before after ++ [0] := by
  refine ((solves_weights_iff factored (length_unitWeights s)).mpr ⟨fun a _ => ?_, ?_⟩).symm
  · rw [dot_unitWeights, add_zero, Sample.distanceTo_congr here]
  · exact sum_unitWeights

theorem kriging_at_sample {s : Sample K} {p : Position K}
    (factored : factor? (samples.length + 1) (krigingMatrix v samples) = some factors)
    (member : s ∈ samples) (here : s.position.sameXY p = true) :
    krigingEstimate (solve factors (krigingSide v samples p)) samples = s.value ∧
      krigingVariance (solve factors (krigingSide v samples p)) (krigingSide v samples p) = 0 := by
  obtain ⟨before, after, rfl⟩ := List.append_of_mem member
  have lengths : (unitWeights before after).length = (before ++ s :: after).length :=
    length_unitWeights s
  rw [solve_at_sample factored here]
  constructor
  · rw [krigingEstimate, dot_concat (by rw [lengths, List.length_map]), dot_comm, dot_unitWeights]
  · have own : v.evaluate (s.distanceTo p) = 0 := by
      rw [← Sample.distanceTo_congr here, Sample.distanceTo_self, evaluate_zero]
    rw [krigingVariance, krigingSide, dot_append (by rw [lengths, List.length_map]), dot_comm,
      dot_unitWeights, own, dot_cons, dot_nil]
    simp [Scalar.max]

/-- With samples that are accepted and a system that can be taken apart, kriging gives both grids:
the weights of the samples add up to one at every cell, a sample at the center of a cell is
honored without error, and samples that agree are agreed with in every cell. -/
theorem kriging_honors_samples {signal : Signal} {points : List (Position K)} {values : List K}
    (quiet : signal ≠ .triggered) (accepted : Sample.ofLists points values = .ok samples)
    (factored : factor? (samples.length + 1) (krigingMatrix v samples) = some factors) :
    ∃ k, kriging v f signal points values = .ok k ∧
      (∀ row < f.height, ∀ col < f.width,
        (weightsAt factors v samples (f.cellCenter row col)).sum = 1 ∧
        k.estimate.cells[row * f.width + col]? = some (some
          (dot (weightsAt factors v samples (f.cellCenter row col)) (samples.map (·.value)))) ∧
        ∀ s ∈ samples, s.position.sameXY (f.cellCenter row col) = true →
          k.estimate.cells[row * f.width + col]? = some (some s.value) ∧
          k.variance.cells[row * f.width + col]? = some (some 0)) ∧
      ∀ u, (∀ s ∈ samples, s.value = u) →
        k.estimate.cells = Array.replicate (f.height * f.width) (some u) := by
  refine ⟨_, kriging_eq_ok quiet accepted factored, fun row hr col hc => ?_, fun u same => ?_⟩
  · dsimp only
    rw [Grid.cells_tabulate hr hc, Grid.cells_tabulate hr hc, Grid.bind_cell, Grid.bind_cell,
      krigingEstimate_eq factored]
    refine ⟨sum_weightsAt factored _, rfl, fun s member here => ?_⟩
    obtain ⟨estimate, variance⟩ := kriging_at_sample factored member here
    rw [← krigingEstimate_eq factored, estimate, variance]
    exact ⟨rfl, rfl⟩
  · refine Grid.cells_tabulate_const fun row _ col _ => ?_
    rw [Grid.bind_cell, krigingEstimate_const factored same]

/-- Two samples at centers of cells, three cells from each other and beyond the range. -/
theorem krigingMatrix_pair (nugget sill : ℝ) :
    let f : GridFrame ℝ := ⟨4, 1, ⟨0, 1, none⟩, 1⟩
    krigingMatrix ⟨.spherical, nugget, sill, 1⟩
        [⟨f.cellCenter 0 0, 10⟩, ⟨f.cellCenter 0 3, 20⟩] =
      [[0, sill, 1], [sill, 0, 1], [1, 1, 0]] := by
  intro f
  have far : Variogram.evaluate ⟨.spherical, nugget, sill, 1⟩ (3 : ℝ) = sill := by
    have beyond : Scalar.max 1 Variogram.leastRange ≤ (3 : ℝ) :=
      Scalar.max_le (by norm_num)
        ((Euclidean.ofScientific_le_one (by decide +kernel)).trans (by norm_num))
    simp [Variogram.evaluate, VariogramModel.share, beyond]
  have distance (a b : ℕ) (value : ℝ) :
      (⟨f.cellCenter 0 a, value⟩ : Sample ℝ).distanceTo (f.cellCenter 0 b) = |(a : ℝ) - b| := by
    have level : (f.cellCenter 0 a).y - (f.cellCenter 0 b).y = 0 := sub_self _
    rw [Sample.distanceTo, level, Euclidean.hypot_zero_right]
    simp [f, GridFrame.cellCenter]
  simp [krigingMatrix, distance, evaluate_zero, far]

theorem kriging_honors_samples_pair :
    let f : GridFrame ℝ := ⟨4, 1, ⟨0, 1, none⟩, 1⟩
    let v : Variogram ℝ := ⟨.spherical, 1 / 4, 1, 1⟩
    let samples : List (Sample ℝ) := [⟨f.cellCenter 0 0, 10⟩, ⟨f.cellCenter 0 3, 20⟩]
    ∃ factors, factor? 3 (krigingMatrix v samples) = some factors ∧
      ∃ k, kriging v f .absent [f.cellCenter 0 0, f.cellCenter 0 3] [10, 20] = .ok k ∧
        (weightsAt factors v samples (f.cellCenter 0 1)).sum = 1 ∧
        k.estimate.cells[3]? = some (some 20) ∧ k.variance.cells[3]? = some (some 0) := by
  intro f v samples
  have accepted : Sample.ofLists [f.cellCenter 0 0, f.cellCenter 0 3] [10, 20] = .ok samples := rfl
  obtain ⟨factors, factored⟩ := factor?_pair (K := ℝ)
  rw [← krigingMatrix_pair (1 / 4) 1] at factored
  have quiet : Signal.absent ≠ .triggered := nofun
  obtain ⟨k, computed, cells, _⟩ := kriging_honors_samples (f := f) quiet accepted factored
  refine ⟨factors, factored, k, computed, (cells 0 one_pos 1 (by decide)).1, ?_⟩
  exact (cells 0 one_pos 3 (by decide)).2.2 ⟨f.cellCenter 0 3, 20⟩ (by simp [samples])
    (Position.sameXY_self _)

end Geospatial.Interpolation
