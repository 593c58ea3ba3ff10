import Geospatial.Proofs.Interpolation.Kriging
import Geospatial.Proofs.LinearSystem.Singular

/-! Kriging of values in other units, in exact arithmetic: nugget and sill are multiplied by the
same factor. The rows of the samples are multiplied by it and the border is not, so that the weights
stay and the multiplier grows with the factor. One system is singular if and only if the other is,
but leading entries are compared to a bound that does not depend on the units. -/
namespace Geospatial

open Interpolation LinearSystem

section

variable {K : Type} [Scalar K]

/-- The variogram of values whose squares are `c` times as large. -/
def Variogram.scaled (c : K) (v : Variogram K) : Variogram K :=
  { v with nugget := c * v.nugget, sill := c * v.sill }

/-- Every value times a factor. -/
def Grid.scaled (c : K) (g : Grid K) : Grid K :=
  { g with cells := g.cells.map (Option.map (c * ·)) }

/-- The same estimates, with every variance times a factor. -/
def Interpolation.Kriging.scaled (c : K) (k : Kriging K) : Kriging K :=
  { k with variance := k.variance.scaled c }

end

section

variable {K : Type} [Exact K]

theorem Variogram.evaluate_scaled (c : K) (v : Variogram K) (h : K) :
    (v.scaled c).evaluate h = c * v.evaluate h := by
  unfold evaluate scaled
  split
  · rw [mul_zero]
  · ring

theorem Variogram.scaled_scaled {c d : K} (v : Variogram K) (inverse : d * c = 1) :
    (v.scaled c).scaled d = v := by
  simp [scaled, ← mul_assoc, inverse]

theorem Grid.tabulate_scaled (c : K) (f : GridFrame K) (content : ℕ → ℕ → K) :
    tabulate f (fun row col => some (c * content row col)) =
      (tabulate f fun row col => some (content row col)).scaled c := by
  simp only [tabulate, scaled, bind_cell, List.map_toArray, List.map_flatten, List.map_map,
    Function.comp_def, Option.map_some]

theorem Grid.compute_scaled (c : K) (f : GridFrame K) (signal : Signal) (content : ℕ → ℕ → K) :
    compute f signal (fun row col => some (c * content row col)) =
      (compute f signal fun row col => some (content row col)).map (scaled c) := by
  rcases compute_cases signal f with ⟨_, cancelled⟩ | computed
  · rw [cancelled, cancelled]
    rfl
  · rw [computed, computed, tabulate_scaled]
    rfl

end

namespace Interpolation

section

variable {K : Type} [Exact K] {v : Variogram K} {samples : List (Sample K)} {c m : K} {ws : List K}

theorem dot_map_mul_left (c : K) (us ws : List K) : dot (us.map (c * ·)) ws = c * dot us ws := by
  induction us generalizing ws with
  | nil => simp
  | cons u us ih =>
    cases ws with
    | nil => simp [dot_comm _ []]
    | cons w ws => rw [List.map_cons, dot_cons, dot_cons, ih, mul_add, mul_assoc]

theorem dot_scaled (c : K) (v : Variogram K) (h : Sample K → K) (ws : List K) :
    dot (samples.map fun s => (v.scaled c).evaluate (h s)) ws =
      c * dot (samples.map fun s => v.evaluate (h s)) ws := by
  rw [← dot_map_mul_left, List.map_map]
  simp only [Variogram.evaluate_scaled, Function.comp_def]

/-- The conditions of the samples, and that of the border. -/
theorem forall_mem_krigingMatrix (lengths : ws.length = samples.length) :
    (∀ r ∈ krigingMatrix v samples, dot r (ws ++ [m]) = 0) ↔
      (∀ a ∈ samples, dot (samples.map fun b => v.evaluate (a.distanceTo b.position)) ws + m = 0) ∧
        ws.sum = 0 := by
  simp only [krigingMatrix, List.forall_mem_append, List.forall_mem_map, List.forall_mem_singleton,
    dot_bordered lengths, dot_map_const 1 samples lengths, one_mul, zero_mul, add_zero]

/-- The multiplier alone grows with the factor. -/
theorem singular_scaled (nonzero : c ≠ 0)
    (singular : Singular (samples.length + 1) (krigingMatrix v samples)) :
    Singular (samples.length + 1) (krigingMatrix (v.scaled c) samples) := by
  obtain ⟨x, length, ⟨u, hu, apart⟩, kernel⟩ := singular
  obtain ⟨ws, m, rfl, lengths⟩ := exists_concat_of_length_succ length
  obtain ⟨conditions, balanced⟩ := (forall_mem_krigingMatrix lengths).mp kernel
  refine ⟨ws ++ [c * m], by simp [lengths], ?_, (forall_mem_krigingMatrix lengths).mpr
    ⟨fun a ha => ?_, balanced⟩⟩
  · rcases List.mem_append.mp hu with weight | multiplier
    · exact ⟨u, List.mem_append_left _ weight, apart⟩
    · rw [List.mem_singleton.mp multiplier] at apart
      exact ⟨c * m, by simp, mul_ne_zero nonzero apart⟩
  · rw [dot_scaled, ← mul_add, conditions a ha, mul_zero]

theorem singular_scaled_iff (nonzero : c ≠ 0) (v : Variogram K) (samples : List (Sample K)) :
    Singular (samples.length + 1) (krigingMatrix (v.scaled c) samples) ↔
      Singular (samples.length + 1) (krigingMatrix v samples) := by
  refine ⟨fun singular => ?_, singular_scaled nonzero⟩
  have back := singular_scaled (inv_ne_zero nonzero) singular
  rwa [Variogram.scaled_scaled v (inv_mul_cancel₀ nonzero)] at back

end

section

variable {K : Type} [Euclidean K] {v : Variogram K} {samples : List (Sample K)} {c : K}
  {factors factors' : Factors K}
  (factored : factor? (samples.length + 1) (krigingMatrix v samples) = some factors)
  (factored' : factor? (samples.length + 1) (krigingMatrix (v.scaled c) samples) = some factors')
include factored factored'

/-- The weights do not depend on the units. -/
theorem solve_scaled (p : Position K) : ∃ ws m, ws.length = samples.length ∧
    solve factors (krigingSide v samples p) = ws ++ [m] ∧
    solve factors' (krigingSide (v.scaled c) samples p) = ws ++ [c * m] := by
  obtain ⟨lengths, m, solution⟩ := exists_multiplier factored p
  obtain ⟨conditions, whole⟩ := (solves_weights_iff factored lengths).mp solution.symm
  refine ⟨_, m, lengths, solution, ((solves_weights_iff factored' lengths).mpr
    ⟨fun a ha => ?_, whole⟩).symm⟩
  rw [dot_scaled, ← mul_add, conditions a ha, Variogram.evaluate_scaled]

theorem krigingEstimate_scaled (p : Position K) :
    krigingEstimate (solve factors' (krigingSide (v.scaled c) samples p)) samples =
      krigingEstimate (solve factors (krigingSide v samples p)) samples := by
  obtain ⟨ws, m, lengths, solution, solution'⟩ := solve_scaled factored factored' p
  have fits : ws.length = (samples.map (·.value)).length := by rw [List.length_map, lengths]
  rw [solution, solution', krigingEstimate, krigingEstimate, dot_concat fits, dot_concat fits]

theorem krigingVariance_scaled (positive : 0 < c) (p : Position K) :
    krigingVariance (solve factors' (krigingSide (v.scaled c) samples p))
        (krigingSide (v.scaled c) samples p) =
      c * krigingVariance (solve factors (krigingSide v samples p)) (krigingSide v samples p) := by
  obtain ⟨ws, m, lengths, solution, solution'⟩ := solve_scaled factored factored' p
  rw [solution, solution', krigingVariance, krigingVariance, dot_comm, dot_comm (ws ++ [m])]
  simp only [krigingSide, dot_bordered lengths, dot_scaled, one_mul, ← mul_add]
  rw [← Exact.max_mul_left positive, mul_zero]

theorem kriging_scaled_of_factored (positive : 0 < c) {points : List (Position K)}
    {values : List K} (accepted : Sample.ofLists points values = .ok samples) (f : GridFrame K)
    (signal : Signal) : kriging (v.scaled c) f signal points values =
      (kriging v f signal points values).map (Kriging.scaled c) := by
  simp only [kriging, accepted, bind, Except.bind, factored, factored',
    krigingEstimate_scaled factored factored',
    krigingVariance_scaled factored factored' positive, Grid.compute_scaled]
  rcases Grid.compute_cases signal f with ⟨_, cancelled⟩ | computed
  · simp only [cancelled]
    rfl
  · simp only [computed]
    cases signal.check <;> rfl

end

theorem exists_kriging_iff {K : Type} [Euclidean K] {v : Variogram K} {f : GridFrame K}
    {signal : Signal} {points : List (Position K)} {values : List K} {samples : List (Sample K)}
    (quiet : signal ≠ .triggered) (accepted : Sample.ofLists points values = .ok samples) :
    (∃ k, kriging v f signal points values = .ok k) ↔
      ¬Singular (samples.length + 1) (krigingMatrix v samples) ∧
        ¬Misjudged (samples.length + 1) (krigingMatrix v samples) := by
  rw [← not_or, ← factor?_eq_none_iff (square_krigingMatrix v samples)]
  constructor
  · rintro ⟨k, computed⟩ failed
    rw [kriging_eq_refuse accepted failed] at computed
    contradiction
  · intro taken
    obtain ⟨factors, factored⟩ := Option.ne_none_iff_exists'.mp taken
    exact ⟨_, kriging_eq_ok quiet accepted factored⟩

/-- Both systems are singular or none is; a run that fails for another reason is misjudged. -/
theorem kriging_scaled_or_misjudged {K : Type} [Euclidean K] {c : K} (positive : 0 < c)
    (v : Variogram K) (f : GridFrame K) (signal : Signal) (points : List (Position K))
    (values : List K) :
    kriging (v.scaled c) f signal points values =
        (kriging v f signal points values).map (Kriging.scaled c) ∨
      ∃ samples, Sample.ofLists points values = .ok samples ∧ ∃ w, (w = v ∨ w = v.scaled c) ∧
        kriging w f signal points values = Outcome.refuse .singularSystem ∧
        Misjudged (samples.length + 1) (krigingMatrix w samples) := by
  cases accepted : Sample.ofLists points values with
  | error e =>
    left
    simp only [kriging, accepted, bind, Except.bind]
    rfl
  | ok samples =>
    have square (w : Variogram K) := square_krigingMatrix w samples
    have both := singular_scaled_iff positive.ne' v samples
    cases factored : factor? (samples.length + 1) (krigingMatrix v samples) with
    | none =>
      cases factored' : factor? (samples.length + 1) (krigingMatrix (v.scaled c) samples) with
      | none =>
        left
        rw [kriging_eq_refuse accepted factored, kriging_eq_refuse accepted factored']
        rfl
      | some factors' =>
        have regular := both.not.mp (not_singular_of_factor? (square _) factored')
        have misjudged := ((factor?_eq_none_iff (square v)).mp factored).resolve_left regular
        exact .inr ⟨samples, rfl, v, .inl rfl, kriging_eq_refuse accepted factored, misjudged⟩
    | some factors =>
      have regular := not_singular_of_factor? (square v) factored
      cases factored' : factor? (samples.length + 1) (krigingMatrix (v.scaled c) samples) with
      | none =>
        have misjudged :=
          ((factor?_eq_none_iff (square _)).mp factored').resolve_left (both.not.mpr regular)
        exact .inr ⟨samples, rfl, _, .inr rfl, kriging_eq_refuse accepted factored', misjudged⟩
      | some factors' =>
        exact .inl (kriging_scaled_of_factored factored factored' positive accepted ..)

/-- Kriging with nugget and sill times a factor gives the same estimates, and the variances times
the factor, or is refused for the same reason; unless one of the two systems is misjudged, that is,
has one solution and is refused as singular since a leading entry is below the least one that
counts. A system of accepted samples is solved if it is neither singular nor misjudged. -/
theorem kriging_scaled {K : Type} [Euclidean K] {c : K} (positive : 0 < c) (v : Variogram K)
    (f : GridFrame K) (signal : Signal) (points : List (Position K)) (values : List K) :
    (kriging (v.scaled c) f signal points values =
        (kriging v f signal points values).map (Kriging.scaled c) ∨
      ∃ samples, Sample.ofLists points values = .ok samples ∧ ∃ w, (w = v ∨ w = v.scaled c) ∧
        kriging w f signal points values = Outcome.refuse .singularSystem ∧
        Misjudged (samples.length + 1) (krigingMatrix w samples)) ∧
      ∀ samples, Sample.ofLists points values = .ok samples → signal ≠ .triggered →
        ((∃ k, kriging v f signal points values = .ok k) ↔
          ¬Singular (samples.length + 1) (krigingMatrix v samples) ∧
            ¬Misjudged (samples.length + 1) (krigingMatrix v samples)) :=
  ⟨kriging_scaled_or_misjudged positive v f signal points values,
    fun _ accepted quiet => exists_kriging_iff quiet accepted⟩

/-- Two samples whose system is taken apart as long as the sill is not too small. -/
theorem kriging_pair (nugget : ℝ) {sill : ℝ} (positive : 0 < sill) (most : sill ≤ 1) :
    let f : GridFrame ℝ := ⟨4, 1, ⟨0, 1, none⟩, 1⟩
    let r := kriging ⟨.spherical, nugget, sill, 1⟩ f .absent
      [f.cellCenter 0 0, f.cellCenter 0 3] [10, 20]
    if sill < leastPivot then r = Outcome.refuse .singularSystem else ∃ k, r = .ok k := by
  intro f r
  have accepted : Sample.ofLists [f.cellCenter 0 0, f.cellCenter 0 3] [10, 20] =
      .ok [⟨f.cellCenter 0 0, 10⟩, ⟨f.cellCenter 0 3, 20⟩] := rfl
  have factored := factor?_pair_eq_none positive most
  rw [← krigingMatrix_pair nugget sill] at factored
  split
  · rename_i small
    exact kriging_eq_refuse accepted (factored.mpr small)
  · rename_i large
    obtain ⟨factors, taken⟩ := Option.ne_none_iff_exists'.mp (factored.not.mpr large)
    exact ⟨_, kriging_eq_ok nofun accepted taken⟩

theorem kriging_scaled_pair :
    let f : GridFrame ℝ := ⟨4, 1, ⟨0, 1, none⟩, 1⟩
    let v : Variogram ℝ := ⟨.spherical, 1 / 8, 1 / 4, 1⟩
    let samples : List (Sample ℝ) := [⟨f.cellCenter 0 0, 10⟩, ⟨f.cellCenter 0 3, 20⟩]
    (0 : ℝ) < 2 ∧ ¬Singular 3 (krigingMatrix v samples) ∧ ¬Misjudged 3 (krigingMatrix v samples) ∧
      ∃ k, kriging v f .absent [f.cellCenter 0 0, f.cellCenter 0 3] [10, 20] = .ok k ∧
        kriging (v.scaled 2) f .absent [f.cellCenter 0 0, f.cellCenter 0 3] [10, 20] =
          .ok (k.scaled 2) := by
  intro f v samples
  obtain ⟨k, first⟩ : ∃ k, kriging v f .absent [f.cellCenter 0 0, f.cellCenter 0 3] [10, 20] =
      .ok k := by
    have pair := kriging_pair (1 / 8) (show (0 : ℝ) < 1 / 4 by norm_num) (by norm_num)
    rwa [leastPivot_eq, if_neg (by norm_num)] at pair
  obtain ⟨k', second⟩ : ∃ k,
      kriging (v.scaled 2) f .absent [f.cellCenter 0 0, f.cellCenter 0 3] [10, 20] = .ok k := by
    have pair := kriging_pair (2 * (1 / 8)) (show (0 : ℝ) < 2 * (1 / 4) by norm_num) (by norm_num)
    rwa [leastPivot_eq, if_neg (by norm_num)] at pair
  obtain ⟨related, solved⟩ :=
    kriging_scaled two_pos v f .absent [f.cellCenter 0 0, f.cellCenter 0 3] [10, 20]
  obtain ⟨regular, judged⟩ := (solved samples rfl nofun).mp ⟨k, first⟩
  refine ⟨two_pos, regular, judged, k, first, ?_⟩
  rcases related with same | ⟨_, _, _, rfl | rfl, refused, _⟩
  · rw [same, first]
    rfl
  · rw [first] at refused
    contradiction
  · rw [second] at refused
    contradiction

/-- With a sill of one kriging succeeds, and with one of a ten-trillionth it is refused. -/
theorem kriging_refuses_small_sill :
    let f : GridFrame ℝ := ⟨4, 1, ⟨0, 1, none⟩, 1⟩
    let v : Variogram ℝ := ⟨.spherical, 0, 1, 1⟩
    let c : ℝ := 1 / 10 ^ 13
    (f.cellCenter 0 0).sameXY (f.cellCenter 0 3) = false ∧ 0 < c ∧
      (∃ k, kriging v f .absent [f.cellCenter 0 0, f.cellCenter 0 3] [10, 20] = .ok k) ∧
      kriging (v.scaled c) f .absent [f.cellCenter 0 0, f.cellCenter 0 3] [10, 20] =
        Outcome.refuse .singularSystem := by
  intro f v c
  refine ⟨?_, by norm_num [c], ?_, ?_⟩
  · rw [Bool.eq_false_iff, ne_eq, Position.sameXY_iff]
    norm_num [f, GridFrame.cellCenter]
  · have pair := kriging_pair 0 (show (0 : ℝ) < 1 from one_pos) le_rfl
    rwa [leastPivot_eq, if_neg (by norm_num)] at pair
  · have pair := kriging_pair (c * 0) (show 0 < c * 1 by norm_num [c]) (by norm_num [c])
    rwa [leastPivot_eq, if_pos (by norm_num [c])] at pair

end Interpolation

end Geospatial
