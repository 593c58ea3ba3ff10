import Mathlib.Algebra.Order.BigOperators.Group.List
import Mathlib.Analysis.SpecialFunctions.Complex.Arg
import Geospatial.Proofs.Grid
import Geospatial.Proofs.Interpolation.Samples
import Geospatial.Proofs.Scalar.Real

/-! Interpolation by inverse distances, in exact arithmetic. A mean by positive weights stays
between the values that it is made of, whatever their order, and there is one if and only if there
is a value. So a cell away from all samples is void or between the samples within the radius, and a
cell at a sample has its value. -/
namespace Geospatial.Interpolation

section

variable {K : Type} [Exact K] {ws vs : List (K × K)}

theorem weightedMean?_eq (ws : List (K × K)) : weightedMean? ws =
    if 0 < (ws.map (·.1)).sum then
      some ((ws.map fun w => w.1 * w.2).sum / (ws.map (·.1)).sum)
    else none := by
  simp only [weightedMean?, Exact.sum_eq]

/-- The order of the values does not matter. -/
theorem weightedMean?_perm (perm : ws.Perm vs) : weightedMean? ws = weightedMean? vs := by
  rw [weightedMean?_eq, weightedMean?_eq, (perm.map _).sum_eq, (perm.map _).sum_eq]

variable (positive : ∀ w ∈ ws, 0 < w.1)
include positive

theorem sum_weights_pos (filled : ws ≠ []) : 0 < (ws.map (·.1)).sum := by
  refine List.sum_pos _ (List.forall_mem_map.mpr positive) ?_
  rwa [ne_eq, List.map_eq_nil_iff]

theorem weightedMean?_eq_none : weightedMean? ws = none ↔ ws = [] := by
  constructor
  · intro meanless
    by_contra filled
    rw [weightedMean?_eq, if_pos (sum_weights_pos positive filled)] at meanless
    contradiction
  · rintro rfl
    exact (weightedMean?_eq []).trans (if_neg (lt_irrefl 0))

/-- The mean is no farther out than the values. -/
theorem weightedMean?_between {lo hi m : K} (bounds : ∀ w ∈ ws, lo ≤ w.2 ∧ w.2 ≤ hi)
    (mean : weightedMean? ws = some m) : lo ≤ m ∧ m ≤ hi := by
  have filled : ws ≠ [] := by
    rintro rfl
    rw [(weightedMean?_eq_none positive).mpr rfl] at mean
    contradiction
  have total := sum_weights_pos positive filled
  rw [weightedMean?_eq, if_pos total] at mean
  rw [← Option.some.inj mean, le_div_iff₀ total, div_le_iff₀ total, ← List.sum_map_mul_left,
    ← List.sum_map_mul_left]
  constructor <;> refine List.sum_le_sum fun w hw => ?_ <;> rw [mul_comm w.1]
  · exact mul_le_mul_of_nonneg_right (bounds w hw).1 (positive w hw).le
  · exact mul_le_mul_of_nonneg_right (bounds w hw).2 (positive w hw).le

end

section

variable {K : Type} [Scalar K] {f : GridFrame K} {signal : Signal} {points : List (Position K)}
  {values : List K} {samples : List (Sample K)} {power : K} {radius : Option K}

/-- The sample is no farther away than the radius, if there is one. -/
def Within (radius : Option K) (p : Position K) (s : Sample K) : Prop :=
  ∀ limit ∈ radius, s.distanceTo p ≤ limit

/-- No sample lies right at the position. -/
def Away (samples : List (Sample K)) (p : Position K) : Prop :=
  ∀ s ∈ samples, s.position.sameXY p = false

/-- The samples that count, with their weights. -/
def weighted (samples : List (Sample K)) (power : K) (radius : Option K) (p : Position K) :
    List (K × K) :=
  (samples.filter fun s => radius.all fun limit => s.distanceTo p ≤ limit).map fun s =>
    (Scalar.pow (s.distanceTo p) (-power), s.value)

/-- What a surface has at a position, given what it is made of. -/
structure Interpolates (samples : List (Sample K)) (radius : Option K) (p : Position K)
    (c : Option K) : Prop where
  here {s : Sample K} : samples.find? (fun s => s.position.sameXY p) = some s → c = some s.value
  void : Away samples p → (c = none ↔ ∀ s ∈ samples, ¬Within radius p s)
  between {lo hi v : K} : Away samples p → c = some v →
    (∀ s ∈ samples, Within radius p s → lo ≤ s.value ∧ s.value ≤ hi) → lo ≤ v ∧ v ≤ hi

theorem inverseDistances_eq_ok (quiet : signal ≠ .triggered)
    (accepted : Sample.ofLists points values = .ok samples)
    (finite : Scalar.isFinite power = true) (positive : 0 < power) :
    inverseDistances f signal power radius points values = .ok
      (Grid.tabulate f fun row col =>
        inverseDistance? samples power radius (f.cellCenter row col)) := by
  simp only [inverseDistances, accepted, bind, Except.bind, finite, positive,
    Grid.compute_eq_ok quiet]
  rfl

theorem within_iff {p : Position K} {s : Sample K} :
    (radius.all fun limit => s.distanceTo p ≤ limit) = true ↔ Within radius p s := by
  cases radius <;> simp [Within]

theorem mem_weighted {p : Position K} {w : K × K} : w ∈ weighted samples power radius p ↔
    ∃ s ∈ samples, Within radius p s ∧ (Scalar.pow (s.distanceTo p) (-power), s.value) = w := by
  simp [weighted, within_iff, and_assoc]

theorem weighted_eq_nil {p : Position K} :
    weighted samples power radius p = [] ↔ ∀ s ∈ samples, ¬Within radius p s := by
  simp [weighted, within_iff]

end

variable {K : Type} [Euclidean K] {f : GridFrame K} {signal : Signal} {points : List (Position K)}
  {values : List K} {samples moved : List (Sample K)} {power : K} {radius : Option K}
  {p : Position K}

/-- A sample at the position decides, however small the radius. -/
theorem inverseDistance?_eq (samples : List (Sample K)) (power : K) (radius : Option K)
    (p : Position K) : inverseDistance? samples power radius p =
      match samples.find? fun s => s.position.sameXY p with
      | some s => some s.value
      | none => weightedMean? (weighted samples power radius p) := by
  have here (s : Sample K) : (s.distanceTo p == 0) = s.position.sameXY p := by
    rw [Bool.eq_iff_iff, ← Sample.distanceTo_eq_zero]
    exact Exact.beq_iff_eq _ _
  simp only [inverseDistance?, here]
  rfl

theorem inverseDistance?_of_away (away : Away samples p) :
    inverseDistance? samples power radius p = weightedMean? (weighted samples power radius p) := by
  have apart : samples.find? (fun s => s.position.sameXY p) = none :=
    List.find?_eq_none.mpr fun s hs => Bool.not_eq_true _ ▸ away s hs
  rw [inverseDistance?_eq, apart]

theorem inverseDistance?_perm (perm : moved.Perm samples) (away : Away samples p) :
    inverseDistance? moved power radius p = inverseDistance? samples power radius p := by
  have still : Away moved p := fun s hs => away s (perm.mem_iff.mp hs)
  rw [inverseDistance?_of_away away, inverseDistance?_of_away still]
  exact weightedMean?_perm ((perm.filter _).map _)

/-- The weight is positive at every distance but zero. -/
theorem interpolates_inverseDistance? (weights : ∀ d : K, 0 < d → 0 < Scalar.pow d (-power))
    (samples : List (Sample K)) (radius : Option K) (p : Position K) :
    Interpolates samples radius p (inverseDistance? samples power radius p) := by
  have positive (away : Away samples p) : ∀ w ∈ weighted samples power radius p, 0 < w.1 := by
    intro w hw
    obtain ⟨s, hs, -, rfl⟩ := mem_weighted.mp hw
    exact weights _ (Sample.distanceTo_pos (away s hs))
  constructor
  case here =>
    intro s found
    rw [inverseDistance?_eq, found]
  case void =>
    intro away
    rw [inverseDistance?_of_away away, weightedMean?_eq_none (positive away), weighted_eq_nil]
  case between =>
    intro lo hi v away mean bounds
    rw [inverseDistance?_of_away away] at mean
    refine weightedMean?_between (positive away) (fun w hw => ?_) mean
    obtain ⟨s, hs, near, rfl⟩ := mem_weighted.mp hw
    exact bounds s hs near

/-- Where powers of distances are positive, interpolation of accepted samples gives a grid: a cell
with a sample at its center has the value of the first one; any other is void if and only if no
sample is within the radius, and otherwise between the values of those that are, whatever the order
of the samples. -/
theorem inverseDistances_interpolates (quiet : signal ≠ .triggered)
    (accepted : Sample.ofLists points values = .ok samples)
    (finite : Scalar.isFinite power = true) (positive : 0 < power)
    (weights : ∀ d : K, 0 < d → 0 < Scalar.pow d (-power)) :
    ∃ g, inverseDistances f signal power radius points values = .ok g ∧
      (∀ row < f.height, ∀ col < f.width, ∃ c, g.cells[row * f.width + col]? = some c ∧
        Interpolates samples radius (f.cellCenter row col) c) ∧
      ∀ moved : List (Sample K), moved.Perm samples → ∃ h,
        inverseDistances f signal power radius (moved.map (·.position)) (moved.map (·.value)) =
          .ok h ∧
        ∀ row < f.height, ∀ col < f.width, Away samples (f.cellCenter row col) →
          h.cells[row * f.width + col]? = g.cells[row * f.width + col]? := by
  refine ⟨_, inverseDistances_eq_ok quiet accepted finite positive, fun row hr col hc => ?_,
    fun moved perm => ⟨_, inverseDistances_eq_ok quiet (Sample.ofLists_perm accepted perm) finite
      positive, fun row hr col hc away => ?_⟩⟩
  · refine ⟨_, Grid.cells_tabulate hr hc, ?_⟩
    rw [Grid.bind_cell]
    exact interpolates_inverseDistance? weights ..
  · rw [Grid.cells_tabulate hr hc, Grid.cells_tabulate hr hc, inverseDistance?_perm perm away]

/-- Two samples at the center of the first of five cells and one at that of the third, in sight of
their neighbors only. -/
theorem inverseDistances_interpolates_row :
    let f : GridFrame ℝ := ⟨5, 1, ⟨0, 1, none⟩, 1⟩
    ∃ g, inverseDistances f .absent 2 (some 1)
        [f.cellCenter 0 0, f.cellCenter 0 0, f.cellCenter 0 2] [10, 30, 20] = .ok g ∧
      g.cells[0]? = some (some 10) ∧ (∃ v, g.cells[1]? = some (some v) ∧ 10 ≤ v ∧ v ≤ 30) ∧
      g.cells[4]? = some none := by
  intro f
  let samples : List (Sample ℝ) :=
    [⟨f.cellCenter 0 0, 10⟩, ⟨f.cellCenter 0 0, 30⟩, ⟨f.cellCenter 0 2, 20⟩]
  have accepted : Sample.ofLists [f.cellCenter 0 0, f.cellCenter 0 0, f.cellCenter 0 2] [10, 30, 20] =
      .ok samples := rfl
  have distance (a b : ℕ) (value : ℝ) :
      (⟨f.cellCenter 0 a, value⟩ : Sample ℝ).distanceTo (f.cellCenter 0 b) = |(a : ℝ) - b| := by
    have level : (f.cellCenter 0 a).y = (f.cellCenter 0 b).y := rfl
    rw [Sample.distanceTo_of_level level]
    simp [f, GridFrame.cellCenter]
  have apart {a b : ℕ} (differ : a ≠ b) : (f.cellCenter 0 a).sameXY (f.cellCenter 0 b) = false := by
    rw [← Bool.not_eq_true, ← Sample.distanceTo_eq_zero (s := ⟨f.cellCenter 0 a, 0⟩), distance,
      abs_eq_zero, sub_eq_zero, Nat.cast_inj]
    exact differ
  have quiet : Signal.absent ≠ .triggered := nofun
  obtain ⟨g, computed, cells, _⟩ := @inverseDistances_interpolates ℝ _ f _ _ _ samples 2 (some 1)
    quiet accepted rfl two_pos fun d hd => Real.rpow_pos_of_pos hd _
  obtain ⟨c₀, at₀, first⟩ := cells 0 one_pos 0 (by decide)
  obtain ⟨c₁, at₁, second⟩ := cells 0 one_pos 1 (by decide)
  obtain ⟨c₄, at₄, fifth⟩ := cells 0 one_pos 4 (by decide)
  refine ⟨g, computed, ?_, ?_, ?_⟩
  · rw [← first.here (s := ⟨f.cellCenter 0 0, 10⟩) (by simp [samples, Position.sameXY_self])]
    exact at₀
  · have away : Away samples (f.cellCenter 0 1) := by simp [Away, samples, apart]
    have seen : c₁ ≠ none := fun void =>
      (second.void away).mp void ⟨f.cellCenter 0 0, 10⟩ (by simp [samples])
        (by simp [Within, distance])
    obtain ⟨v, rfl⟩ := Option.ne_none_iff_exists'.mp seen
    refine ⟨v, at₁, second.between away rfl ?_⟩
    norm_num [samples]
  · have away : Away samples (f.cellCenter 0 4) := by simp [Away, samples, apart]
    rw [← (fifth.void away).mpr (by norm_num [Within, samples, distance])]
    exact at₄

end Geospatial.Interpolation
