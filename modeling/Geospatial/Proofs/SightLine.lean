import Mathlib.Algebra.Order.Field.Basic
import Mathlib.Algebra.Order.Field.Rat
import Mathlib.Data.List.Chain
import Mathlib.Data.List.Range
import Mathlib.Logic.Function.Iterate
import Mathlib.Order.Interval.Set.UnorderedInterval
import Mathlib.Tactic.FieldSimp
import Mathlib.Tactic.Linarith
import Mathlib.Tactic.Ring
import Geospatial.Viewshed

/-! The walk from one cell to another. Its error term is the product by which it is off the straight
line, and no step lets that grow beyond half the longer axis. So the walk takes one cell of the
longer axis with each step, is never more than half a cell off along the shorter one, and comes to
the goal itself: it cannot pass beside it. -/
namespace Geospatial.SightLine

/-- The row at which the straight line from one cell to another passes a column. -/
def idealRow (r₀ c₀ r₁ c₁ c : ℤ) : ℚ := r₀ + (c - c₀) * ((r₁ - r₀) / (c₁ - c₀))

/-- From a cell to one beside it, and not away from the goal on either axis. -/
structure Onward (goal a b : ℤ × ℤ) : Prop where
  row : |b.1 - a.1| ≤ 1
  col : |b.2 - a.2| ≤ 1
  rowToward : b.1 ∈ Set.uIcc a.1 goal.1
  colToward : b.2 ∈ Set.uIcc a.2 goal.2

section Axes

variable {a b i j k m long short s t : ℤ}

theorem mem_uIcc_of_le (unit : s = 1 ∨ s = -1) (le : i ≤ j) (most : j ≤ m) :
    a + j * s ∈ Set.uIcc (a + i * s) (a + m * s) := by
  rw [Set.mem_uIcc]
  rcases unit with rfl | rfl <;> omega

theorem abs_step_le (unit : s = 1 ∨ s = -1) (le : i ≤ j) (next : j ≤ i + 1) :
    |a + j * s - (a + i * s)| ≤ 1 := by
  rw [abs_le]
  rcases unit with rfl | rfl <;> omega

/-- What is nearly in proportion stays within the whole, and comes to it in the end. -/
theorem part_le (near : |2 * (i * long - k * short)| ≤ long) (positive : 0 < long)
    (inside : k ≤ long) (nonneg : 0 ≤ short) : i ≤ short ∧ (k = long → i = short) := by
  obtain ⟨low, high⟩ := abs_le.mp near
  constructor
  · have share : k * short ≤ long * short := mul_le_mul_of_nonneg_right inside nonneg
    nlinarith
  · rintro rfl
    apply le_antisymm <;> nlinarith

/-- What is nearly in proportion lies within half a cell of the line. -/
theorem abs_sub_idealRow_le (hs : s = 1 ∨ s = -1) (ht : t = 1 ∨ t = -1)
    (near : |2 * (i * long - k * short)| ≤ long) (positive : 0 < long) :
    |((a + i * s : ℤ) : ℚ) -
      idealRow a b (a + short * s : ℤ) (b + long * t : ℤ) (b + k * t : ℤ)| ≤ 1 / 2 := by
  have long_pos : (0 : ℚ) < long := Int.cast_pos.mpr positive
  have size : |((2 * (i * long - k * short) : ℤ) : ℚ)| ≤ long := by
    rw [← Int.cast_abs]
    exact Int.cast_le.mpr near
  have off : ((a + i * s : ℤ) : ℚ) -
      idealRow a b (a + short * s : ℤ) (b + long * t : ℤ) (b + k * t : ℤ) =
        s * (((2 * (i * long - k * short) : ℤ) : ℚ) / (2 * long)) := by
    simp only [idealRow]
    push_cast
    simp only [add_sub_cancel_left]
    rcases ht with rfl | rfl <;> push_cast <;> field_simp <;> ring
  have unit : |(s : ℚ)| = 1 := by
    rcases hs with rfl | rfl <;> simp
  rw [off, abs_mul, unit, one_mul, abs_div, abs_of_pos (mul_pos two_pos long_pos),
    div_le_div_iff₀ (mul_pos two_pos long_pos) two_pos]
  linarith

end Axes

namespace Slant

variable {l : Slant} {r c : ℤ} {i j k : ℕ}

/-- By how much a way of `i` rows and `j` columns is off the line, times the longer axis. -/
def drift (l : Slant) (i j : ℕ) : ℤ := i * l.cols - j * l.rows

/-- The stage after a way of `i` rows and `j` columns. -/
def stage (l : Slant) (r c : ℤ) (i j : ℕ) : Stage where
  row := r + i * l.rowStep
  col := c + j * l.colStep
  error := l.cols - l.rows + l.drift i j

theorem start_eq_stage (l : Slant) (r c : ℤ) : l.start r c = l.stage r c 0 0 := by
  simp [start, stage, drift]

def Downward (l : Slant) (i j : ℕ) : Prop := l.cols + 2 * l.drift i j < 2 * l.rows

def Sideways (l : Slant) (i j : ℕ) : Prop := l.rows < 2 * l.cols + 2 * l.drift i j

instance : Decidable (l.Downward i j) := inferInstanceAs (Decidable (_ < _))

instance : Decidable (l.Sideways i j) := inferInstanceAs (Decidable (_ < _))

theorem advance_stage (l : Slant) (r c : ℤ) (i j : ℕ) : l.advance (l.stage r c i j) =
    l.stage r c (if l.Downward i j then i + 1 else i) (if l.Sideways i j then j + 1 else j) := by
  have down : 2 * (l.stage r c i j).error < l.cols ↔ l.Downward i j := by
    simp only [stage, Downward]
    omega
  have sideways : -l.rows < 2 * (l.stage r c i j).error ↔ l.Sideways i j := by
    simp only [stage, Sideways]
    omega
  simp only [advance, down, sideways]
  split <;> split <;> simp only [stage, drift, Stage.mk.injEq, Nat.cast_succ]
  all_goals grind

/-- A way of `k` steps that keeps to the line: it has one cell of the longer axis for each of them,
and is at most half a cell off. -/
structure Keeps (l : Slant) (k i j : ℕ) : Prop where
  flat : l.rows ≤ l.cols → j = k
  steep : l.cols ≤ l.rows → i = k
  near : |2 * l.drift i j| ≤ max l.rows l.cols

/-- The line leads from a cell to its goal. -/
structure Leads (l : Slant) (r c : ℤ) : Prop where
  rows_nonneg : 0 ≤ l.rows
  cols_nonneg : 0 ≤ l.cols
  rowStep : l.rowStep = 1 ∨ l.rowStep = -1
  colStep : l.colStep = 1 ∨ l.colStep = -1
  goal : l.goal = (r + l.rows * l.rowStep, c + l.cols * l.colStep)

theorem leads_ofEnds (r₀ c₀ r₁ c₁ : ℤ) : (ofEnds r₀ c₀ r₁ c₁).Leads r₀ c₀ := by
  constructor <;> simp only [ofEnds, Prod.mk.injEq] <;> grind

namespace Keeps

/-- Both axes are the longer one of a diagonal line, which is never left. -/
theorem drift_of_diagonal (keeps : l.Keeps k i j) (diagonal : l.rows = l.cols) :
    l.drift i j = 0 := by
  rw [drift, keeps.flat diagonal.le, keeps.steep diagonal.ge, diagonal, sub_self]

theorem downward (keeps : l.Keeps k i j) (steep : l.cols ≤ l.rows) (moves : 0 < l.rows) :
    l.Downward i j := by
  have near := (abs_le.mp keeps.near).2
  have diagonal := keeps.drift_of_diagonal
  rw [Downward]
  omega

theorem sideways (keeps : l.Keeps k i j) (flat : l.rows ≤ l.cols) (moves : 0 < l.cols) :
    l.Sideways i j := by
  have near := (abs_le.mp keeps.near).1
  have diagonal := keeps.drift_of_diagonal
  rw [Sideways]
  omega

theorem near_flat (keeps : l.Keeps k i j) (flat : l.rows ≤ l.cols) :
    |2 * (i * l.cols - j * l.rows)| ≤ l.cols := by
  have near := keeps.near
  rwa [max_eq_right flat] at near

theorem near_steep (keeps : l.Keeps k i j) (steep : l.cols ≤ l.rows) :
    |2 * (j * l.rows - i * l.cols)| ≤ l.rows := by
  have near := keeps.near
  rwa [max_eq_left steep, drift, ← abs_neg, ← mul_neg, neg_sub] at near

variable (leads : l.Leads r c)
include leads

theorem advance (keeps : l.Keeps k i j) (moves : 0 < max l.rows l.cols) :
    l.Keeps (k + 1) (if l.Downward i j then i + 1 else i)
      (if l.Sideways i j then j + 1 else j) := by
  have hr := leads.rows_nonneg
  have hc := leads.cols_nonneg
  have near := abs_le.mp keeps.near
  have diagonal := keeps.drift_of_diagonal
  refine ⟨fun flat => ?_, fun steep => ?_, abs_le.mpr ?_⟩
  · rw [if_pos (keeps.sideways flat (by omega)), keeps.flat flat]
  · rw [if_pos (keeps.downward steep (by omega)), keeps.steep steep]
  · have next : l.drift (if l.Downward i j then i + 1 else i) (if l.Sideways i j then j + 1 else j) =
        l.drift i j + (if l.Downward i j then l.cols else 0) -
          if l.Sideways i j then l.rows else 0 := by
      split <;> split <;> grind [drift]
    rw [next]
    simp only [Downward, Sideways]
    omega

theorem inside (keeps : l.Keeps k i j) (early : (k : ℤ) ≤ max l.rows l.cols) :
    (i : ℤ) ≤ l.rows ∧ (j : ℤ) ≤ l.cols ∧
      ((k : ℤ) = max l.rows l.cols → (i : ℤ) = l.rows ∧ (j : ℤ) = l.cols) := by
  have hr := leads.rows_nonneg
  have hc := leads.cols_nonneg
  rcases (le_max_of_le_left hr : 0 ≤ max l.rows l.cols).eq_or_lt with still | moves
  · have down := keeps.steep (by omega)
    have sideways := keeps.flat (by omega)
    omega
  · rcases le_total l.rows l.cols with flat | steep
    · have near := keeps.near_flat flat
      obtain rfl := keeps.flat flat
      rw [max_eq_right flat] at moves early ⊢
      obtain ⟨le, eq⟩ := part_le near moves early hr
      exact ⟨le, early, fun last => ⟨eq last, last⟩⟩
    · have near := keeps.near_steep steep
      obtain rfl := keeps.steep steep
      rw [max_eq_left steep] at moves early ⊢
      obtain ⟨le, eq⟩ := part_le near moves early hc
      exact ⟨early, le, fun last => ⟨last, eq last⟩⟩

end Keeps

namespace Leads

variable (leads : l.Leads r c)
include leads

/-- After `k` steps, as long as the goal has not been left behind. -/
theorem exists_keeps (early : (k : ℤ) ≤ max l.rows l.cols) :
    ∃ i j, l.Keeps k i j ∧ l.advance^[k] (l.start r c) = l.stage r c i j := by
  induction k with
  | zero =>
    refine ⟨0, 0, ⟨fun _ => rfl, fun _ => rfl, ?_⟩, start_eq_stage l r c⟩
    simp [drift, leads.rows_nonneg]
  | succ k ih =>
    obtain ⟨i, j, keeps, here⟩ := ih (by omega)
    refine ⟨_, _, keeps.advance leads (by omega), ?_⟩
    rw [Function.iterate_succ_apply', here, advance_stage]

theorem stage_cell_eq_goal : (l.stage r c i j).cell = l.goal ↔
    (i : ℤ) = l.rows ∧ (j : ℤ) = l.cols := by
  rw [leads.goal, Stage.cell, Prod.mk.injEq]
  rcases leads.rowStep with hr | hr <;> rcases leads.colStep with hc | hc <;>
    simp only [stage, hr, hc] <;> omega

/-- The goal is reached by as many steps as the longer axis has cells, and not before. -/
theorem cell_eq_goal_iff (early : (k : ℤ) ≤ max l.rows l.cols) :
    (l.advance^[k] (l.start r c)).cell = l.goal ↔ (k : ℤ) = max l.rows l.cols := by
  obtain ⟨i, j, keeps, here⟩ := leads.exists_keeps early
  obtain ⟨-, -, last⟩ := keeps.inside leads early
  rw [here, leads.stage_cell_eq_goal]
  refine ⟨fun ⟨hi, hj⟩ => ?_, last⟩
  rcases le_total l.rows l.cols with flat | steep
  · rw [max_eq_right flat, ← keeps.flat flat, hj]
  · rw [max_eq_left steep, ← keeps.steep steep, hi]

theorem onward (early : (k : ℤ) < max l.rows l.cols) : Onward l.goal
    (l.advance^[k] (l.start r c)).cell (l.advance^[k + 1] (l.start r c)).cell := by
  obtain ⟨i, j, keeps, here⟩ := leads.exists_keeps early.le
  have moves : 0 < max l.rows l.cols := (Int.natCast_nonneg k).trans_lt early
  obtain ⟨rows, cols, -⟩ := (keeps.advance leads moves).inside leads (by omega)
  rw [Function.iterate_succ_apply', here, advance_stage, leads.goal]
  constructor
  · exact abs_step_le leads.rowStep (by split <;> omega) (by split <;> omega)
  · exact abs_step_le leads.colStep (by split <;> omega) (by split <;> omega)
  · exact mem_uIcc_of_le leads.rowStep (by split <;> omega) rows
  · exact mem_uIcc_of_le leads.colStep (by split <;> omega) cols

theorem cell_mem_uIcc (early : (k : ℤ) ≤ max l.rows l.cols) :
    (l.advance^[k] (l.start r c)).cell.1 ∈ Set.uIcc r l.goal.1 ∧
      (l.advance^[k] (l.start r c)).cell.2 ∈ Set.uIcc c l.goal.2 := by
  obtain ⟨i, j, keeps, here⟩ := leads.exists_keeps early
  obtain ⟨rows, cols, -⟩ := keeps.inside leads early
  have first := mem_uIcc_of_le (a := r) leads.rowStep (Int.natCast_nonneg i) rows
  have second := mem_uIcc_of_le (a := c) leads.colStep (Int.natCast_nonneg j) cols
  rw [zero_mul, add_zero] at first second
  rw [here, leads.goal]
  exact ⟨first, second⟩

theorem near_idealRow (early : (k : ℤ) ≤ max l.rows l.cols) (flat : l.rows ≤ l.cols) :
    |((l.advance^[k] (l.start r c)).cell.1 : ℚ) -
      idealRow r c l.goal.1 l.goal.2 (l.advance^[k] (l.start r c)).cell.2| ≤ 1 / 2 := by
  obtain ⟨i, j, keeps, here⟩ := leads.exists_keeps early
  rw [here, leads.goal]
  rcases leads.cols_nonneg.eq_or_lt with still | moves
  · obtain ⟨rows, cols, -⟩ := keeps.inside leads early
    obtain ⟨rfl, rfl⟩ : i = 0 ∧ j = 0 := by omega
    simp [idealRow, stage, Stage.cell]
  · exact abs_sub_idealRow_le leads.rowStep leads.colStep (keeps.near_flat flat) moves

/-- The same with rows and columns exchanged. -/
theorem near_idealCol (early : (k : ℤ) ≤ max l.rows l.cols) (steep : l.cols ≤ l.rows) :
    |((l.advance^[k] (l.start r c)).cell.2 : ℚ) -
      idealRow c r l.goal.2 l.goal.1 (l.advance^[k] (l.start r c)).cell.1| ≤ 1 / 2 := by
  obtain ⟨i, j, keeps, here⟩ := leads.exists_keeps early
  rw [here, leads.goal]
  rcases leads.rows_nonneg.eq_or_lt with still | moves
  · obtain ⟨rows, cols, -⟩ := keeps.inside leads early
    obtain ⟨rfl, rfl⟩ : i = 0 ∧ j = 0 := by omega
    simp [idealRow, stage, Stage.cell]
  · exact abs_sub_idealRow_le leads.colStep leads.rowStep (keeps.near_steep steep) moves

end Leads

theorem walk_eq (l : Slant) (w : Walk) : l.walk w =
    if w.stage.cell = l.goal then w.passed.push w.stage.cell
    else l.walk ⟨w.passed.push w.stage.cell, l.advance w.stage⟩ := by
  rw [walk, repeatM_eq_of_monadTail]
  simp only [repeatM.body, round]
  split <;> rfl

/-- A walk that comes to the goal ends there, with the cells of all its stages. -/
theorem walk_of_reached {n : ℕ} {s : Stage} (reached : (l.advance^[n] s).cell = l.goal)
    (before : ∀ k < n, (l.advance^[k] s).cell ≠ l.goal) (passed : Array (ℤ × ℤ)) :
    (l.walk ⟨passed, s⟩).toList =
      passed.toList ++ (List.range (n + 1)).map fun k => (l.advance^[k] s).cell := by
  induction n generalizing s passed with
  | zero =>
    have here : s.cell = l.goal := reached
    rw [walk_eq, if_pos here]
    simp
  | succ n ih =>
    have on : s.cell ≠ l.goal := before 0 n.succ_pos
    rw [walk_eq, if_neg on, ih reached fun k less => before (k + 1) (Nat.succ_lt_succ less),
      List.range_succ_eq_map (n := n + 1), List.map_cons, List.map_map]
    simp [Function.comp_def]

end Slant

/-- The cells along the longer axis between two cells. -/
def distance (r₀ c₀ r₁ c₁ : ℤ) : ℕ := max (r₁ - r₀).natAbs (c₁ - c₀).natAbs

/-- The cell on which the walk from one cell toward another stands after `k` steps. -/
def cellAfter (r₀ c₀ r₁ c₁ : ℤ) (k : ℕ) : ℤ × ℤ :=
  let l := Slant.ofEnds r₀ c₀ r₁ c₁
  (l.advance^[k] (l.start r₀ c₀)).cell

theorem cast_distance (r₀ c₀ r₁ c₁ : ℤ) : (distance r₀ c₀ r₁ c₁ : ℤ) =
    max (Slant.ofEnds r₀ c₀ r₁ c₁).rows (Slant.ofEnds r₀ c₀ r₁ c₁).cols :=
  Nat.cast_max ..

theorem cellAfter_eq_goal_iff {r₀ c₀ r₁ c₁ : ℤ} {k : ℕ} (early : k ≤ distance r₀ c₀ r₁ c₁) :
    cellAfter r₀ c₀ r₁ c₁ k = (r₁, c₁) ↔ k = distance r₀ c₀ r₁ c₁ := by
  rw [← Nat.cast_le (α := ℤ), cast_distance] at early
  rw [← Nat.cast_inj (R := ℤ), cast_distance]
  exact (Slant.leads_ofEnds r₀ c₀ r₁ c₁).cell_eq_goal_iff early

theorem cells_eq_map (r₀ c₀ r₁ c₁ : ℤ) : cells r₀ c₀ r₁ c₁ =
    (List.range (distance r₀ c₀ r₁ c₁ + 1)).map (cellAfter r₀ c₀ r₁ c₁) :=
  Slant.walk_of_reached ((cellAfter_eq_goal_iff le_rfl).mpr rfl)
    (fun _ less => (cellAfter_eq_goal_iff less.le).not.mpr less.ne) #[]

section

variable {r₀ c₀ r₁ c₁ : ℤ} {k : ℕ}

theorem cellAfter_ne_start (moved : 0 < k) (early : k ≤ distance r₀ c₀ r₁ c₁) :
    cellAfter r₀ c₀ r₁ c₁ k ≠ (r₀, c₀) := by
  have leads := Slant.leads_ofEnds r₀ c₀ r₁ c₁
  rw [← Nat.cast_le (α := ℤ), cast_distance] at early
  obtain ⟨i, j, keeps, here⟩ := leads.exists_keeps early
  rw [cellAfter, here, Stage.cell, Ne, Prod.mk.injEq]
  rintro ⟨row, col⟩
  -- along the longer axis it has gone one cell for each step
  rcases le_total (Slant.ofEnds r₀ c₀ r₁ c₁).rows (Slant.ofEnds r₀ c₀ r₁ c₁).cols with flat | steep
  · have across := keeps.flat flat
    rcases leads.colStep with unit | unit <;> simp only [Slant.stage, unit] at col <;> omega
  · have down := keeps.steep steep
    rcases leads.rowStep with unit | unit <;> simp only [Slant.stage, unit] at row <;> omega

theorem cellAfter_mem_uIcc (early : k ≤ distance r₀ c₀ r₁ c₁) :
    (cellAfter r₀ c₀ r₁ c₁ k).1 ∈ Set.uIcc r₀ r₁ ∧
      (cellAfter r₀ c₀ r₁ c₁ k).2 ∈ Set.uIcc c₀ c₁ := by
  rw [← Nat.cast_le (α := ℤ), cast_distance] at early
  exact (Slant.leads_ofEnds r₀ c₀ r₁ c₁).cell_mem_uIcc early

/-- The cells without the first and the last one. -/
theorem mem_inner_cells {cell : ℤ × ℤ} : cell ∈ (cells r₀ c₀ r₁ c₁).tail.dropLast ↔
    ∃ k, 0 < k ∧ k < distance r₀ c₀ r₁ c₁ ∧ cellAfter r₀ c₀ r₁ c₁ k = cell := by
  have inner : (List.range (distance r₀ c₀ r₁ c₁ + 1)).tail.dropLast =
      List.range' 1 (distance r₀ c₀ r₁ c₁ - 1) := by
    rw [List.tail_range, Nat.add_sub_cancel]
    cases distance r₀ c₀ r₁ c₁ with
    | zero => rfl
    | succ n => rw [List.range'_1_concat, List.dropLast_concat, Nat.add_sub_cancel]
  rw [cells_eq_map, ← List.map_tail, ← List.map_dropLast, inner, List.mem_map]
  refine exists_congr fun k => ?_
  rw [List.mem_range'_1, ← and_assoc]
  refine and_congr_left fun _ => ?_
  omega

end

/-- The walk from any cell to any other one ends after as many steps as the longer axis has cells,
when it stands on the goal for the first time. It lists the cells from the first to the last; each
is beside the one before it, and not farther from the goal on either axis. All are in the rectangle
between the ends, and within half a cell of the straight line along the shorter axis. -/
theorem cells_follow_line (r₀ c₀ r₁ c₁ : ℤ) :
    (∀ k ≤ distance r₀ c₀ r₁ c₁,
      cellAfter r₀ c₀ r₁ c₁ k = (r₁, c₁) ↔ k = distance r₀ c₀ r₁ c₁) ∧
    (cells r₀ c₀ r₁ c₁).head? = some (r₀, c₀) ∧
    (cells r₀ c₀ r₁ c₁).getLast? = some (r₁, c₁) ∧
    (cells r₀ c₀ r₁ c₁).length = distance r₀ c₀ r₁ c₁ + 1 ∧
    (cells r₀ c₀ r₁ c₁).IsChain (Onward (r₁, c₁)) ∧
    ∀ cell ∈ cells r₀ c₀ r₁ c₁, cell.1 ∈ Set.uIcc r₀ r₁ ∧ cell.2 ∈ Set.uIcc c₀ c₁ ∧
      (|r₁ - r₀| ≤ |c₁ - c₀| → |(cell.1 : ℚ) - idealRow r₀ c₀ r₁ c₁ cell.2| ≤ 1 / 2) ∧
      (|c₁ - c₀| ≤ |r₁ - r₀| → |(cell.2 : ℚ) - idealRow c₀ r₀ c₁ r₁ cell.1| ≤ 1 / 2) := by
  have leads := Slant.leads_ofEnds r₀ c₀ r₁ c₁
  have size := cast_distance r₀ c₀ r₁ c₁
  have rows : (Slant.ofEnds r₀ c₀ r₁ c₁).rows = |r₁ - r₀| := Int.natCast_natAbs _
  have cols : (Slant.ofEnds r₀ c₀ r₁ c₁).cols = |c₁ - c₀| := Int.natCast_natAbs _
  rw [cells_eq_map]
  refine ⟨fun _ => cellAfter_eq_goal_iff, ?_, ?_, ?_, ?_, ?_⟩
  · rw [List.range_succ_eq_map]
    rfl
  · rw [List.range_succ, List.map_append, List.map_singleton, List.getLast?_concat,
      (cellAfter_eq_goal_iff le_rfl).mpr rfl]
  · rw [List.length_map, List.length_range]
  · rw [List.isChain_map, List.isChain_range]
    exact fun k less => leads.onward (by omega)
  · refine List.forall_mem_map.mpr fun k mem => ?_
    have early : (k : ℤ) ≤ max (Slant.ofEnds r₀ c₀ r₁ c₁).rows (Slant.ofEnds r₀ c₀ r₁ c₁).cols := by
      have := List.mem_range.mp mem
      omega
    obtain ⟨row, col⟩ := leads.cell_mem_uIcc early
    rw [← rows, ← cols]
    exact ⟨row, col, leads.near_idealRow early, leads.near_idealCol early⟩

/-- A steep line upward and to the left, half a cell off at every other step. -/
example : (List.range 5).map (cellAfter 2 1 (-2) (-1)) =
    [(2, 1), (1, 1), (0, 0), (-1, 0), (-2, -1)] := by decide

end Geospatial.SightLine
