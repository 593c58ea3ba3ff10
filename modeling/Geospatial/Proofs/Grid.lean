import Mathlib.Algebra.BigOperators.Group.Finset.Basic
import Mathlib.Algebra.Order.Ring.Nat
import Mathlib.Data.Finset.Prod
import Mathlib.Data.Finset.Range
import Mathlib.Tactic.Ring
import Geospatial.Grid
import Geospatial.Proofs.Outcome
import Geospatial.Proofs.Scalar.Exact

/-! Grids that are computed cell by cell, and how their cells are read back by row and column. -/
namespace Geospatial

namespace GridFrame

variable {K : Type} {f : GridFrame K}

/-- Every cell has a place of its own among the words of sixty-four bits. -/
def Addressable (f : GridFrame K) : Prop := f.width * f.height ≤ UInt64.size

instance (f : GridFrame K) : Decidable f.Addressable := inferInstanceAs (Decidable (_ ≤ _))

theorem place_lt {row col width height : ℕ} (hr : row < height) (hc : col < width) :
    row * width + col < height * width := by
  calc row * width + col < row * width + width := by omega
    _ = (row + 1) * width := by ring
    _ ≤ height * width := Nat.mul_le_mul_right width hr

theorem Addressable.offset_eq (fits : f.Addressable) {row col : ℕ} (hr : row < f.height)
    (hc : col < f.width) : f.offset row col = row * f.width + col := by
  have bound := place_lt hr hc
  rw [mul_comm f.height] at bound
  exact Nat.mod_eq_of_lt (bound.trans_le fits)

end GridFrame

namespace Grid

open GridFrame

theorem length_flatten_rows {α : Type} (content : ℕ → ℕ → α) (width height : ℕ) :
    ((List.range height).map fun r => (List.range width).map (content r)).flatten.length =
      height * width := by
  simp [List.length_flatten, Function.comp_def, List.map_const']

theorem getElem?_flatten_rows {α : Type} (content : ℕ → ℕ → α) {width height row col : ℕ}
    (hr : row < height) (hc : col < width) :
    ((List.range height).map fun r =>
      (List.range width).map (content r)).flatten[row * width + col]? = some (content row col) := by
  induction height with
  | zero => omega
  | succ height ih =>
    rw [List.range_succ, List.map_append, List.flatten_append]
    rcases Nat.lt_succ_iff_lt_or_eq.mp hr with above | rfl
    · rw [List.getElem?_append_left, ih above]
      rw [length_flatten_rows]
      exact place_lt above hc
    · rw [List.getElem?_append_right, length_flatten_rows, Nat.add_sub_cancel_left]
      · simp [hc]
      · rw [length_flatten_rows]
        exact Nat.le_add_right _ _

variable {K : Type} [Scalar K]

/-- The grid with a given content of each cell. -/
def tabulate (f : GridFrame K) (content : ℕ → ℕ → Option K) : Grid K :=
  ⟨f, ((List.range f.height).map fun row =>
    (List.range f.width).map fun col => (content row col).bind cell).flatten.toArray, none⟩

theorem compute_eq_ok {s : Signal} (quiet : s ≠ .triggered) (f : GridFrame K)
    (content : ℕ → ℕ → Option K) : compute f s content = .ok (tabulate f content) := by
  simp only [compute, Signal.forEach_eq_ok quiet]
  rfl

/-- A grid of at least one row is refused once the signal is triggered, whatever its contents. -/
theorem compute_cases (s : Signal) (f : GridFrame K) :
    (s = .triggered ∧ ∀ content, compute f s content = .error .cancelled) ∨
      ∀ content, compute f s content = .ok (tabulate f content) := by
  rcases s.forEach_cases (List.range f.height) with ⟨triggered, stopped⟩ | runs
  · exact .inl ⟨triggered, fun content => by rw [compute, stopped]; rfl⟩
  · exact .inr fun content => by rw [compute, runs]; rfl

variable {f : GridFrame K} {content : ℕ → ℕ → Option K} {row col : ℕ}

theorem cells_tabulate (hr : row < f.height) (hc : col < f.width) :
    (tabulate f content).cells[row * f.width + col]? = some ((content row col).bind cell) := by
  rw [tabulate, List.getElem?_toArray, getElem?_flatten_rows _ hr hc]

theorem cells_tabulate_const {c : Option K}
    (same : ∀ row < f.height, ∀ col < f.width, (content row col).bind cell = c) :
    (tabulate f content).cells = Array.replicate (f.height * f.width) c := by
  rw [tabulate, ← List.toArray_replicate]
  refine congrArg List.toArray
    (List.eq_replicate_iff.mpr ⟨length_flatten_rows _ _ _, fun b hb => ?_⟩)
  simp only [List.mem_flatten, List.mem_map, List.mem_range] at hb
  obtain ⟨_, ⟨row, hr, rfl⟩, hb⟩ := hb
  obtain ⟨col, hc, rfl⟩ := List.mem_map.mp hb
  exact same row hr col (List.mem_range.mp hc)

theorem get?_tabulate (fits : f.Addressable) (hr : row < f.height) (hc : col < f.width) :
    (tabulate f content).get? row col = some ((content row col).bind cell) := by
  rw [get?, if_pos ⟨hr, hc⟩]
  change (tabulate f content).cells[f.offset row col]? = _
  rw [fits.offset_eq hr hc, cells_tabulate hr hc]

/-- Without a marker, a cell is void only where it is empty. -/
theorem value?_eq_join {g : Grid K} (unmarked : g.voidMarker = none) (row col : ℕ) :
    g.value? row col = (g.get? row col).join := by
  rw [value?]
  match g.get? row col with
  | none => rfl
  | some none => rfl
  | some (some v) => simp [isVoid, unmarked]

theorem value?_tabulate (fits : f.Addressable) (hr : row < f.height) (hc : col < f.width) :
    (tabulate f content).value? row col = (content row col).bind cell := by
  rw [value?_eq_join rfl, get?_tabulate fits hr hc]
  rfl

theorem cell_eq_some [Scalar.LawfulOrder K] {v : K} (number : v ≤ v) : cell v = some v := by
  have same : (v == v) = true := Scalar.beq_iff.mpr ⟨number, number⟩
  rw [cell, Scalar.isNaN, same]
  rfl

section

variable {g : Grid K} {p q : ℕ × ℕ} {i : ℕ}

theorem inside_of_value? {v : K} (here : g.value? row col = some v) :
    row < g.height ∧ col < g.width := by
  by_contra outside
  rw [value?, get?, if_neg outside] at here
  contradiction

/-- The rows and columns of all cells. -/
def area (g : Grid K) : Finset (ℕ × ℕ) := Finset.range g.height ×ˢ Finset.range g.width

/-- The rows and columns of the cells that have a value. -/
def valid (g : Grid K) : Finset (ℕ × ℕ) := {p ∈ g.area | (g.value? p.1 p.2).isSome}

omit [Scalar K] in
theorem mem_area : p ∈ g.area ↔ p.1 < g.height ∧ p.2 < g.width := by
  simp [area]

theorem mem_valid : p ∈ g.valid ↔ ∃ v, g.value? p.1 p.2 = some v := by
  rw [valid, Finset.mem_filter, Option.isSome_iff_exists, and_iff_right_iff_imp]
  exact fun ⟨_, here⟩ => mem_area.mpr (inside_of_value? here)

def place (g : Grid K) (p : ℕ × ℕ) : ℕ := p.1 * g.width + p.2

def cellAt (g : Grid K) (i : ℕ) : ℕ × ℕ := (i / g.width, i % g.width)

omit [Scalar K]

theorem place_lt (inside : p ∈ g.area) : g.place p < g.height * g.width :=
  GridFrame.place_lt (mem_area.mp inside).1 (mem_area.mp inside).2

@[simp]
theorem place_cellAt (g : Grid K) (i : ℕ) : g.place (g.cellAt i) = i := Nat.div_add_mod' i g.width

theorem cellAt_place (inside : p ∈ g.area) : g.cellAt (g.place p) = p := by
  obtain ⟨_, hc⟩ := mem_area.mp inside
  have positive : 0 < g.width := by omega
  rw [cellAt, place, Nat.mul_comm, Nat.mul_add_div positive, Nat.div_eq_of_lt hc, Nat.mul_add_mod,
    Nat.mod_eq_of_lt hc]
  rfl

theorem cellAt_mem (bound : i < g.height * g.width) : g.cellAt i ∈ g.area := by
  refine mem_area.mpr ⟨Nat.div_lt_of_lt_mul (by rwa [Nat.mul_comm]), Nat.mod_lt i ?_⟩
  by_contra empty
  rw [Nat.eq_zero_of_not_pos empty, Nat.mul_zero] at bound
  exact Nat.not_lt_zero i bound

theorem sum_places (g : Grid K) (F : ℕ → ℕ) :
    ∑ i ∈ Finset.range (g.height * g.width), F i = ∑ p ∈ g.area, F (g.place p) := by
  refine Finset.sum_bij' (fun i _ => g.cellAt i) (fun p _ => g.place p) ?_ ?_ ?_ ?_ ?_
  · exact fun i hi => cellAt_mem (Finset.mem_range.mp hi)
  · exact fun p hp => Finset.mem_range.mpr (place_lt hp)
  · exact fun i _ => place_cellAt g i
  · exact fun p hp => cellAt_place hp
  · exact fun i _ => by rw [place_cellAt]

end

/-- In exact arithmetic every value is a number. -/
theorem bind_cell {K : Type} [Exact K] (c : Option K) : c.bind cell = c := by
  cases c with
  | none => rfl
  | some v => exact cell_eq_some (le_refl v)

end Grid

end Geospatial
