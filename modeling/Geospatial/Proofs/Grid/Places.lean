import Geospatial.Proofs.Grid.Lookup
import Geospatial.Proofs.Grid

/-! Grids as they are made of values and changed, and the places at which their cells are read and
written. Places and numbers of cells are words of sixty-four bits. A frame with more cells than that
is accepted all the same; its grids are too short, and some of their cells are sought outside of
them. Where the cells can be counted, each is sought in its own place. -/
namespace Geospatial

namespace GridFrame

variable {K : Type} {f : GridFrame K}

/-- The number of cells is a word of sixty-four bits. -/
def Counted (f : GridFrame K) : Prop := f.width * f.height < UInt64.size

instance (f : GridFrame K) : Decidable f.Counted := inferInstanceAs (Decidable (_ < _))

theorem Counted.addressable (counted : f.Counted) : f.Addressable := Nat.le_of_lt counted

theorem cellCount_lt (f : GridFrame K) : f.cellCount < UInt64.size :=
  Nat.mod_lt _ (by decide)

theorem cellCount_eq_iff : f.cellCount = f.width * f.height ↔ f.Counted :=
  Nat.mod_eq_iff_lt (by decide)

/-- Where the cells are not counted, they take up all words. -/
theorem exists_offset_eq (uncounted : ¬f.Counted) :
    ∃ row < f.height, ∃ col < f.width, f.offset row col = UInt64.size - 1 := by
  have many : UInt64.size - 1 < f.height * f.width := by
    rw [Counted, mul_comm] at uncounted
    have words : 0 < UInt64.size := by decide
    omega
  -- in row order there is a cell whose number is the last word
  let g : Grid K := ⟨f, #[], none⟩
  obtain ⟨hr, hc⟩ := Grid.mem_area.mp (Grid.cellAt_mem (g := g) many)
  refine ⟨_, hr, _, hc, ?_⟩
  rw [offset, show _ * f.width + _ = UInt64.size - 1 from Grid.place_cellAt g (UInt64.size - 1)]
  decide

end GridFrame

namespace Grid

open GridFrame

section

variable {K : Type} [Scalar K] {g : Grid K} {row col : ℕ}

/-- Grids over accepted frames, after any sequence of changes. -/
inductive Built : Grid K → Prop
  | filled {width height : ℕ} {origin : Position K} {size : K} {f : GridFrame K} :
      make width height origin size = .ok f → ∀ v, Built (filled f v)
  | ofValues {width height : ℕ} {origin : Position K} {size : K} {f : GridFrame K}
      {values : List K} {g : Grid K} :
      make width height origin size = .ok f → ofValues f values = .ok g → Built g
  | ofRows {rows : List (List K)} {origin : Position K} {size : K} {g : Grid K} :
      ofRows rows origin size = .ok g → Built g
  | marked {g : Grid K} : Built g → ∀ marker, Built { g with voidMarker := marker }
  | set {g : Grid K} : Built g → ∀ row col v, Built (g.set row col v)

/-- There is a row and a column, and as many cells as were counted. -/
structure Counts (g : Grid K) : Prop where
  wide : 0 < g.width
  high : 0 < g.height
  size : g.cells.size = g.frame.cellCount

theorem ofValues_eq_ok {f : GridFrame K} {values : List K} :
    ofValues f values = .ok g ↔
      values.length = f.cellCount ∧ ⟨f, (values.map cell).toArray, none⟩ = g := by
  rw [ofValues]
  split
  · rename_i fits
    exact ⟨fun made => ⟨fits, Except.ok.inj made⟩, fun ⟨_, same⟩ => congrArg Except.ok same⟩
  · rename_i differs
    exact ⟨nofun, fun ⟨fits, _⟩ => absurd fits differs⟩

theorem counts_of_make {width height : ℕ} {origin : Position K} {size : K} {f : GridFrame K}
    {cells : Array (Option K)} (made : make width height origin size = .ok f)
    (filled : cells.size = f.cellCount) : Counts ⟨f, cells, none⟩ := by
  obtain ⟨sided, -, -, rfl⟩ := make_eq_ok.mp made
  exact ⟨Nat.pos_of_ne_zero fun empty => sided (.inl empty),
    Nat.pos_of_ne_zero fun empty => sided (.inr empty), filled⟩

theorem counts_of_ofValues {width height : ℕ} {origin : Position K} {size : K} {f : GridFrame K}
    {values : List K} (made : make width height origin size = .ok f)
    (wrapped : ofValues f values = .ok g) : Counts g := by
  obtain ⟨fits, rfl⟩ := ofValues_eq_ok.mp wrapped
  refine counts_of_make made ?_
  rw [List.size_toArray, List.length_map, fits]

theorem ofRows_eq_ok {rows : List (List K)} {origin : Position K} {size : K} :
    ofRows rows origin size = .ok g ↔
      (∀ r ∈ rows, r.length = (rows.head?.map List.length).getD 0) ∧
        ∃ f, make ((rows.head?.map List.length).getD 0) rows.length origin size = .ok f ∧
          ofValues f rows.flatten = .ok g := by
  refine Outcome.refuse_unless_eq_ok.trans (and_congr ?_ bind_eq_ok)
  simp

/-- Rows that are there can be counted. -/
theorem counted_of_ofRows {rows : List (List K)} {origin : Position K} {size : K}
    (made : ofRows rows origin size = .ok g) : g.frame.Counted := by
  obtain ⟨even, f, accepted, wrapped⟩ := ofRows_eq_ok.mp made
  obtain ⟨-, -, -, rfl⟩ := make_eq_ok.mp accepted
  obtain ⟨fits, rfl⟩ := ofValues_eq_ok.mp wrapped
  refine cellCount_eq_iff.mp (fits.symm.trans ?_)
  rw [List.length_flatten, List.map_congr_left even, List.map_const', List.sum_replicate_nat,
    Nat.mul_comm]

theorem Counts.set (counts : Counts g) (row col : ℕ) (v : K) : Counts (g.set row col v) := by
  rw [Grid.set]
  split
  · exact ⟨counts.wide, counts.high, (Array.size_setIfInBounds ..).trans counts.size⟩
  · exact counts

theorem Built.counts (built : Built g) : Counts g := by
  induction built with
  | filled made v => exact counts_of_make made Array.size_replicate
  | ofValues made wrapped => exact counts_of_ofValues made wrapped
  | ofRows made =>
    obtain ⟨-, f, accepted, wrapped⟩ := ofRows_eq_ok.mp made
    exact counts_of_ofValues accepted wrapped
  | marked _ marker ih => exact ⟨ih.wide, ih.high, ih.size⟩
  | set _ row col v ih => exact ih.set row col v

theorem clampIndex_lt {n : ℕ} (filled : 0 < n) (i : ℤ) : clampIndex n i < n := by
  rw [clampIndex]
  omega

namespace Counts

variable (counts : Counts g)
include counts

omit [Scalar K] in
theorem size_eq_iff : g.cells.size = g.width * g.height ↔ g.frame.Counted := by
  rw [counts.size]
  exact cellCount_eq_iff

omit [Scalar K] in
theorem offset_eq (counted : g.frame.Counted) (hr : row < g.height) (hc : col < g.width) :
    g.frame.offset row col = row * g.width + col ∧ g.frame.offset row col < g.cells.size := by
  have place : g.frame.offset row col = row * g.width + col := counted.addressable.offset_eq hr hc
  refine ⟨place, ?_⟩
  rw [place, counts.size_eq_iff.mpr counted, mul_comm g.width]
  exact GridFrame.place_lt hr hc

omit [Scalar K] in
/-- No cell is sought outside of the cells if they are counted, and only then. -/
theorem offsets_lt_iff :
    (∀ row < g.height, ∀ col < g.width, g.frame.offset row col < g.cells.size) ↔
      g.frame.Counted := by
  constructor
  · intro inside
    by_contra uncounted
    obtain ⟨row, hr, col, hc, last⟩ := exists_offset_eq uncounted
    have short := cellCount_lt g.frame
    have reached := inside row hr col hc
    rw [last, counts.size] at reached
    omega
  · exact fun counted row hr col hc => (counts.offset_eq counted hr hc).2

end Counts

/-- Each cell has a place of its own, in row order, at which it is read and written. -/
structure Placed (g : Grid K) (row col : ℕ) : Prop where
  offset_eq : g.frame.offset row col = row * g.width + col
  inside : g.frame.offset row col < g.cells.size
  get? : g.get? row col = some g.cells[g.frame.offset row col]
  value? : g.value? row col = if g.isVoid g.cells[g.frame.offset row col] then none
    else g.cells[g.frame.offset row col]
  set (v : K) : (g.set row col v).cells = g.cells.set (g.frame.offset row col) (cell v)

/-- Outside of the rows and columns nothing is read or written. -/
theorem untouched (outside : ¬(row < g.height ∧ col < g.width)) :
    g.get? row col = none ∧ g.value? row col = none ∧ ∀ v, g.set row col v = g := by
  have nothing : g.get? row col = none := if_neg outside
  exact ⟨nothing, by rw [value?, nothing], fun v => if_neg outside⟩

theorem Counts.placed (counts : Counts g) (counted : g.frame.Counted) (hr : row < g.height)
    (hc : col < g.width) : Placed g row col := by
  obtain ⟨place, inside⟩ := counts.offset_eq counted hr hc
  have content : g.get? row col = some g.cells[g.frame.offset row col] := by
    rw [get?, if_pos ⟨hr, hc⟩, Array.getElem?_eq_getElem inside]
  refine ⟨place, inside, content, ?_, fun v => ?_⟩
  · rw [value?, content]
    cases g.cells[g.frame.offset row col] <;> rfl
  · rw [Grid.set, if_pos ⟨hr, hc⟩, Array.setIfInBounds, dif_pos inside]

end

/-- A grid has as many cells as its frame has rows and columns for, and none of them is sought
outside of it, if the number of cells is a word of sixty-four bits, as it is for a grid of rows. If
it is no word, the grid is too short and some cell is sought outside of it. -/
theorem built_places {K : Type} [Scalar K] :
    (∀ {rows : List (List K)} {origin : Position K} {size : K} {g : Grid K},
      ofRows rows origin size = .ok g → g.frame.Counted) ∧
    ∀ {g : Grid K}, Built g →
      (g.cells.size = g.width * g.height ↔ g.frame.Counted) ∧
      ((∀ row < g.height, ∀ col < g.width, g.frame.offset row col < g.cells.size) ↔
        g.frame.Counted) ∧
      (∀ row col, ¬(row < g.height ∧ col < g.width) →
        g.get? row col = none ∧ g.value? row col = none ∧ ∀ v, g.set row col v = g) ∧
      (g.frame.Counted →
        (∀ row < g.height, ∀ col < g.width, Placed g row col) ∧
        ∀ row col : ℤ, ∃ r < g.height, ∃ c < g.width, r = clampIndex g.height row ∧
          c = clampIndex g.width col ∧ ∃ inside : g.frame.offset r c < g.cells.size,
            g.clamped row col = g.cells[g.frame.offset r c]) := by
  refine ⟨counted_of_ofRows, fun built => ?_⟩
  have counts := built.counts
  refine ⟨counts.size_eq_iff, counts.offsets_lt_iff, fun _ _ => untouched,
    fun counted => ⟨?_, fun row col => ?_⟩⟩
  · exact fun row hr col hc => counts.placed counted hr hc
  · have hr := clampIndex_lt counts.high row
    have hc := clampIndex_lt counts.wide col
    have inside := (counts.offset_eq counted hr hc).2
    refine ⟨_, hr, _, hc, rfl, rfl, inside, ?_⟩
    rw [clamped, Array.getElem?_eq_getElem inside, Option.join_some]

/-- A grid of two rows, with its last cell changed. -/
theorem built_places_rows :
    ∃ g : Grid Float, ofRows [[1, 2, 3], [4, 5, 6]] ⟨0, 2, none⟩ 1 = .ok g ∧
      Built (g.set 1 2 9) ∧ g.frame.Counted ∧ (g.set 1 2 9).cells.size = 6 ∧
      Placed (g.set 1 2 9) 1 2 := by
  have made : make 3 2 ⟨0, 2, none⟩ (1 : Float) = .ok ⟨3, 2, ⟨0, 2, none⟩, 1⟩ :=
    make_eq_ok.mpr ⟨by decide, checkCellSize_eq_ok.mpr (by decide +kernel), by decide +kernel, rfl⟩
  have wrapped : ofRows [[1, 2, 3], [4, 5, 6]] ⟨0, 2, none⟩ (1 : Float) = .ok _ :=
    ofRows_eq_ok.mpr ⟨by simp, _, made, ofValues_eq_ok.mpr ⟨rfl, rfl⟩⟩
  have counted := built_places.1 wrapped
  have built := (Built.ofRows wrapped).set 1 2 9
  obtain ⟨size, -, -, within⟩ := built_places.2 built
  exact ⟨_, wrapped, built, counted, size.mpr counted, (within counted).1 1 one_lt_two 2 (by decide)⟩

/-- A frame of as many cells as there are words takes no values at all, so that its first cell is
sought outside of them. -/
theorem built_overflows :
    ∃ g : Grid Float, make (2 ^ 32) (2 ^ 32) ⟨0, 0, none⟩ 1 = .ok g.frame ∧
      ofValues g.frame [] = .ok g ∧ Built g ∧ g.cells.size ≠ g.width * g.height ∧
      0 < g.height ∧ 0 < g.width ∧ ¬g.frame.offset 0 0 < g.cells.size := by
  have made : make (2 ^ 32) (2 ^ 32) ⟨0, 0, none⟩ (1 : Float) =
      .ok ⟨2 ^ 32, 2 ^ 32, ⟨0, 0, none⟩, 1⟩ :=
    make_eq_ok.mpr ⟨by decide, checkCellSize_eq_ok.mpr (by decide +kernel), by decide +kernel, rfl⟩
  have wrapped := ofValues_eq_ok.mpr
    ⟨show ([] : List Float).length = GridFrame.cellCount ⟨2 ^ 32, 2 ^ 32, ⟨0, 0, none⟩, 1⟩ by decide,
      rfl⟩
  exact ⟨_, made, wrapped, .ofValues made wrapped, by decide, by decide, by decide, by decide⟩

end Grid
end Geospatial
