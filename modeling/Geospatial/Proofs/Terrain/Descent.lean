import Mathlib.Logic.Relation
import Geospatial.Proofs.Grid
import Geospatial.Proofs.Scalar.Rounding
import Geospatial.Terrain.Flow

/-! Directions of flow lead downhill. What makes a direction the steepest one is a positive drop,
and however that was rounded, the neighbor lies lower; so nothing flows in a circle. -/
namespace Geospatial

namespace Direction

/-- Which bit of a byte is a direction's code. -/
def bit : Direction → ℕ
  | east => 0
  | southEast => 1
  | south => 2
  | southWest => 3
  | west => 4
  | northWest => 5
  | north => 6
  | northEast => 7

theorem code_eq_two_pow (d : Direction) : d.code = 2 ^ d.bit := by cases d <;> rfl

theorem bit_lt (d : Direction) : d.bit < 8 := by cases d <;> decide

theorem bit_injective {d e : Direction} (same : d.bit = e.bit) : d = e := by
  cases d <;> cases e <;> first | rfl | contradiction

theorem inside_of_neighbor? {d : Direction} {height width row col : ℕ} {q : ℕ × ℕ}
    (next : d.neighbor? height width row col = some q) : q.1 < height ∧ q.2 < width := by
  unfold neighbor? at next
  dsimp only at next
  split at next
  · obtain rfl := Option.some.inj next
    omega
  · contradiction

variable {K : Type} [Scalar K] [Scalar.LawfulSign K]

theorem ofCode?_code (d : Direction) : ofCode? (d.code : K) = some d := by
  have same : (fun e : Direction => ((e.code : K) == (d.code : K))) = fun e => decide (e = d) := by
    funext e
    rw [code_eq_two_pow, code_eq_two_pow, Scalar.bit_beq e.bit_lt d.bit_lt, decide_eq_decide]
    exact ⟨bit_injective, congrArg bit⟩
  rw [ofCode?, same]
  cases d <;> rfl

theorem code_pos (d : Direction) : (0 : K) < (d.code : K) := by
  rw [code_eq_two_pow]
  exact Scalar.bit_pos d.bit_lt

theorem code_beq_zero (d : Direction) : ((d.code : K) == 0) = false :=
  (Scalar.beq_eq_false_of_lt d.code_pos).2

theorem ofCode?_zero : ofCode? (0 : K) = none :=
  List.find?_eq_none.mpr fun d _ => by rw [code_beq_zero]; exact Bool.false_ne_true

end Direction

namespace Grid

variable {K : Type} [Scalar K]

/-- The cell that a cell of a grid of directions drains to. -/
def downstream? (g : Grid K) (p : ℕ × ℕ) : Option (ℕ × ℕ) :=
  ((g.value? p.1 p.2).bind Direction.ofCode?).bind fun d => d.neighbor? g.height g.width p.1 p.2

/-- One cell drains straight to another one. -/
def Drains (g : Grid K) (p q : ℕ × ℕ) : Prop := g.downstream? p = some q

theorem Drains.mem_valid {g : Grid K} {p q : ℕ × ℕ} (drains : g.Drains p q) : p ∈ g.valid := by
  obtain ⟨d, code, _⟩ := Option.bind_eq_some_iff.mp drains
  obtain ⟨v, here, _⟩ := Option.bind_eq_some_iff.mp code
  exact Grid.mem_valid.mpr ⟨v, here⟩

theorem Drains.mem_area {g : Grid K} {p q : ℕ × ℕ} (drains : g.Drains p q) : q ∈ g.area := by
  obtain ⟨d, _, next⟩ := Option.bind_eq_some_iff.mp drains
  exact Grid.mem_area.mpr (Direction.inside_of_neighbor? next)

end Grid

namespace Terrain

variable {K : Type} [Scalar K]

def flowCode (dem : Grid K) (row col : ℕ) : Option K :=
  (dem.value? row col).map fun z =>
    match descent? dem row col z with
    | some d => (d.code : K)
    | none => 0

/-- What is found while the directions are looked through: nothing yet, or one that falls. -/
inductive Descent (dem : Grid K) (row col : ℕ) (z : K) : Option Direction × K → Prop
  | level : Descent dem row col z (none, 0)
  | falls {d fall} : drop? dem row col z d = some fall → 0 < fall →
      Descent dem row col z (some d, fall)

variable [Scalar.LawfulSign K] {dem : Grid K} {row col : ℕ} {z : K}

theorem Descent.steeper {best : Option Direction × K} (found : Descent dem row col z best)
    (d : Direction) : Descent dem row col z (steeper best (d, drop? dem row col z d)) := by
  unfold Terrain.steeper
  dsimp only
  split
  · rename_i fall drop
    split
    · rename_i deeper
      cases found with
      | level => exact .falls drop deeper
      | falls _ positive => exact .falls drop (Scalar.lt_trans positive deeper)
    · exact found
  · exact found

theorem Descent.foldl (ds : List Direction) {best : Option Direction × K}
    (found : Descent dem row col z best) :
    Descent dem row col z
      ((ds.map fun d => (d, drop? dem row col z d)).foldl Terrain.steeper best) := by
  induction ds generalizing best with
  | nil => exact found
  | cons d ds ih => exact ih (found.steeper d)

omit [Scalar.LawfulSign K] in
theorem Descent.exists_fall {best : Option Direction × K} (found : Descent dem row col z best)
    {d : Direction} (here : best.1 = some d) :
    ∃ fall, drop? dem row col z d = some fall ∧ 0 < fall := by
  cases found with
  | level => contradiction
  | falls drop positive =>
    obtain rfl := Option.some.inj here
    exact ⟨_, drop, positive⟩

/-- A difference in elevation that falls on the way to a neighbor, straight or diagonal. -/
def Steep (size difference : K) : Prop :=
  0 < difference / size ∨ 0 < difference / (size * Scalar.sqrt 2)

omit [Scalar.LawfulSign K] in
theorem steep_of_drop? {d : Direction} {fall : K} (drop : drop? dem row col z d = some fall)
    (positive : 0 < fall) : ∃ q below, d.neighbor? dem.height dem.width row col = some q ∧
      dem.value? q.1 q.2 = some below ∧ Steep dem.frame.cellSize (z - below) := by
  obtain ⟨q, next, drop⟩ := Option.bind_eq_some_iff.mp drop
  obtain ⟨below, there, drop⟩ := Option.bind_eq_some_iff.mp drop
  obtain rfl := Option.some.inj drop
  refine ⟨q, below, next, there, ?_⟩
  split at positive
  · exact Or.inr positive
  · exact Or.inl positive

/-- A cell's code is zero, or that of a direction to a cell to which there is a fall. -/
theorem flowCode_eq (here : dem.value? row col = some z) :
    flowCode dem row col = some 0 ∨ ∃ d : Direction, flowCode dem row col = some (d.code : K) ∧
      ∃ q below, d.neighbor? dem.height dem.width row col = some q ∧
        dem.value? q.1 q.2 = some below ∧ Steep dem.frame.cellSize (z - below) := by
  rw [flowCode, here, Option.map_some]
  cases found : descent? dem row col z with
  | none => exact Or.inl rfl
  | some d =>
    obtain ⟨fall, drop, positive⟩ := (Descent.level.foldl Direction.all).exists_fall found
    exact Or.inr ⟨d, rfl, steep_of_drop? drop positive⟩

theorem bind_cell_flowCode (dem : Grid K) (row col : ℕ) :
    (flowCode dem row col).bind Grid.cell = flowCode dem row col := by
  have number (d : Direction) := Scalar.lt_iff.mp (d.code_pos (K := K))
  rw [flowCode]
  cases dem.value? row col with
  | none => rfl
  | some z =>
    rw [Option.map_some, Option.bind_some]
    cases descent? dem row col z with
    | none => exact Grid.cell_eq_some (Scalar.le_left (number .east).1)
    | some d => exact Grid.cell_eq_some (Scalar.le_right (number d).1)

def flowGrid (dem : Grid K) : Grid K := Grid.tabulate dem.frame (flowCode dem)

omit [Scalar.LawfulSign K] in
theorem flowDirection_eq_ok {signal : Signal} (quiet : signal ≠ .triggered) (dem : Grid K) :
    flowDirection dem signal = .ok (flowGrid dem) :=
  Grid.compute_eq_ok quiet dem.frame (flowCode dem)

section

variable (fits : dem.frame.Addressable)

include fits

theorem get?_flowGrid (hr : row < dem.height) (hc : col < dem.width) :
    (flowGrid dem).get? row col = some (flowCode dem row col) := by
  rw [flowGrid, Grid.get?_tabulate fits hr hc, bind_cell_flowCode]

theorem value?_flowGrid (hr : row < dem.height) (hc : col < dem.width) :
    (flowGrid dem).value? row col = flowCode dem row col := by
  rw [flowGrid, Grid.value?_tabulate fits hr hc, bind_cell_flowCode]

/-- A cell has code zero and drains nowhere, or drains to the cell that its code leads to. -/
theorem downstream?_flowGrid {p : ℕ × ℕ} (here : dem.value? p.1 p.2 = some z) :
    ((flowGrid dem).value? p.1 p.2 = some 0 ∧ (flowGrid dem).downstream? p = none) ∨
      ∃ d : Direction, (flowGrid dem).value? p.1 p.2 = some (d.code : K) ∧
        ∃ q below, d.neighbor? dem.height dem.width p.1 p.2 = some q ∧
          (flowGrid dem).downstream? p = some q ∧ dem.value? q.1 q.2 = some below ∧
          Steep dem.frame.cellSize (z - below) := by
  obtain ⟨hr, hc⟩ := Grid.inside_of_value? here
  rw [Grid.downstream?, value?_flowGrid fits hr hc]
  rcases flowCode_eq here with zero | ⟨d, code, q, below, next, fall⟩
  · rw [zero, Option.bind_some, Direction.ofCode?_zero]
    exact Or.inl ⟨rfl, rfl⟩
  · rw [code, Option.bind_some, Direction.ofCode?_code]
    exact Or.inr ⟨d, rfl, q, below, next, next, fall⟩

theorem valid_flowGrid : (flowGrid dem).valid = dem.valid := by
  refine Finset.filter_congr fun p hp => ?_
  obtain ⟨hr, hc⟩ := Grid.mem_area.mp hp
  rw [value?_flowGrid fits hr hc, flowCode, Option.isSome_map]

theorem steep_of_drains {p q : ℕ × ℕ} (drains : (flowGrid dem).Drains p q) :
    ∃ z below, dem.value? p.1 p.2 = some z ∧ dem.value? q.1 q.2 = some below ∧
      Steep dem.frame.cellSize (z - below) := by
  have valid := drains.mem_valid
  rw [valid_flowGrid fits] at valid
  obtain ⟨z, here⟩ := Grid.mem_valid.mp valid
  rcases downstream?_flowGrid fits here with ⟨_, ends⟩ | ⟨_, _, q', below, _, next, fall⟩
  · rw [Grid.Drains, ends] at drains
    contradiction
  · obtain rfl := Option.some.inj (next.symm.trans drains)
    exact ⟨z, below, here, fall⟩

theorem acyclic_of_falls (lower : K → K → Prop)
    (trans : ∀ {a b c}, lower a b → lower b c → lower a c)
    (irrefl : ∀ a, ¬lower a a)
    (falls : ∀ {z below}, Steep dem.frame.cellSize (z - below) → lower below z) (p : ℕ × ℕ) :
    ¬Relation.TransGen (flowGrid dem).Drains p p := by
  -- the end of a way lies lower than its start, by induction on the steps
  have leads {q : ℕ × ℕ} (way : Relation.TransGen (flowGrid dem).Drains p q) :
      ∃ z below, dem.value? p.1 p.2 = some z ∧ dem.value? q.1 q.2 = some below ∧ lower below z := by
    induction way with
    | single step =>
      obtain ⟨z, below, top, there, fall⟩ := steep_of_drains fits step
      exact ⟨z, below, top, there, falls fall⟩
    | tail _ step ih =>
      obtain ⟨z, middle, top, here, higher⟩ := ih
      obtain ⟨middle', below, here', there, fall⟩ := steep_of_drains fits step
      obtain rfl := Option.some.inj (here.symm.trans here')
      exact ⟨z, below, top, there, trans (falls fall) higher⟩
  intro way
  obtain ⟨z, below, top, there, fall⟩ := leads way
  obtain rfl := Option.some.inj (top.symm.trans there)
  exact irrefl _ fall

/-- Every way along the directions leads down, or every one leads up where the size of the cells
turns the signs; so none leads back. -/
theorem acyclic_flowGrid (p : ℕ × ℕ) :
    ¬Relation.TransGen (flowGrid dem).Drains p p := by
  rcases Scalar.div_sign dem.frame.cellSize with keeps | turns
  · exact acyclic_of_falls fits (· < ·) Scalar.lt_trans Scalar.lt_irrefl
      (fun fall => Scalar.lt_of_sub_pos (keeps _ fall)) p
  · exact acyclic_of_falls fits (· > ·) (fun h k => Scalar.lt_trans k h)
      Scalar.lt_irrefl (fun fall => Scalar.lt_of_sub_neg (turns _ fall)) p

end

end Terrain
end Geospatial
