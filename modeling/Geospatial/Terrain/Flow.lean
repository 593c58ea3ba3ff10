import Geospatial.Grid

/-! Where water runs on an elevation grid. Every cell drains to the neighbor with the
steepest drop, if any neighbor is lower; the flow into a cell counts the cells that
drain to it, directly or through others. -/
namespace Geospatial

/-- The eight neighbors of a cell. -/
inductive Direction where
  | east | southEast | south | southWest | west | northWest | north | northEast
  deriving DecidableEq

namespace Direction

def all : List Direction :=
  [east, southEast, south, southWest, west, northWest, north, northEast]

/-- Each direction has its own power of two, clockwise from east. -/
def code : Direction → Nat
  | east => 1
  | southEast => 2
  | south => 4
  | southWest => 8
  | west => 16
  | northWest => 32
  | north => 64
  | northEast => 128

/-- Rows to the south and columns to the east. -/
def offset : Direction → Int × Int
  | east => (0, 1)
  | southEast => (1, 1)
  | south => (1, 0)
  | southWest => (1, -1)
  | west => (0, -1)
  | northWest => (-1, -1)
  | north => (-1, 0)
  | northEast => (-1, 1)

def isDiagonal (d : Direction) : Bool := d.offset.1 != 0 && d.offset.2 != 0

/-- The cell next to another one, none beyond the edge. -/
def neighbor? (d : Direction) (height width row col : Nat) : Option (Nat × Nat) :=
  let r := row + d.offset.1
  let c := col + d.offset.2
  if 0 ≤ r ∧ 0 ≤ c ∧ r < height ∧ c < width then some (r.toNat, c.toNat) else none

variable {K : Type} [Scalar K]

/-- The direction of a code. -/
def ofCode? (v : K) : Option Direction := all.find? fun d => (d.code : K) == v

end Direction

namespace Terrain

variable {K : Type} [Scalar K]

/-- Drop per unit of length from a cell at elevation `z` to its neighbor. -/
def drop? (dem : Grid K) (row col : Nat) (z : K) (d : Direction) : Option K := do
  let (r, c) ← d.neighbor? dem.height dem.width row col
  let below ← dem.value? r c
  let size := dem.frame.cellSize
  return (z - below) / (if d.isDiagonal then size * Scalar.sqrt 2 else size)

/-- The steeper of a descent found so far and another one; only what falls counts. -/
def steeper (best : Option Direction × K) (next : Direction × Option K) : Option Direction × K :=
  match next.2 with
  | some fall => if best.2 < fall then (some next.1, fall) else best
  | none => best

/-- The first of the directions of steepest descent, none in a pit or on level ground. -/
def descent? (dem : Grid K) (row col : Nat) (z : K) : Option Direction :=
  ((Direction.all.map fun d => (d, drop? dem row col z d)).foldl steeper (none, 0)).1

/-- The code of every cell's direction of flow, zero where nothing flows on. -/
def flowDirection (dem : Grid K) (signal : Signal) : Outcome K (Grid K) :=
  Grid.compute dem.frame signal fun row col => (dem.value? row col).map fun z =>
    match descent? dem row col z with
    | some d => (d.code : K)
    | none => 0

/-- Places in row order, each with the place it drains to. -/
def receivers (directions : Grid K) : Array (Option Nat) :=
  Array.ofFn fun i : Fin (directions.height * directions.width) =>
    let row := i.val / directions.width
    let col := i.val % directions.width
    ((directions.value? row col).bind Direction.ofCode?).bind fun d =>
      (d.neighbor? directions.height directions.width row col).map fun (r, c) =>
        r * directions.width + c

/-- How much has flowed so far, and what still has to. -/
structure Flow where
  /-- Neighbors that drain to each place and have not been passed on. -/
  pending : Array Nat
  /-- Cells that have drained to each place so far. -/
  received : Array Nat
  deriving Inhabited

namespace Flow

/-- The number of places that drain to each place. -/
def inflows (receivers : Array (Option Nat)) : Array Nat :=
  receivers.toList.foldl (fun counts r => match r with
    | some t => counts.modify t (· + 1)
    | none => counts) (Array.replicate receivers.size 0)

/-- The state before anything has moved. -/
def start (receivers : Array (Option Nat)) : Flow :=
  ⟨inflows receivers, Array.replicate receivers.size 0⟩

/-- Passes on what place `i` received, and place `i` itself, to place `t`. -/
def pass (f : Flow) (i t : Nat) : Flow where
  pending := f.pending.modify t (· - 1)
  received := f.received.modify t (· + f.received.getD i 0 + 1)

/-- Places into which nothing is left to flow. -/
def sources (f : Flow) : List Nat :=
  (List.range f.pending.size).filter fun i => f.pending.getD i 0 == 0

end Flow

/-- Accumulation under way. -/
structure Draining where
  /-- Places into which nothing is left to flow, in the order in which they became so. -/
  order : Array Nat
  /-- How many of them have been passed on. -/
  passed : Nat
  flow : Flow
  deriving Inhabited

namespace Draining

def start (receivers : Array (Option Nat)) : Draining :=
  let flow := Flow.start receivers
  ⟨flow.sources.toArray, 0, flow⟩

/-- The place that is to be passed on next. -/
def next? (d : Draining) : Option Nat := d.order[d.passed]?

/-- Passes on from the next place. The place that it drains to joins the order when nothing else
is left to flow into it. -/
def step (receivers : Array (Option Nat)) (d : Draining) : Draining :=
  match d.next? with
  | none => d
  | some i =>
    match receivers.getD i none with
    | none => ⟨d.order, d.passed + 1, d.flow⟩
    | some t =>
      let flow := d.flow.pass i t
      let order := if flow.pending.getD t 0 = 0 then d.order.push t else d.order
      ⟨order, d.passed + 1, flow⟩

/-- One round of the loop: a step, or the end if no place is to be passed on. -/
def round (receivers : Array (Option Nat)) (d : Draining) : Id (Draining ⊕ Draining) :=
  if d.next?.isNone then .inr d else .inl (d.step receivers)

/-- Takes steps for as long as there is a next place. Places on a cycle never become that. -/
def run (receivers : Array (Option Nat)) (d : Draining) : Draining :=
  Id.run (repeatM (round receivers) d)

end Draining

/-- The number of cells that drain to each cell of a grid of directions. The signal is
asked when there is a cell to begin with. -/
def flowAccumulation (directions : Grid K) (signal : Signal) : Outcome K (Grid K) := do
  let targets := receivers directions
  let start := Draining.start targets
  if start.next?.isSome then signal.check
  let final := start.run targets
  let cells := Array.ofFn fun i : Fin (directions.height * directions.width) =>
    (directions.value? (i.val / directions.width) (i.val % directions.width)).map fun _ =>
      ((final.flow.received.getD i.val 0 : Nat) : K)
  return ⟨directions.frame, cells, none⟩

end Terrain
end Geospatial
