import Geospatial.Bounds
import Geospatial.Cancellation

/-! Rasters of square cells. Row zero is the northern edge and column zero the western
one; the frame's origin is the north-western corner. A cell without a value is void,
and so is one that holds the grid's void marker. -/
namespace Geospatial

/-- Size and place of a grid. -/
structure GridFrame (K : Type) where
  width : Nat
  height : Nat
  /-- North-western corner. -/
  origin : Position K
  cellSize : K

namespace GridFrame

variable {K : Type} [Scalar K]

def checkCellSize (size : K) : Outcome K Unit :=
  if Scalar.isFinite size && 0 < size then .ok () else .refuse (.gridCellSize size)

/-- A frame with at least one cell, a positive cell size and a finite origin. -/
def make (width height : Nat) (origin : Position K) (cellSize : K) : Outcome K (GridFrame K) := do
  if width = 0 ∨ height = 0 then Outcome.refuse (.gridDimensions width height)
  checkCellSize cellSize
  if !origin.isFinite then Outcome.refuse .gridOrigin
  return { width, height, origin, cellSize }

/-- The smallest frame from the north-western corner of a box that covers the box. -/
def covering (b : Bounds K) (cellSize : K) : Outcome K (GridFrame K) := do
  checkCellSize cellSize
  let count (extent : K) : Nat := max (Scalar.toNat (Scalar.ceil (extent / cellSize))) 1
  make (count b.width) (count b.height) ⟨b.minX, b.maxY, none⟩ cellSize

/-- Number of cells, as a word of sixty-four bits. -/
def cellCount (f : GridFrame K) : Nat := f.width * f.height % UInt64.size

/-- Place of a cell in row order, as a word of sixty-four bits. -/
def offset (f : GridFrame K) (row col : Nat) : Nat := (row * f.width + col) % UInt64.size

def half : K := 0.5

def cellCenter (f : GridFrame K) (row col : Nat) : Position K :=
  ⟨f.origin.x + ((col : K) + half) * f.cellSize, f.origin.y - ((row : K) + half) * f.cellSize, none⟩

/-- Row and column of the cell that holds a position. A cell holds its northern and
western edge. -/
def cellAt? (f : GridFrame K) (p : Position K) : Option (Nat × Nat) :=
  let col := Scalar.floor ((p.x - f.origin.x) / f.cellSize)
  let row := Scalar.floor ((f.origin.y - p.y) / f.cellSize)
  if col < 0 || row < 0 || !Scalar.isFinite col || !Scalar.isFinite row then none
  else
    let r := Scalar.toNat row
    let c := Scalar.toNat col
    if r < f.height ∧ c < f.width then some (r, c) else none

def bounds (f : GridFrame K) : Bounds K :=
  .ofCorners f.origin.x (f.origin.y - (f.height : K) * f.cellSize)
    (f.origin.x + (f.width : K) * f.cellSize) f.origin.y

end GridFrame

/-- Cells in row order. -/
structure Grid (K : Type) where
  frame : GridFrame K
  cells : Array (Option K)
  /-- Cells with this value are void. -/
  voidMarker : Option K := none

namespace Grid

variable {K : Type} [Scalar K]

def width (g : Grid K) : Nat := g.frame.width

def height (g : Grid K) : Nat := g.frame.height

/-- A cell of a value; what is not a number is no value. -/
def cell (v : K) : Option K := if Scalar.isNaN v then none else some v

/-- One value in every cell. -/
def filled (f : GridFrame K) (v : K) : Grid K := ⟨f, Array.replicate f.cellCount (cell v), none⟩

/-- A grid of as many values as its frame has cells. -/
def ofValues (f : GridFrame K) (values : List K) : Outcome K (Grid K) :=
  if values.length = f.cellCount then .ok ⟨f, (values.map cell).toArray, none⟩
  else .refuse (.gridValueCount f.width f.height f.cellCount values.length)

/-- A grid of rows of equal length, the northern one first. -/
def ofRows (rows : List (List K)) (origin : Position K) (cellSize : K) : Outcome K (Grid K) := do
  let width := (rows.head?.map List.length).getD 0
  if rows.any fun r => r.length != width then Outcome.refuse .gridRowsUneven
  ofValues (← GridFrame.make width rows.length origin cellSize) rows.flatten

/-- The content of a cell, none outside the grid. -/
def get? (g : Grid K) (row col : Nat) : Option (Option K) :=
  if row < g.height ∧ col < g.width then g.cells[g.frame.offset row col]? else none

def isVoid (g : Grid K) (c : Option K) : Bool :=
  match c with
  | none => true
  | some v => g.voidMarker.any fun m => m == v

/-- The value of a cell that is not void. -/
def value? (g : Grid K) (row col : Nat) : Option K :=
  match g.get? row col with
  | some (some v) => if g.isVoid (some v) then none else some v
  | _ => none

/-- Changes a cell; outside the grid nothing happens. -/
def set (g : Grid K) (row col : Nat) (v : K) : Grid K :=
  if row < g.height ∧ col < g.width then
    { g with cells := g.cells.setIfInBounds (g.frame.offset row col) (cell v) }
  else g

/-- The nearest natural number below `n`. -/
def clampIndex (n : Nat) (i : Int) : Nat := min i.toNat (n - 1)

/-- The content of the cell of the grid that is nearest to a row and column. -/
def clamped (g : Grid K) (row col : Int) : Option K :=
  (g.cells[g.frame.offset (clampIndex g.height row) (clampIndex g.width col)]?).join

/-- The values that are not void, in row order. -/
def values (g : Grid K) : List K := g.cells.toList.filterMap fun c => if g.isVoid c then none else c

/-- Least and greatest value, none for a grid without values. -/
def range? (g : Grid K) : Option (K × K) :=
  match g.values with
  | [] => none
  | v :: vs => some (vs.foldl Scalar.min v, vs.foldl Scalar.max v)

/-- Rows from north to south: the cells in pieces of the width, the last of which may be shorter. -/
def rows (g : Grid K) : List (List (Option K)) :=
  (List.range ((g.cells.size + g.width - 1) / g.width)).map fun r =>
    (g.cells.extract (r * g.width) ((r + 1) * g.width)).toList

/-- Every cell of a frame computed from its row and column; the signal is asked once for
each row. -/
def compute (f : GridFrame K) (signal : Signal) (content : Nat → Nat → Option K) :
    Outcome K (Grid K) := do
  let rows ← signal.forEach (List.range f.height) fun row =>
    .ok ((List.range f.width).map fun col => (content row col).bind cell)
  return ⟨f, rows.flatten.toArray, none⟩

end Grid
end Geospatial
