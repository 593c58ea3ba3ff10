import Geospatial.Grid
import Geospatial.Order
import Geospatial.Settings

/-! What can be seen from where on an elevation grid. A cell is visible when no cell on the straight
line to it rises above the line from the observer's eye to it. The cells on a line are those of
Bresenham's error term: every step moves along the longer axis and, when the line has drifted by half
a cell, along the shorter one too. The walk goes on until it stands on the goal. -/
namespace Geospatial

namespace SightLine

/-- A line from one cell to another: lengths and senses along rows and columns, and the cell at
which it ends. -/
structure Slant where
  rows : Int
  cols : Int
  rowStep : Int
  colStep : Int
  goal : Int × Int

/-- Where the walk along a line stands, with the error that it has gathered. -/
structure Stage where
  row : Int
  col : Int
  error : Int

def Stage.cell (s : Stage) : Int × Int := (s.row, s.col)

def Slant.ofEnds (r₀ c₀ r₁ c₁ : Int) : Slant where
  rows := ((r₁ - r₀).natAbs : Int)
  cols := ((c₁ - c₀).natAbs : Int)
  rowStep := if r₀ < r₁ then 1 else -1
  colStep := if c₀ < c₁ then 1 else -1
  goal := (r₁, c₁)

/-- The stage at the first cell. -/
def Slant.start (l : Slant) (r₀ c₀ : Int) : Stage := ⟨r₀, c₀, l.cols - l.rows⟩

/-- One step; both decisions look at the error before it. -/
def Slant.advance (l : Slant) (s : Stage) : Stage :=
  let sideways := -l.rows < 2 * s.error
  let downward := 2 * s.error < l.cols
  { row := if downward then s.row + l.rowStep else s.row
    col := if sideways then s.col + l.colStep else s.col
    error := s.error - (if sideways then l.rows else 0) + if downward then l.cols else 0 }

/-- A walk under way: the cells that it has left behind and where it stands. -/
structure Walk where
  passed : Array (Int × Int)
  stage : Stage

/-- One round of the walk: it notes its cell, and ends there if that is the goal. -/
def Slant.round (l : Slant) (w : Walk) : Id (Walk ⊕ Array (Int × Int)) :=
  let passed := w.passed.push w.stage.cell
  if w.stage.cell = l.goal then .inr passed else .inl ⟨passed, l.advance w.stage⟩

/-- Walks on until it stands on the goal, which would be for ever if it missed that. -/
def Slant.walk (l : Slant) (w : Walk) : Array (Int × Int) := Id.run (repeatM l.round w)

/-- The cells from one end to the other, both included. -/
def cells (r₀ c₀ r₁ c₁ : Int) : List (Int × Int) :=
  let l := Slant.ofEnds r₀ c₀ r₁ c₁
  (l.walk ⟨#[], l.start r₀ c₀⟩).toList

end SightLine

structure ViewOptions (K : Type) where
  /-- Height of the eye over the ground. -/
  observerHeight : K
  /-- Height of what is looked at over the ground. -/
  targetHeight : K
  /-- Cells beyond this distance are not seen. -/
  radius : Option K := none

/-- Heights from shared settings; what is looked at lies on the ground. -/
def ViewOptions.ofSettings {K : Type} [Scalar K] (s : Settings K) : ViewOptions K :=
  ⟨s.observerHeight, 0, none⟩

namespace Viewshed

variable {K : Type} [Scalar K]

/-- A cell and the elevation of the eye over it. -/
structure Eye (K : Type) where
  row : Nat
  col : Nat
  elevation : K

/-- The eye of an observer, who must stand on a cell of the grid with a value. -/
def eyeAt (dem : Grid K) (observer : Position K) (height : K) : Outcome K (Eye K) :=
  match dem.frame.cellAt? observer with
  | none => .refuse (.observerOutside observer.x observer.y)
  | some (row, col) =>
    match dem.value? row col with
    | none => .refuse .observerOnVoid
    | some ground => .ok ⟨row, col, ground + height⟩

/-- What a look at a cell ends at. -/
inductive Sight where
  | void
  | visible
  | blocked (row col : Nat)
  deriving DecidableEq

/-- Distance of a cell from the eye, in the plane. -/
def distanceTo (dem : Grid K) (eye : Eye K) (row col : Int) : K :=
  let size := dem.frame.cellSize
  Scalar.hypot (Scalar.ofInt (row - eye.row) * size) (Scalar.ofInt (col - eye.col) * size)

/-- The cells strictly between the eye and a cell. -/
def between (eye : Eye K) (row col : Nat) : List (Int × Int) :=
  (SightLine.cells eye.row eye.col row col).tail.dropLast

/-- The ground at a cell rises above a line of the given slope from the eye. -/
def rises (dem : Grid K) (eye : Eye K) (slope : K) (cell : Int × Int) : Bool :=
  match dem.value? cell.1.toNat cell.2.toNat with
  | none => false
  | some z => slope < (z - eye.elevation) / distanceTo dem eye cell.1 cell.2

/-- A look from the eye at a cell. -/
def look (dem : Grid K) (eye : Eye K) (targetHeight : K) (row col : Nat) : Sight :=
  match dem.value? row col with
  | none => .void
  | some ground =>
    if eye.row = row ∧ eye.col = col then .visible
    else
      let slope := (ground + targetHeight - eye.elevation) / distanceTo dem eye row col
      match (between eye row col).find? (rises dem eye slope) with
      | some (r, c) => .blocked r.toNat c.toNat
      | none => .visible

/-- Beyond the radius, if there is one. -/
def tooFar (dem : Grid K) (eye : Eye K) (radius : Option K) (row col : Nat) : Bool :=
  radius.any fun limit => limit < distanceTo dem eye row col

/-- One for a visible cell, zero for a hidden one. -/
def shown (dem : Grid K) (eye : Eye K) (o : ViewOptions K) (row col : Nat) : Option K :=
  if tooFar dem eye o.radius row col then some 0
  else match look dem eye o.targetHeight row col with
    | .void => none
    | .visible => some 1
    | .blocked _ _ => some 0

/-- The view of one observer: ones, zeros and void cells. -/
def view (dem : Grid K) (o : ViewOptions K) (signal : Signal) (observer : Position K) :
    Outcome K (Grid K) := do
  let eye ← eyeAt dem observer o.observerHeight
  Grid.compute dem.frame signal (shown dem eye o)

structure LineOfSight (K : Type) where
  visible : Bool
  /-- Center of the first cell in the way. -/
  blockedAt : Option (Position K)

/-- A look from one position at another. -/
def lineOfSight (dem : Grid K) (o : ViewOptions K) (observer target : Position K) :
    Outcome K (LineOfSight K) := do
  let eye ← eyeAt dem observer o.observerHeight
  let some (row, col) := dem.frame.cellAt? target
    | Outcome.refuse (.targetOutside target.x target.y)
  match look dem eye o.targetHeight row col with
  | .void => Outcome.refuse .targetOnVoid
  | .visible => return ⟨true, none⟩
  | .blocked r c => return ⟨false, some (dem.frame.cellCenter r c)⟩

def isSeen (c : Option K) : Bool := c.any fun v => v == 1

/-- The views of several observers. -/
def views (dem : Grid K) (o : ViewOptions K) (signal : Signal) (observers : List (Position K)) :
    Outcome K (List (Grid K)) :=
  signal.forEach observers (view dem o signal)

/-- The number of observers that see each cell. -/
def cumulative (dem : Grid K) (o : ViewOptions K) (signal : Signal)
    (observers : List (Position K)) : Outcome K (Grid K) := do
  let seen ← views dem o signal observers
  let cells := Array.ofFn fun i : Fin dem.frame.cellCount =>
    some (((seen.countP fun v => isSeen (v.cells.getD i.val none) : Nat) : K))
  return ⟨dem.frame, cells, none⟩

structure Viewpoint (K : Type) where
  position : Position K
  visibleCells : Nat

/-- Centers of the cells with a value in every `step`-th row and column. -/
def samples (dem : Grid K) (step : Nat) : List (Position K) :=
  let every (n : Nat) : List Nat := (List.range n).filter fun i => i % step = 0
  (every dem.height).flatMap fun r =>
    ((every dem.width).filter fun c => (dem.value? r c).isSome).map (dem.frame.cellCenter r)

/-- Of given candidates, or else of samples, the first of those that see most cells. -/
def optimal? (dem : Grid K) (o : ViewOptions K) (signal : Signal)
    (candidates : Option (List (Position K))) (step : Nat) : Outcome K (Option (Viewpoint K)) := do
  if candidates.isNone && step == 0 then Outcome.refuse .sampleStep
  let tried := candidates.getD (samples dem step)
  let seen ← views dem o signal tried
  let ranked := (tried.zip seen).map fun (p, v) => ⟨p, v.cells.toList.countP isSeen⟩
  return Order.least? (fun a b => compare b.visibleCells a.visibleCells) ranked

end Viewshed

end Geospatial
