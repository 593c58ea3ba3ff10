import Geospatial.Order
import Geospatial.Scalar

/-! Linear systems by elimination with partial pivoting, in the place of the matrix. For one unknown
after another, the row in which it is greatest is exchanged with the first one that is left, and that
is subtracted from those after it so that the unknown vanishes from them. How often it was
subtracted takes the place of the entry. Any number of right-hand sides can be solved for. -/
namespace Geospatial.LinearSystem

variable {K : Type} [Scalar K]

/-- A matrix that is being reduced. -/
structure Factors (K : Type) where
  /-- In each row, how often rows before it were subtracted, and then what is left of it. -/
  matrix : List (List K)
  /-- Where each row stood at first. -/
  origins : List Nat

/-- Pivots below this one count as zero. -/
def leastPivot : K := 1e-12

/-- Exchanges two elements. -/
def swap (i j : Nat) (xs : List α) : List α :=
  match xs[i]?, xs[j]? with
  | some a, some b => (xs.set i b).set j a
  | _, _ => xs

/-- Subtracts a multiple of one row from another. -/
def subtract (factor : K) (front row : List K) : List K :=
  List.zipWith (fun a p => a - factor * p) row front

/-- Subtracts the front row so that unknown `k` vanishes from another row. -/
def clear (k : Nat) (front row : List K) : List K :=
  let factor := row.getD k 0 / front.getD k 0
  row.take k ++ factor :: subtract factor (front.drop (k + 1)) (row.drop (k + 1))

namespace Factors

/-- The last of the rows from `k` on in which unknown `k` is greatest in magnitude. -/
def pivotRow (f : Factors K) (k : Nat) : Nat :=
  let sizes := (f.matrix.drop k).map fun r => Scalar.abs (r.getD k 0)
  k + ((Order.greatest? (Order.on (·.1) Scalar.order) sizes.zipIdx).map (·.2)).getD 0

/-- Eliminates unknown `k`; none when the pivot is too small. -/
def eliminate? (f : Factors K) (k : Nat) : Option (Factors K) :=
  let pivot := f.pivotRow k
  if Scalar.abs ((f.matrix.getD pivot []).getD k 0) < leastPivot then none
  else
    let matrix := swap k pivot f.matrix
    let front := matrix.getD k []
    some ⟨matrix.take (k + 1) ++ (matrix.drop (k + 1)).map (clear k front), swap k pivot f.origins⟩

end Factors

/-- Takes a square system of `n` rows apart. -/
def factor? (n : Nat) (rows : List (List K)) : Option (Factors K) :=
  (List.range n).foldlM Factors.eliminate? ⟨rows, List.range n⟩

/-- A value less the products of corresponding elements, subtracted one after another. -/
def lessProducts (v : K) (coefficients values : List K) : K :=
  (coefficients.zip values).foldl (fun v (c, x) => v - c * x) v

namespace Factors

/-- Subtracts from entry `i` of the right-hand side what was subtracted from its row. -/
def forward (f : Factors K) (x : List K) (i : Nat) : List K :=
  x.set i (lessProducts (x.getD i 0) ((f.matrix.getD i []).take i) x)

/-- Unknown `i` follows from those after it. -/
def backward (f : Factors K) (i : Nat) (x : List K) : List K :=
  let row := f.matrix.getD i []
  x.set i (lessProducts (x.getD i 0) (row.drop (i + 1)) (x.drop (i + 1)) / row.getD i 0)

end Factors

/-- The solution for a right-hand side. -/
def solve (f : Factors K) (side : List K) : List K :=
  let n := f.matrix.length
  (List.range n).foldr f.backward
    ((List.range n).foldl f.forward (f.origins.map fun i => side.getD i 0))

end Geospatial.LinearSystem
