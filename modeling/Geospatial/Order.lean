/-! Selection and stable sorting of lists by a comparison. A comparison need not be
total: values that it cannot tell apart keep their order. -/
namespace Geospatial.Order

/-- Puts `x` into a list in descending order, in front of its equals. -/
def insertDescending (compare : α → α → Ordering) (x : α) : List α → List α
  | [] => [x]
  | y :: ys =>
    if compare x y == .lt then y :: insertDescending compare x ys else x :: y :: ys

/-- The list in ascending order; equal elements keep their order. -/
def sort (compare : α → α → Ordering) (xs : List α) : List α :=
  (xs.foldl (fun sorted x => insertDescending compare x sorted) []).reverse

/-- The first of the least elements. -/
def least? (compare : α → α → Ordering) : List α → Option α
  | [] => none
  | x :: xs => some (xs.foldl (fun best y => if compare best y == .gt then y else best) x)

/-- The last of the greatest elements. -/
def greatest? (compare : α → α → Ordering) : List α → Option α
  | [] => none
  | x :: xs => some (xs.foldl (fun best y => if compare best y == .gt then best else y) x)

/-- Comparison by a key. -/
def on (key : α → β) (compare : β → β → Ordering) (x y : α) : Ordering := compare (key x) (key y)

/-- Each two elements in list order. -/
def couples : List α → List (α × α)
  | [] => []
  | x :: xs => xs.map (fun y => (x, y)) ++ couples xs

/-- Removes the element at an index; the last one takes its place. -/
def swapRemove (i : Nat) (xs : List α) : List α :=
  match xs.getLast? with
  | none => []
  | some last => (xs.set i last).dropLast

/-- Applies `step` as long as it gives a shorter list. -/
def shrink (step : List α → Option (List α)) (xs : List α) : List α :=
  match step xs with
  | none => xs
  | some ys => if ys.length < xs.length then shrink step ys else xs
termination_by xs.length

end Geospatial.Order
