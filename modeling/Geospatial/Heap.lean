/-! Binary heaps: arrays in which no element precedes its parent, so that the first element
to leave stands at the root. The children of the element at `i` stand at `2 * i + 1` and
`2 * i + 2`. Which of several level elements leaves first depends on where they stand. -/
namespace Geospatial

structure Heap {α : Type} (precedes : α → α → Bool) where
  items : Array α

namespace Heap

variable {α : Type} (precedes : α → α → Bool)

/-- Lifts the element at `i` past every parent that it precedes. -/
def lift (a : Array α) (i : Nat) : Array α :=
  if h : 0 < i ∧ i < a.size then
    have hi : i < a.size := h.2
    have hp : (i - 1) / 2 < a.size := by omega
    if precedes a[i] a[(i - 1) / 2] then lift (a.swap i ((i - 1) / 2)) ((i - 1) / 2) else a
  else a
termination_by i
decreasing_by omega

/-- The child of the element at `i` that no other child precedes, the right one of two
level ones. -/
def firstChild? (a : Array α) (i : Nat) : Option { c : Nat // i < c ∧ c < a.size } :=
  if _hr : 2 * i + 2 < a.size then
    if precedes a[2 * i + 1] a[2 * i + 2] then some ⟨2 * i + 1, by omega, by omega⟩
    else some ⟨2 * i + 2, by omega, by omega⟩
  else if hl : 2 * i + 1 < a.size then some ⟨2 * i + 1, by omega, hl⟩
  else none

/-- Sinks the element at `i` past every first child that precedes it. -/
def sink (a : Array α) (i : Nat) : Array α :=
  match firstChild? precedes a i with
  | none => a
  | some ⟨c, hic, hc⟩ =>
    have hi : i < a.size := Nat.lt_trans hic hc
    if precedes a[c] a[i] then sink (a.swap i c) c else a
termination_by a.size - i
decreasing_by
  simp only [Array.size_swap]
  omega

/-- Sinks the element at `i` past every first child, down to a place without children, and
lifts it from there. -/
def settle (a : Array α) (i : Nat) : Array α :=
  match firstChild? precedes a i with
  | none => lift precedes a i
  | some ⟨c, hic, hc⟩ =>
    have hi : i < a.size := Nat.lt_trans hic hc
    settle (a.swap i c) c
termination_by a.size - i
decreasing_by
  simp only [Array.size_swap]
  omega

/-- Makes a heap of any array: every parent is sunk, from the last one to the root. -/
def arrange (a : Array α) : Array α :=
  (List.range (a.size / 2)).foldr (fun i b => sink precedes b i) a

/-- Whether arranging the whole array is less work than to lift `new` elements at the end
of a heap of `old` ones. -/
def arrangesAnew (old new : Nat) : Bool :=
  old < new || 2 * (old + new) < new * (if old + new ≤ 2048 then old.log2 else 11)

variable {precedes}

def singleton (x : α) : Heap precedes := ⟨#[x]⟩

/-- Adds an element behind the last one and lifts it. -/
def add (h : Heap precedes) (x : α) : Heap precedes :=
  ⟨lift precedes (h.items.push x) h.items.size⟩

/-- Adds elements in list order. -/
def addAll (h : Heap precedes) (xs : List α) : Heap precedes :=
  let a := h.items ++ xs
  if arrangesAnew h.items.size xs.length then ⟨arrange precedes a⟩
  else ⟨(List.range' h.items.size xs.length).foldl (fun b i => lift precedes b i) a⟩

/-- The element at the root and the heap without it: the last element takes the root and
is settled from there. -/
def pop? (h : Heap precedes) : Option (α × Heap precedes) :=
  if _h : 0 < h.items.size then
    some (h.items[0], ⟨settle precedes (h.items.swap 0 (h.items.size - 1)).pop 0⟩)
  else none

end Heap
end Geospatial
