import Geospatial.Index.Node
import Geospatial.Feature
import Geospatial.Settings

/-! A spatial index: a multiset of items that is searched by their boxes. Items without a
finite box are refused. -/
namespace Geospatial

/-- Items that have a box, or none where there is nothing to enclose. -/
class Bounded (K : Type) (α : Type) where
  bounds? : α → Option (Bounds K)

instance : Bounded K (Bounds K) := ⟨some⟩
instance : Bounded K (Position K) := ⟨fun p => some (Bounds.ofPosition p)⟩
instance [Scalar K] : Bounded K (Geometry K) := ⟨Geometry.bounds?⟩
instance [Scalar K] : Bounded K (Feature K) := ⟨fun f => f.geometry.bounds?⟩

structure Index (K α : Type) where
  root : Option (Index.Node K α)
  size : Nat
  /-- Most children of a node. -/
  capacity : Nat
  /-- Fewest children of a node other than the root. -/
  leastFill : Nat

namespace Index

variable {K α : Type}

def empty : Index K α := ⟨none, 0, 9, 4⟩

/-- Everything taken out. -/
def clear (t : Index K α) : Index K α := { t with root := none, size := 0 }

def isEmpty (t : Index K α) : Bool := t.size == 0

/-- The box over all items. -/
def bounds? (t : Index K α) : Option (Bounds K) := t.root.map Node.bounds

def entries (t : Index K α) : List (Entry K α) := (t.root.map Node.entries).getD []

/-- Every item, from the last node to the first. -/
def toList (t : Index K α) : List α := t.entries.map (·.item)

structure Stats where
  nodes : Nat
  leaves : Nat
  items : Nat
  /-- Levels from the root to the leaves. -/
  depth : Nat

def stats (t : Index K α) : Stats :=
  match t.root with
  | none => ⟨0, 0, 0, 0⟩
  | some n => ⟨n.nodeCount, n.leafCount, t.size, n.depth⟩

section

variable [Scalar K]

/-- An empty index with the capacity of the settings. -/
def ofSettings (s : Settings K) : Outcome K (Index K α) := do
  s.check
  return { empty with capacity := s.nodeCapacity, leastFill := s.leastFill }

/-- Puts an entry below the root; a root that splits gets a new one above. -/
def insertEntry (most : Nat) (e : Entry K α) : Option (Node K α) → Node K α
  | none => .leaf e.bounds [e]
  | some root =>
    let grown := root.insert most e
    match grown.sibling with
    | none => grown.node
    | some s => .branch (grown.node.bounds.union s.bounds) [grown.node, s]

/-- Items whose boxes meet the query, boundaries included. A box that is not finite finds
nothing. -/
def search (t : Index K α) (query : Bounds K) : List α :=
  if query.isFinite then ((t.root.map (·.search query)).getD []).map (·.item) else []

/-- Up to `k` items with the distances of their boxes, nearest first. -/
def nearest (t : Index K α) (p : Position K) (k : Nat) : List (α × K) :=
  ((t.root.map (·.nearest p k)).getD []).map fun (e, d) => (e.item, d)

variable [Bounded K α]

/-- The box that an item is stored under. -/
def boxOf (item : α) : Outcome K (Bounds K) :=
  match (Bounded.bounds? item : Option (Bounds K)) with
  | none => .refuse .unboundedItem
  | some b => if b.isFinite then .ok b else .refuse .nonFiniteItem

def insert (t : Index K α) (item : α) : Outcome K (Index K α) := do
  let b ← boxOf item
  return { t with root := some (insertEntry t.capacity ⟨b, item⟩ t.root), size := t.size + 1 }

/-- Inserts items up to the first one that is refused. -/
def insertMany (t : Index K α) : List α → Index K α × Outcome K Unit
  | [] => (t, .ok ())
  | x :: xs =>
    match t.insert x with
    | .ok t => t.insertMany xs
    | .error f => (t, .error f)

/-- An index of all items that are not refused. -/
def ofList (items : List α) : Index K α :=
  items.foldl (fun t x => match t.insert x with
    | .ok t => t
    | .error _ => t) empty

/-- Removes one item equal to the given one; none where there is none. -/
def remove? [BEq α] (t : Index K α) (item : α) : Option (Index K α) := do
  let box ← (Bounded.bounds? item : Option (Bounds K))
  let root ← t.root
  let reduced ← root.remove? t.leastFill box (· == item)
  let root := reduced.orphans.foldl (fun root e => some (insertEntry t.capacity e root))
    reduced.node.collapse
  return { t with root, size := t.size - 1 }

end

end Index
end Geospatial
