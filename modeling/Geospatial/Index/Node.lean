import Geospatial.Bounds
import Geospatial.Heap
import Geospatial.Order

/-! Nodes of a spatial tree. Each node keeps the least box over what lies below it.
A node that grows over its capacity splits in two at the median of its children's centers
along its longer side; a new entry goes down to the child whose box grows least. -/
namespace Geospatial.Index

structure Entry (K α : Type) where
  bounds : Bounds K
  item : α

inductive Node (K α : Type) where
  | leaf (bounds : Bounds K) (entries : List (Entry K α))
  | branch (bounds : Bounds K) (children : List (Node K α))

namespace Node

variable {K α : Type}

def bounds : Node K α → Bounds K
  | leaf b _ => b
  | branch b _ => b

/-- Number of entries or children. -/
def fill : Node K α → Nat
  | leaf _ es => es.length
  | branch _ cs => cs.length

mutual

/-- The entries below a node; the last child comes first. -/
def entries : Node K α → List (Entry K α)
  | leaf _ es => es
  | branch _ cs => entriesOfAll cs

def entriesOfAll : List (Node K α) → List (Entry K α)
  | [] => []
  | c :: cs => entriesOfAll cs ++ c.entries

end

mutual

/-- The entries below a node; the first child comes first. -/
def drained : Node K α → List (Entry K α)
  | leaf _ es => es
  | branch _ cs => drainedAll cs

def drainedAll : List (Node K α) → List (Entry K α)
  | [] => []
  | c :: cs => c.drained ++ drainedAll cs

end

/-- Levels from the node to the leaves, along the first children. -/
def depth : Node K α → Nat
  | leaf _ _ => 1
  | branch _ [] => 1
  | branch _ (c :: _) => 1 + c.depth

mutual

def nodeCount : Node K α → Nat
  | leaf _ _ => 1
  | branch _ cs => 1 + nodeCountAll cs

def nodeCountAll : List (Node K α) → Nat
  | [] => 0
  | c :: cs => c.nodeCount + nodeCountAll cs

end

mutual

def leafCount : Node K α → Nat
  | leaf _ _ => 1
  | branch _ cs => leafCountAll cs

def leafCountAll : List (Node K α) → Nat
  | [] => 0
  | c :: cs => c.leafCount + leafCountAll cs

end

section

variable [Scalar K]

/-- A leaf under the least box over its entries; `old` is the box of an empty one. -/
def ofEntries (old : Bounds K) (es : List (Entry K α)) : Node K α :=
  leaf ((Bounds.unionAll? (es.map (·.bounds))).getD old) es

/-- A branch under the least box over its children; `old` is the box of an empty one. -/
def ofChildren (old : Bounds K) (cs : List (Node K α)) : Node K α :=
  branch ((Bounds.unionAll? (cs.map bounds)).getD old) cs

/-- The halves below and above the median center, along the longer side of the box over
all. -/
def halves (box : β → Bounds K) (xs : List β) : List β × List β :=
  let byColumn := (Bounds.unionAll? (xs.map box)).all fun b => b.height ≤ b.width
  let key (x : β) : K := if byColumn then (box x).center.x else (box x).center.y
  let sorted := Order.sort (Order.on key Scalar.totalOrder) xs
  (sorted.take (xs.length / 2), sorted.drop (xs.length / 2))

/-- The child in sight with the least enlargement, of several the one with the least area. -/
structure Choice (K : Type) where
  index : Nat
  enlargement : K
  area : K

def Choice.improve (b : Bounds K) (best : Choice K) (candidate : Node K α × Nat) : Choice K :=
  let enlargement := candidate.1.bounds.enlargement b
  let area := candidate.1.bounds.area
  if enlargement < best.enlargement || (enlargement == best.enlargement && area < best.area) then
    ⟨candidate.2, enlargement, area⟩
  else best

/-- Index of the child that takes a new box. -/
def chooseChild (b : Bounds K) (cs : List (Node K α)) : Nat :=
  (cs.zipIdx.foldl (Choice.improve b) ⟨0, Scalar.infinity, Scalar.infinity⟩).index

/-- A node after an insertion, with the sibling that split off, if any. -/
structure Grown (K α : Type) where
  node : Node K α
  sibling : Option (Node K α)

/-- A leaf with these entries under the box `b`, split if there are more than `most`. -/
def growLeaf (most : Nat) (b : Bounds K) (es : List (Entry K α)) : Grown K α :=
  if es.length ≤ most then ⟨leaf b es, none⟩
  else
    let (lower, upper) := halves Entry.bounds es
    ⟨ofEntries b lower, some (ofEntries b upper)⟩

/-- A branch with these children under the box `b`, split if there are more than `most`. -/
def growBranch (most : Nat) (b : Bounds K) (cs : List (Node K α)) : Grown K α :=
  if cs.length ≤ most then ⟨branch b cs, none⟩
  else
    let (lower, upper) := halves bounds cs
    ⟨ofChildren b lower, some (ofChildren b upper)⟩

mutual

/-- Inserts an entry below a node of at most `most` children. -/
def insert (most : Nat) (e : Entry K α) : Node K α → Grown K α
  | leaf b es => growLeaf most (b.union e.bounds) (es ++ [e])
  | branch b cs => growBranch most (b.union e.bounds) (insertAt most e (chooseChild e.bounds cs) cs)

/-- Inserts an entry below the child at an index; a new sibling goes to the end. -/
def insertAt (most : Nat) (e : Entry K α) : Nat → List (Node K α) → List (Node K α)
  | _, [] => []
  | 0, c :: cs =>
    let grown := c.insert most e
    grown.node :: cs ++ grown.sibling.toList
  | i + 1, c :: cs => c :: insertAt most e i cs

end

/-- A node after a removal, with the entries of the nodes that were dissolved for having
too few children. -/
structure Reduced (K α : Type) where
  node : Node K α
  orphans : List (Entry K α)

/-- A child after a removal, with its place among the children. -/
structure ReducedChild (K α : Type) where
  index : Nat
  child : Node K α
  orphans : List (Entry K α)

/-- The branch `b cs` after a removal below one child. A child with fewer than `fewest`
children is dissolved, and the last child takes its place. -/
def reduceBranch (fewest : Nat) (b : Bounds K) (cs : List (Node K α)) (r : ReducedChild K α) :
    Reduced K α :=
  if r.child.fill < fewest then
    ⟨ofChildren b (Order.swapRemove r.index cs), r.orphans ++ r.child.drained⟩
  else ⟨ofChildren b (cs.set r.index r.child), r.orphans⟩

mutual

/-- Removes the first entry whose item is `wanted`, looking below boxes that contain `box`
only. None where there is no such entry. -/
def remove? (fewest : Nat) (box : Bounds K) (wanted : α → Bool) : Node K α → Option (Reduced K α)
  | leaf b es => (es.findIdx? fun e => wanted e.item).map fun i => ⟨ofEntries b (es.eraseIdx i), []⟩
  | branch b cs => (removeBelow? fewest box wanted 0 cs).map (reduceBranch fewest b cs)

def removeBelow? (fewest : Nat) (box : Bounds K) (wanted : α → Bool) (index : Nat) :
    List (Node K α) → Option (ReducedChild K α)
  | [] => none
  | c :: cs =>
    let found := if c.bounds.contains box then c.remove? fewest box wanted else none
    match found with
    | some r => some ⟨index, r.node, r.orphans⟩
    | none => removeBelow? fewest box wanted (index + 1) cs

end

/-- Drops a root without children, and one with a single child in favor of that child. -/
def collapse : Node K α → Option (Node K α)
  | leaf b es => if es.isEmpty then none else some (leaf b es)
  | branch _ [] => none
  | branch _ [c] => c.collapse
  | branch b (c₁ :: c₂ :: cs) => some (branch b (c₁ :: c₂ :: cs))

mutual

/-- Entries whose boxes meet the query; nodes whose boxes do not are skipped. -/
def search (query : Bounds K) : Node K α → List (Entry K α)
  | leaf b es => if b.intersects query then es.filter fun e => e.bounds.intersects query else []
  | branch b cs => if b.intersects query then searchAll query cs else []

def searchAll (query : Bounds K) : List (Node K α) → List (Entry K α)
  | [] => []
  | c :: cs => searchAll query cs ++ c.search query

end

/-- What waits to be visited in a search for the nearest entries. -/
inductive Candidate (K α : Type) where
  | entry (e : Entry K α)
  | node (n : Node K α)

/-- A candidate with its squared distance. -/
structure Ranked (K α : Type) where
  distanceSquared : K
  candidate : Candidate K α

/-- The children of a node as candidates. -/
def ranked (p : Position K) : Node K α → List (Ranked K α)
  | leaf _ es => es.map fun e => ⟨e.bounds.distanceSquared p, .entry e⟩
  | branch _ cs => cs.map fun c => ⟨c.bounds.distanceSquared p, .node c⟩

/-- The candidate is strictly nearer than the other one. -/
def nearer (a b : Ranked K α) : Bool :=
  Scalar.totalOrder a.distanceSquared b.distanceSquared == .lt

/-- Takes the nearest candidates out of the heap, the entries among them as results, and
puts nodes back as their children, until `k` entries are found or nothing is left. Every
visit uses up one unit of `fuel`. -/
def visit (p : Position K) :
    (fuel k : Nat) → Heap (nearer : Ranked K α → Ranked K α → Bool) → List (Entry K α × K)
  | 0, _, _ => []
  | _, 0, _ => []
  | fuel + 1, k + 1, heap =>
    match heap.pop? with
    | none => []
    | some (⟨d, .entry e⟩, rest) => (e, Scalar.sqrt d) :: visit p fuel k rest
    | some (⟨_, .node n⟩, rest) => visit p fuel (k + 1) (rest.addAll (n.ranked p))

/-- Up to `k` entries in ascending order of the distance of their boxes. -/
def nearest (p : Position K) (k : Nat) (root : Node K α) : List (Entry K α × K) :=
  visit p (root.nodeCount + root.entries.length) k
    (.singleton ⟨root.bounds.distanceSquared p, .node root⟩)

end

end Node
end Geospatial.Index
