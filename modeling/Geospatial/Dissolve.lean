import Geospatial.Feature
import Geospatial.Order
import Geospatial.Overlay

/-! Merging of polygons that touch. Two members belong to one group when a chain of meeting members
joins them, and groups stand in the order of their first members. The groups are the trees of a
forest over the members, into which the links between members join them: no member stands below a
later one, so that each way up ends at the first member of a tree. -/
namespace Geospatial

/-- The parent of each of `n` members; a root is its own parent. -/
structure Forest (n : Nat) where
  parents : Vector (Fin n) n
  parent_le : ∀ i : Fin n, parents[i] ≤ i

namespace Forest

variable {n : Nat}

def parent (f : Forest n) (i : Fin n) : Fin n := f.parents[i]

/-- Every member is a root. -/
def singletons (n : Nat) : Forest n where
  parents := Vector.ofFn id
  parent_le i := by simp

/-- The forest with another parent for one member. -/
def setParent (f : Forest n) (i p : Fin n) (le : p ≤ i) : Forest n where
  parents := f.parents.set i p
  parent_le j := by
    by_cases here : i = j
    · subst here
      simpa using le
    · have other : i.val ≠ j.val := fun same => here (Fin.ext same)
      simpa [Vector.getElem_set_ne, other] using f.parent_le j

theorem parent_setParent (f : Forest n) (i p : Fin n) (le : p ≤ i) (j : Fin n) :
    (f.setParent i p le).parent j = if i = j then p else f.parent j := by
  by_cases here : i = j
  · subst here
    simp [parent, setParent]
  · have other : i.val ≠ j.val := fun same => here (Fin.ext same)
    simp [parent, setParent, Vector.getElem_set_ne, other, here]

/-- Puts a member below the parent of its parent. -/
def halve (f : Forest n) (i : Fin n) : Forest n :=
  f.setParent i (f.parent (f.parent i)) (Fin.le_trans (f.parent_le _) (f.parent_le i))

/-- One round on the way up from a member: its parent is passed over, here and from now on. -/
def climb (s : Forest n × Fin n) : Forest n × Fin n :=
  let f := s.1.halve s.2
  (f, f.parent s.2)

theorem climb_snd (s : Forest n × Fin n) : (climb s).2 = s.1.parent (s.1.parent s.2) := by
  simp [climb, halve, parent_setParent]

/-- The way up leads to earlier members. -/
theorem climb_lt {s : Forest n × Fin n} (below : s.1.parent s.2 ≠ s.2) : (climb s).2 < s.2 := by
  rw [climb_snd]
  have first : s.1.parent s.2 ≤ s.2 := s.1.parent_le _
  have second : s.1.parent (s.1.parent s.2) ≤ s.1.parent s.2 := s.1.parent_le _
  omega

/-- Climbs from a member to the root of its tree; gives the root with the forest that is left. -/
def find (s : Forest n × Fin n) : Forest n × Fin n :=
  if s.1.parent s.2 = s.2 then s else find (climb s)
termination_by s.2.val
decreasing_by exact climb_lt ‹_›

/-- Puts the later one of the roots of two members below the earlier one. -/
def join (f : Forest n) (i j : Fin n) : Forest n :=
  let (f, a) := find (f, i)
  let (f, b) := find (f, j)
  if below : a < b then f.setParent b a (Fin.le_of_lt below)
  else if above : b < a then f.setParent a b (Fin.le_of_lt above)
  else f

/-- Joins the members of a pair if they are linked. -/
def link (linked : Fin n → Fin n → Bool) (f : Forest n) (pair : Fin n × Fin n) : Forest n :=
  if linked pair.1 pair.2 then f.join pair.1 pair.2 else f

/-- The forest in which the members of each linked pair are joined. -/
def ofLinks (linked : Fin n → Fin n → Bool) : Forest n :=
  (Order.couples (List.finRange n)).foldl (link linked) (singletons n)

/-- The roots of some members, found one after the other. -/
def roots (f : Forest n) : List (Fin n) → List (Fin n)
  | [] => []
  | i :: is =>
    let (f, r) := find (f, i)
    r :: f.roots is

end Forest

namespace Dissolve

/-- Elements with equal keys, in the order of the first one of each key. -/
def groupBy [BEq β] (key : α → β) : List α → List (List α)
  | xs => (xs.map key).eraseDups.map fun k => xs.filter fun x => key x == k

/-- The members of each tree of a forest, by the roots that are found for them. -/
def groups (f : Forest n) : List (List (Fin n)) :=
  let members := List.finRange n
  (groupBy (·.2) (members.zip (f.roots members))).map fun group => group.map (·.1)

variable {K : Type} [Scalar K]

/-- One polygon for a group: a single member stays, others give their hull. -/
def groupPolygon? (members : List (Geometry K)) : Option (Geometry K) :=
  match members with
  | [only] => some only
  | gs => Hull.polygon? (gs.flatMap Geometry.positions)

/-- Merges polygonal geometries that meet. A group without area disappears. -/
def geometries (gs : List (Geometry K)) : Outcome K (List (Geometry K)) := do
  gs.forM (Geometry.requirePolygonal .dissolve)
  let a : Vector (Geometry K) gs.length := ⟨gs.toArray, List.size_toArray⟩
  let forest := Forest.ofLinks fun i j : Fin gs.length => a[i].intersects a[j]
  return (groups forest).filterMap fun members => groupPolygon? (members.map fun i => a[i])

/-- Merges the features that have the same value of a property, which is the only one
that the results keep. Features without it have the value null. -/
def features (fs : List (Feature K)) (key : String) : Outcome K (List (Feature K)) := do
  let value (f : Feature K) : Json.Value := (f.property? key).getD .null
  let merged ← (groupBy (fun f => (value f).text) fs).mapM fun group => do
    let gs ← geometries (group.map (·.geometry))
    let v := (group.head?.map value).getD .null
    return gs.map fun g => { geometry := g, properties := [(key, v)] }
  return merged.flatten

end Dissolve
end Geospatial
