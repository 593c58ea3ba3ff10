import Geospatial.Segment
import Geospatial.Fault

/-! Topological relations of two geometries. A test of the boxes comes first; what is
left is decided by vertices that lie in the other geometry and by segments that meet.
The derived relations are defined through intersection and containment. -/
namespace Geospatial

inductive Relation where
  | intersects | contains | within | overlaps | touches | crosses | disjoint | equals
  deriving DecidableEq

namespace Relation

def all : List Relation :=
  [.intersects, .contains, .within, .overlaps, .touches, .crosses, .disjoint, .equals]

def name : Relation → String
  | .intersects => "intersects"
  | .contains => "contains"
  | .within => "within"
  | .overlaps => "overlaps"
  | .touches => "touches"
  | .crosses => "crosses"
  | .disjoint => "disjoint"
  | .equals => "equals"

def ofName? (s : String) : Option Relation := all.find? fun r => r.name == s

/-- Names are read in any ASCII case, with blanks around them. -/
def parse (s : String) : Outcome K Relation :=
  match ofName? (Text.asciiLower (Text.trim s)) with
  | some r => .ok r
  | none => .error (.topology (.unknownRelationship s))

end Relation

namespace Geometry

variable {K : Type} [Scalar K]

/-- The boxes share no point, or there is no box. -/
def boundsApart (a b : Geometry K) : Bool :=
  match a.bounds?, b.bounds? with
  | some x, some y => !x.intersects y
  | _, _ => true

/-- Some position of `a` lies in `b`. -/
def someVertexIn (a b : Geometry K) : Bool := a.positions.any fun p => b.hasPoint p

/-- Some segment of `a` meets one of `b`. -/
def someSegmentsMeet (a b : Geometry K) : Bool :=
  a.segments.any fun s => b.segments.any fun t => Segment.intersects s.1 s.2 t.1 t.2

def intersects (a b : Geometry K) : Bool :=
  !boundsApart a b && (someVertexIn a b || someVertexIn b a || someSegmentsMeet a b)

/-- Every position of `b` lies in `a` or on its boundary. -/
def contains (a b : Geometry K) : Bool :=
  match a.bounds?, b.bounds? with
  | some x, some y => x.contains y && b.positions.all fun p => a.hasPoint p
  | _, _ => false

def within (a b : Geometry K) : Bool := b.contains a

def overlaps (a b : Geometry K) : Bool := a.intersects b && !a.contains b && !b.contains a

def touches (a b : Geometry K) : Bool := a.intersects b && !a.overlaps b

def crosses (a b : Geometry K) : Bool := a.intersects b && !a.contains b && !a.within b

def disjoint (a b : Geometry K) : Bool := !a.intersects b

/-- Whether the relation holds from `a` to `b`. -/
def relate (a b : Geometry K) : Relation → Bool
  | .intersects => a.intersects b
  | .contains => a.contains b
  | .within => a.within b
  | .overlaps => a.overlaps b
  | .touches => a.touches b
  | .crosses => a.crosses b
  | .disjoint => a.disjoint b
  | .equals => a == b

def relateNamed (a b : Geometry K) (name : String) : Outcome K Bool := do
  return a.relate b (← Relation.parse name)

end Geometry
end Geospatial
