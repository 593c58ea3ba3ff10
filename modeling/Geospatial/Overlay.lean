import Geospatial.Hull
import Geospatial.Relation

/-! Overlay of polygonal geometries. A result is the convex hull of the vertices and edge
crossings that belong to it, which is exact for convex operands and covers the true
result otherwise. -/
namespace Geospatial.Geometry

variable {K : Type} [Scalar K]

def requirePolygonal (operation : OverlayKind) (g : Geometry K) : Outcome K Unit :=
  if g.isPolygonal then .ok () else .error (.topology (.notPolygonal operation g.kind))

/-- Points where an edge of `a` crosses one of `b`. -/
def edgeCrossings (a b : Geometry K) : List (Position K) :=
  a.segments.flatMap fun s => b.segments.filterMap fun t => Segment.crossing? s.1 s.2 t.1 t.2

/-- Polygons of both geometries as one multiple. -/
def juxtapose (a b : Geometry K) : Geometry K := .multiPolygon (a.polygons ++ b.polygons)

/-- What either geometry covers; polygons that do not meet stand side by side. -/
def union (a b : Geometry K) : Outcome K (Option (Geometry K)) := do
  a.requirePolygonal .union
  b.requirePolygonal .union
  if !a.intersects b then return some (juxtapose a b)
  return Hull.polygon? (a.positions ++ b.positions)

/-- What both geometries cover. -/
def intersection (a b : Geometry K) : Outcome K (Option (Geometry K)) := do
  a.requirePolygonal .intersection
  b.requirePolygonal .intersection
  if !a.intersects b then return none
  return Hull.polygon? (a.positions.filter (fun p => b.hasPoint p) ++
    b.positions.filter (fun p => a.hasPoint p) ++ edgeCrossings a b)

/-- What `a` covers and `b` does not. -/
def difference (a b : Geometry K) : Outcome K (Option (Geometry K)) := do
  a.requirePolygonal .difference
  b.requirePolygonal .difference
  if !a.intersects b then return some a
  if b.contains a then return none
  return Hull.polygon? (a.positions.filter (fun p => !b.hasPoint p) ++ edgeCrossings a b)

/-- What exactly one of the geometries covers. -/
def symmetricDifference (a b : Geometry K) : Outcome K (Option (Geometry K)) := do
  match ← difference a b, ← difference b a with
  | some l, some r => return some (juxtapose l r)
  | some l, none => return some l
  | none, r => return r

end Geospatial.Geometry
