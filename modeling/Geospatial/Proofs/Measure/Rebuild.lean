import Mathlib.Data.List.Perm.Basic
import Geospatial.Measure

/-! Geometries rebuilt part by part, with a change of the single points and one of the paths. What
such changes keep of each part is kept of the whole, at any depth of nesting: the area, lengths, the
positions along each path, and the weighted sums of places that make up the centroid. -/
namespace Geospatial.Geometry

variable {K : Type} (onPoint : Position K → Position K) (onPath : Path K → Path K)

mutual

/-- Changes single points by `onPoint` and lines, rings and sets of points by `onPath`; kinds,
nesting and the order of members stay. -/
def rebuild : Geometry K → Geometry K
  | .point p => .point (onPoint p)
  | .lineString line => .lineString (onPath line)
  | .polygon rings => .polygon (rings.map onPath)
  | .multiPoint points => .multiPoint (onPath points)
  | .multiLineString lines => .multiLineString (lines.map onPath)
  | .multiPolygon ps => .multiPolygon (ps.map fun rings => rings.map onPath)
  | .collection gs => .collection (rebuildAll gs)

def rebuildAll : List (Geometry K) → List (Geometry K)
  | [] => []
  | g :: gs => g.rebuild :: rebuildAll gs

end

variable {onPoint onPath}

theorem kind_rebuild (g : Geometry K) : (g.rebuild onPoint onPath).kind = g.kind := by
  cases g <;> rfl

mutual

theorem mapPaths_eq_rebuild (g : Geometry K) : g.mapPaths onPath = g.rebuild id onPath := by
  cases g with
  | collection gs => rw [mapPaths, rebuild, mapPathsAll_eq_rebuildAll gs]
  | _ => rfl

theorem mapPathsAll_eq_rebuildAll (gs : List (Geometry K)) :
    mapPathsAll onPath gs = rebuildAll id onPath gs := by
  cases gs with
  | nil => rfl
  | cons g gs => rw [mapPathsAll, rebuildAll, mapPaths_eq_rebuild g, mapPathsAll_eq_rebuildAll gs]

end

theorem reverse_eq_rebuild (g : Geometry K) : g.reverse = g.rebuild id List.reverse :=
  mapPaths_eq_rebuild g

mutual

/-- Passing every position through a function that never fails is the change by that function. -/
theorem mapPositionsM_pure {E : Type} (f : Position K → Position K) (g : Geometry K) :
    g.mapPositionsM (fun p => (pure (f p) : Except E (Position K))) =
      pure (g.rebuild f (List.map f)) := by
  cases g with
  | point p => rfl
  | lineString line => simp [mapPositionsM, rebuild]
  | polygon rings => simp [mapPositionsM, rebuild]
  | multiPoint points => simp [mapPositionsM, rebuild]
  | multiLineString lines => simp [mapPositionsM, rebuild]
  | multiPolygon ps => simp [mapPositionsM, rebuild]
  | collection gs => simp [mapPositionsM, rebuild, mapPositionsAllM_pure f gs]

theorem mapPositionsAllM_pure {E : Type} (f : Position K → Position K) (gs : List (Geometry K)) :
    mapPositionsAllM (fun p => (pure (f p) : Except E (Position K))) gs =
      pure (rebuildAll f (List.map f) gs) := by
  cases gs with
  | nil => rfl
  | cons g gs =>
    simp [mapPositionsAllM, rebuildAll, mapPositionsM_pure f g, mapPositionsAllM_pure f gs]

end

mutual

theorem rebuild_leftInverse {backPoint : Position K → Position K} {backPath : Path K → Path K}
    (point : Function.LeftInverse backPoint onPoint) (path : Function.LeftInverse backPath onPath)
    (g : Geometry K) : (g.rebuild onPoint onPath).rebuild backPoint backPath = g := by
  cases g with
  | point p => exact congrArg Geometry.point (point p)
  | lineString line => exact congrArg Geometry.lineString (path line)
  | polygon rings => exact congrArg Geometry.polygon (path.list_map rings)
  | multiPoint points => exact congrArg Geometry.multiPoint (path points)
  | multiLineString lines => exact congrArg Geometry.multiLineString (path.list_map lines)
  | multiPolygon ps => exact congrArg Geometry.multiPolygon (path.list_map.list_map ps)
  | collection gs => exact congrArg Geometry.collection (rebuildAll_leftInverse point path gs)

theorem rebuildAll_leftInverse {backPoint : Position K → Position K} {backPath : Path K → Path K}
    (point : Function.LeftInverse backPoint onPoint) (path : Function.LeftInverse backPath onPath)
    (gs : List (Geometry K)) :
    rebuildAll backPoint backPath (rebuildAll onPoint onPath gs) = gs := by
  cases gs with
  | nil => rfl
  | cons g gs =>
    rw [rebuildAll, rebuildAll, rebuild_leftInverse point path g,
      rebuildAll_leftInverse point path gs]

end

mutual

/-- Every position sequence in document order; a single point is one by itself. -/
def paths : Geometry K → List (Path K)
  | .point p => [[p]]
  | .lineString line => [line]
  | .polygon rings => rings
  | .multiPoint points => [points]
  | .multiLineString lines => lines
  | .multiPolygon ps => ps.flatten
  | .collection gs => pathsOfAll gs

def pathsOfAll : List (Geometry K) → List (Path K)
  | [] => []
  | g :: gs => g.paths ++ pathsOfAll gs

end

mutual

theorem positions_eq_flatten (g : Geometry K) : g.positions = g.paths.flatten := by
  cases g with
  | collection gs => exact positionsOfAll_eq_flatten gs
  | _ => simp [positions, paths]

theorem positionsOfAll_eq_flatten (gs : List (Geometry K)) :
    positionsOfAll gs = (pathsOfAll gs).flatten := by
  cases gs with
  | nil => rfl
  | cons g gs =>
    rw [positionsOfAll, pathsOfAll, List.flatten_append, positions_eq_flatten g,
      positionsOfAll_eq_flatten gs]

end

mutual

theorem paths_rebuild (single : ∀ p, onPath [p] = [onPoint p]) (g : Geometry K) :
    (g.rebuild onPoint onPath).paths = g.paths.map onPath := by
  cases g with
  | point p => exact congrArg ([·]) (single p).symm
  | collection gs => exact pathsOfAll_rebuild single gs
  | multiPolygon ps => exact List.map_flatten.symm
  | _ => rfl

theorem pathsOfAll_rebuild (single : ∀ p, onPath [p] = [onPoint p]) (gs : List (Geometry K)) :
    pathsOfAll (rebuildAll onPoint onPath gs) = (pathsOfAll gs).map onPath := by
  cases gs with
  | nil => rfl
  | cons g gs =>
    rw [rebuildAll, pathsOfAll, pathsOfAll, List.map_append, paths_rebuild single g,
      pathsOfAll_rebuild single gs]

end

theorem positions_rebuild (single : ∀ p, onPath [p] = [onPoint p]) (g : Geometry K) :
    (g.rebuild onPoint onPath).positions = (g.paths.map onPath).flatten := by
  rw [positions_eq_flatten, paths_rebuild single]

variable [Scalar K]

theorem polygonArea_map
    (keeps : ∀ r : Path K, Scalar.abs (onPath r).signedArea = Scalar.abs r.signedArea)
    (rings : List (Path K)) : polygonArea (rings.map onPath) = polygonArea rings := by
  cases rings with
  | nil => rfl
  | cons exterior holes =>
    simp only [polygonArea, List.map_cons, List.map_map, Function.comp_def, keeps]

mutual

theorem area_rebuild
    (keeps : ∀ r : Path K, Scalar.abs (onPath r).signedArea = Scalar.abs r.signedArea)
    (g : Geometry K) : (g.rebuild onPoint onPath).area = g.area := by
  cases g with
  | polygon rings => exact polygonArea_map keeps rings
  | multiPolygon ps =>
    simp only [rebuild, area, List.map_map, Function.comp_def, polygonArea_map keeps]
  | collection gs => rw [rebuild, area, area, areas_rebuild keeps gs]
  | point | lineString | multiPoint | multiLineString => rfl

theorem areas_rebuild
    (keeps : ∀ r : Path K, Scalar.abs (onPath r).signedArea = Scalar.abs r.signedArea)
    (gs : List (Geometry K)) : areas (rebuildAll onPoint onPath gs) = areas gs := by
  cases gs with
  | nil => rfl
  | cons g gs => rw [rebuildAll, areas, areas, area_rebuild keeps g, areas_rebuild keeps gs]

end

mutual

theorem totalLength_rebuild {measure : Path K → K} (keeps : ∀ l, measure (onPath l) = measure l)
    (g : Geometry K) : (g.rebuild onPoint onPath).totalLength measure = g.totalLength measure := by
  cases g with
  | point | multiPoint => rfl
  | lineString line => exact keeps line
  | polygon rings => simp only [rebuild, totalLength, List.map_map, Function.comp_def, keeps]
  | multiLineString lines => simp only [rebuild, totalLength, List.map_map, Function.comp_def, keeps]
  | multiPolygon ps =>
    simp only [rebuild, totalLength, ← List.map_flatten, List.map_map, Function.comp_def, keeps]
  | collection gs => rw [rebuild, totalLength, totalLength, totalLengths_rebuild keeps gs]

theorem totalLengths_rebuild {measure : Path K → K} (keeps : ∀ l, measure (onPath l) = measure l)
    (gs : List (Geometry K)) :
    totalLengths measure (rebuildAll onPoint onPath gs) = totalLengths measure gs := by
  cases gs with
  | nil => rfl
  | cons g gs =>
    rw [rebuildAll, totalLengths, totalLengths, totalLength_rebuild keeps g,
      totalLengths_rebuild keeps gs]

end

namespace Moments

/-- The change of the parts shows in the weighted sums as the change `shift`, whatever has been
added before. -/
structure Shifts (onPoint : Position K → Position K) (onPath : Path K → Path K)
    (shift : Moments K → Moments K) : Prop where
  point : ∀ m p, (shift m).addPoint (onPoint p) = shift (m.addPoint p)
  points : ∀ m ps, (onPath ps).foldl addPoint (shift m) = shift (ps.foldl addPoint m)
  path : ∀ m l, (shift m).addPath (onPath l) = shift (m.addPath l)
  ring : ∀ m r sign, (shift m).addRing (onPath r) sign = shift (m.addRing r sign)

variable {shift : Moments K → Moments K}

theorem Shifts.polygon (shifts : Shifts onPoint onPath shift) (m : Moments K)
    (rings : List (Path K)) :
    (shift m).addPolygon (rings.map onPath) = shift (m.addPolygon rings) := by
  cases rings with
  | nil => rfl
  | cons exterior holes =>
    rw [List.map_cons, addPolygon, addPolygon, shifts.ring, shifts.path, List.foldl_map]
    refine List.foldl_hom shift fun m hole => ?_
    rw [shifts.ring, shifts.path]

mutual

theorem Shifts.add (shifts : Shifts onPoint onPath shift) (m : Moments K) (g : Geometry K) :
    (shift m).add (g.rebuild onPoint onPath) = shift (m.add g) := by
  cases g with
  | point p => exact shifts.point m p
  | multiPoint points => exact shifts.points m points
  | lineString line => exact shifts.path m line
  | multiLineString lines =>
    rw [rebuild, Moments.add, Moments.add, List.foldl_map]
    exact List.foldl_hom shift shifts.path
  | polygon rings => exact shifts.polygon m rings
  | multiPolygon ps =>
    rw [rebuild, Moments.add, Moments.add, List.foldl_map]
    exact List.foldl_hom shift shifts.polygon
  | collection gs => exact shifts.addAll m gs

theorem Shifts.addAll (shifts : Shifts onPoint onPath shift) (m : Moments K)
    (gs : List (Geometry K)) :
    (shift m).addAll (rebuildAll onPoint onPath gs) = shift (m.addAll gs) := by
  cases gs with
  | nil => rfl
  | cons g gs => rw [rebuildAll, Moments.addAll, Moments.addAll, shifts.add m g, shifts.addAll _ gs]

end

end Moments

end Geospatial.Geometry
