import Geospatial.Proofs.Ring.Ray
import Geospatial.Proofs.Relation.Reflexive
import Geospatial.Proofs.Bounds.Containment
import Geospatial.Proofs.Segment.Meeting
import Geospatial.Proofs.Geometry.WellFormed

/-! Points of a geometry stay within the tolerance of its box, in exact arithmetic. Only the tests
on segments use the tolerance; a point inside a ring is inside every box over the ring. From such a
point of a polygonal geometry, one polygon or several, each ray meets a segment. -/
namespace Geospatial

namespace Bounds

variable {K : Type} [Scalar K]

theorem ofPositions?_eq (ps : List (Position K)) :
    ofPositions? ps = unionAll? (ps.map ofPosition) := by
  cases ps with
  | nil => rfl
  | cons p ps =>
    rw [List.map_cons, unionAll?, List.foldl_map]
    rfl

end Bounds

variable {K : Type} [Euclidean K] {p q a b : Position K} {ps qs ring line : Path K}

theorem Bounds.leastOver_ofPositions? {box : Bounds K} (has : Bounds.ofPositions? ps = some box) :
    box.LeastOver (ps.map Bounds.ofPosition) := by
  rw [Bounds.ofPositions?_eq] at has
  refine Bounds.leastOver_unionAll? (fun x hx => ?_) has
  obtain ⟨q, _, rfl⟩ := List.mem_map.mp hx
  exact Bounds.contains_iff.mpr ⟨le_rfl, le_rfl, le_rfl, le_rfl⟩

/-- No box over the positions leaves the point more than the tolerance outside. -/
def Near (p : Position K) (ps : List (Position K)) : Prop :=
  ∀ box : Bounds K, (∀ q ∈ ps, box.containsPosition q = true) →
    (box.expand Segment.tolerance).containsPosition p = true

namespace Near

theorem mono (h : Near p ps) (part : ps ⊆ qs) : Near p qs :=
  fun box covers => h box fun q mem => covers q (part mem)

theorem ne_nil (h : Near p ps) : ps ≠ [] := by
  rintro rfl
  have out := (Bounds.containsPosition_iff.mp
    (h ⟨p.x + Segment.tolerance + 1, 0, 0, 0, none, none⟩ nofun)).1
  simp only [Bounds.expand] at out
  linarith

/-- A point in every box over the positions is near them. -/
theorem of_covered (h : ∀ box : Bounds K, (∀ q ∈ ps, box.containsPosition q = true) →
    box.containsPosition p = true) : Near p ps := by
  intro box covers
  obtain ⟨minX, maxX, minY, maxY⟩ := Bounds.containsPosition_iff.mp (h box covers)
  have slack : (0 : K) < Segment.tolerance := Segment.tolerance_pos
  refine Bounds.containsPosition_iff.mpr ⟨?_, ?_, ?_, ?_⟩ <;> simp only [Bounds.expand] <;> linarith

theorem of_mem (mem : q ∈ ps) (same : q.sameXY p = true) : Near p ps := by
  refine of_covered fun box covers => ?_
  obtain ⟨hx, hy⟩ := Position.sameXY_iff.mp same
  have there := Bounds.containsPosition_iff.mp (covers q mem)
  rw [hx, hy] at there
  exact Bounds.containsPosition_iff.mpr there

theorem of_inBox (ha : a ∈ ps) (hb : b ∈ ps) (h : Segment.inBox p a b = true) : Near p ps := by
  intro box covers
  obtain ⟨minX, maxX, minY, maxY⟩ := Bounds.containsPosition_iff.mp (covers a ha)
  obtain ⟨minX', maxX', minY', maxY'⟩ := Bounds.containsPosition_iff.mp (covers b hb)
  simp only [Segment.inBox, Bool.and_eq_true, decide_eq_true_eq, and_assoc] at h
  obtain ⟨left, right, low, high⟩ := h
  exact Bounds.containsPosition_iff.mpr
    ⟨(sub_le_sub_right (Scalar.le_min minX minX') _).trans left,
      right.trans (add_le_add_left (Scalar.max_le maxX maxX') _),
      (sub_le_sub_right (Scalar.le_min minY minY') _).trans low,
      high.trans (add_le_add_left (Scalar.max_le maxY maxY') _)⟩

theorem of_segment (ha : a ∈ ps) (hb : b ∈ ps) (h : Segment.hasPoint p a b = true) : Near p ps := by
  simp only [Segment.hasPoint, Bool.and_eq_true] at h
  exact of_inBox ha hb h.2

/-- The rays to the four sides all meet the ring. -/
theorem of_odd (odd : (Path.cyclicPairs ps).countP (fun e => Path.rayCrosses p e.2 e.1) % 2 = 1) :
    Near p ps := by
  refine of_covered fun box covers => ?_
  have reach (dx dy : K) (apart : dx ≠ 0 ∨ dy ≠ 0) : ∃ s, 0 ≤ s ∧
      box.containsPosition ⟨p.x + s * dx, p.y + s * dy, none⟩ = true := by
    have differ : p.sameXY ⟨p.x + dx, p.y + dy, none⟩ = false := by
      rw [← Bool.not_eq_true, Position.sameXY_iff]
      rintro ⟨hx, hy⟩
      exact apart.elim (· (by simpa using hx)) (· (by simpa using hy))
    obtain ⟨e, mem, x, on, s, ahead, hx, hy⟩ := Path.exists_edge_ahead odd differ
    obtain ⟨first, second⟩ := Path.mem_of_mem_cyclicPairs mem
    obtain ⟨minX, maxX, minY, maxY⟩ := Bounds.containsPosition_iff.mp (covers e.1 first)
    obtain ⟨minX', maxX', minY', maxY'⟩ := Bounds.containsPosition_iff.mp (covers e.2 second)
    have inside := And.intro (Segment.affine_x.le_of_on on minX minX')
      (And.intro (Segment.affine_x.ge_of_on on maxX maxX')
        (And.intro (Segment.affine_y.le_of_on on minY minY')
          (Segment.affine_y.ge_of_on on maxY maxY')))
    rw [hx, hy, add_sub_cancel_left, add_sub_cancel_left] at inside
    exact ⟨s, ahead, Bounds.containsPosition_iff.mpr inside⟩
  simp only [Bounds.containsPosition_iff] at reach ⊢
  obtain ⟨r, hr, _, east, _⟩ := reach 1 0 (.inl one_ne_zero)
  obtain ⟨l, hl, west, _⟩ := reach (-1) 0 (.inl (neg_ne_zero.mpr one_ne_zero))
  obtain ⟨u, hu, _, _, _, north⟩ := reach 0 1 (.inr one_ne_zero)
  obtain ⟨d, hd, _, _, south, _⟩ := reach 0 (-1) (.inr (neg_ne_zero.mpr one_ne_zero))
  refine ⟨?_, ?_, ?_, ?_⟩ <;> linarith

theorem of_side (h : ring.side p ≠ .outside) : Near p ring := by
  have near : Near p ring.opened := by
    rcases Path.edge_or_odd_of_side h with ⟨e, mem, on⟩ | odd
    · obtain ⟨first, second⟩ := Path.mem_of_mem_cyclicPairs mem
      exact of_segment second first on
    · exact of_odd odd
  exact near.mono (Path.opened_subset ring)

theorem of_line (h : line.hasPoint p = true) : Near p line := by
  match line with
  | [] => contradiction
  | [only] => exact of_mem List.mem_cons_self h
  | a :: b :: rest =>
    obtain ⟨s, mem, on⟩ := List.any_eq_true.mp h
    obtain ⟨first, second⟩ := Path.mem_of_mem_pairs mem
    exact of_segment first second on

end Near

namespace Geometry

theorem near_of_polygonHasPoint {rings : List (Path K)} (h : polygonHasPoint rings p = true) :
    Near p rings.flatten := by
  cases rings with
  | nil => contradiction
  | cons exterior holes =>
    have reached : exterior.side p ≠ .outside := by
      intro out
      rw [polygonHasPoint, out] at h
      contradiction
    exact (Near.of_side reached).mono (List.sublist_flatten_of_mem List.mem_cons_self).subset

mutual

/-- What the point test accepts lies in the box of the geometry, widened by the tolerance. -/
theorem near_of_hasPoint (g : Geometry K) (h : g.hasPoint p = true) : Near p g.positions := by
  cases g with
  | point q => exact Near.of_mem (List.mem_singleton_self q) h
  | multiPoint points =>
    obtain ⟨q, mem, same⟩ := List.any_eq_true.mp h
    exact Near.of_mem mem same
  | lineString line => exact Near.of_line h
  | multiLineString lines =>
    obtain ⟨line, mem, on⟩ := List.any_eq_true.mp h
    exact (Near.of_line on).mono (List.sublist_flatten_of_mem mem).subset
  | polygon rings => exact near_of_polygonHasPoint h
  | multiPolygon ps =>
    obtain ⟨rings, mem, inside⟩ := List.any_eq_true.mp h
    refine (near_of_polygonHasPoint inside).mono ?_
    rw [positions, List.flatten_flatten]
    exact (List.sublist_flatten_of_mem (List.mem_map_of_mem mem)).subset
  | collection gs => exact near_of_anyHasPoint gs h

theorem near_of_anyHasPoint (gs : List (Geometry K)) (h : anyHasPoint p gs = true) :
    Near p (positionsOfAll gs) := by
  cases gs with
  | nil => contradiction
  | cons g gs =>
    rw [anyHasPoint, Bool.or_eq_true] at h
    rw [positionsOfAll]
    rcases h with first | rest
    · exact (near_of_hasPoint g first).mono (List.subset_append_left _ _)
    · exact (near_of_anyHasPoint gs rest).mono (List.subset_append_right _ _)

end

section Polygonal

variable {K : Type} [Euclidean K] {p q : Position K} {g : Geometry K}
  (polygonal : g.isPolygonal = true)
include polygonal

theorem hasPoint_polygonal : g.hasPoint p = g.polygons.any fun rings => polygonHasPoint rings p := by
  cases g <;> simp_all [isPolygonal, kind, GeometryKind.isPolygonal, hasPoint, polygons]

omit [Euclidean K] in
theorem segments_polygonal : g.segments = g.polygons.flatten.flatMap Path.pairs := by
  cases g <;> simp_all [isPolygonal, kind, GeometryKind.isPolygonal, segments, polygons]

theorem ringsFormed_polygonal (formed : g.check = .ok ()) :
    ∀ rings ∈ g.polygons, RingsFormed rings := by
  cases (check_eq_ok g).mp formed with
  | polygon each => simpa [polygons] using each
  | multiPolygon _ each => exact each
  | point | lineString | multiPoint | multiLineString | collection => contradiction

/-- Each ray from a point of a polygonal geometry that is near none of its segments meets one. -/
theorem exists_segment_ahead (formed : g.check = .ok ()) (here : g.hasPoint p = true)
    (clear : ∀ s ∈ g.segments, Segment.hasPoint p s.1 s.2 = false) (apart : p.sameXY q = false) :
    ∃ s ∈ g.segments, ∃ x, Segment.On x s.1 s.2 ∧ Segment.Ahead p q x := by
  rw [hasPoint_polygonal polygonal] at here
  obtain ⟨rings, mem, inside⟩ := List.any_eq_true.mp here
  have ringsFormed := ringsFormed_polygonal polygonal formed rings mem
  match rings, inside, ringsFormed with
  | exterior :: holes, inside, ringsFormed =>
    obtain ⟨long, closed⟩ := ringsFormed.2 exterior List.mem_cons_self
    have drawn {e : Position K × Position K} (edge : e ∈ Path.cyclicPairs exterior.opened) :
        ∃ s ∈ g.segments, s.1.sameXY e.1 = true ∧ s.2.sameXY e.2 = true := by
      obtain ⟨s, hs, same⟩ := Path.exists_segment_of_edge long closed edge
      refine ⟨s, ?_, same⟩
      rw [segments_polygonal polygonal]
      exact List.mem_flatMap.mpr ⟨exterior, List.mem_flatten_of_mem mem List.mem_cons_self, hs⟩
    have reached : exterior.side p ≠ .outside := by
      intro out
      rw [polygonHasPoint, out] at inside
      contradiction
    rcases Path.edge_or_odd_of_side reached with ⟨e, edge, near⟩ | odd
    · obtain ⟨s, hs, first, second⟩ := drawn edge
      rw [Segment.hasPoint_comm, ← Segment.hasPoint_congr first second, clear s hs] at near
      contradiction
    · obtain ⟨e, edge, x, on, ahead⟩ := Path.exists_edge_ahead odd apart
      obtain ⟨s, hs, first, second⟩ := drawn edge
      rw [Position.sameXY_comm] at first second
      exact ⟨s, hs, x, on.congr first second, ahead⟩

end Polygonal

end Geometry
end Geospatial
