import Geospatial.Proofs.Geometry.Nearness
import Geospatial.Proofs.Segment.Meeting

/-! What the test of the boxes decides in exact arithmetic. It looks at the boxes as they are,
while the tests behind it also accept what is off by the tolerance; so it changes an answer only
where the boxes miss each other, or one sticks out of the other, by no more than the tolerance. -/
namespace Geospatial

variable {K : Type} [Euclidean K] {p : Position K} {x y : Bounds K}

namespace Bounds

theorem meets_of_shared (hx : x.containsPosition p = true) (hy : y.containsPosition p = true) :
    x.intersects y = true := by
  rw [containsPosition_iff] at hx hy
  obtain ⟨minX, maxX, minY, maxY⟩ := hx
  obtain ⟨minX', maxX', minY', maxY'⟩ := hy
  exact intersects_iff.mpr
    ⟨minX.trans maxX', minX'.trans maxX, minY.trans maxY', minY'.trans maxY⟩

theorem expand_meets_comm (x y : Bounds K) (amount : K) :
    (x.expand amount).intersects y = (y.expand amount).intersects x := by
  rw [Bool.eq_iff_iff, intersects_iff, intersects_iff]
  simp only [expand, sub_le_iff_le_add]
  constructor
  all_goals
    rintro ⟨h₁, h₂, h₃, h₄⟩
    exact ⟨h₂, h₁, h₄, h₃⟩

theorem expand_meets (h : x.intersects y = true) :
    (x.expand Segment.tolerance).intersects y = true := by
  obtain ⟨h₁, h₂, h₃, h₄⟩ := intersects_iff.mp h
  have slack : (0 : K) < Segment.tolerance := Segment.tolerance_pos
  refine intersects_iff.mpr ⟨?_, ?_, ?_, ?_⟩ <;> simp only [expand] <;> linarith

end Bounds

namespace Segment

variable {a₁ a₂ b₁ b₂ : Position K}

theorem covered_of_on {z : Position K} (on : On z a₁ a₂) (first : x.containsPosition a₁ = true)
    (second : x.containsPosition a₂ = true) : x.containsPosition z = true := by
  rw [Bounds.containsPosition_iff] at first second ⊢
  exact ⟨affine_x.le_of_on on first.1 second.1, affine_x.ge_of_on on first.2.1 second.2.1,
    affine_y.le_of_on on first.2.2.1 second.2.2.1, affine_y.ge_of_on on first.2.2.2 second.2.2.2⟩

end Segment

namespace Geometry

variable {a b : Geometry K}

/-- The boxes have no common point, but one of them widened by the tolerance meets the other. -/
def NearMiss (a b : Geometry K) : Prop := ∃ x y, a.bounds? = some x ∧ b.bounds? = some y ∧
  x.intersects y = false ∧ (x.expand Segment.tolerance).intersects y = true

/-- The box of `b` leaves that of `a`, but not the box of `a` widened by the tolerance. -/
def Overhang (a b : Geometry K) : Prop := ∃ x y, a.bounds? = some x ∧ b.bounds? = some y ∧
  x.contains y = false ∧ (x.expand Segment.tolerance).contains y = true

theorem covered_of_mem (has : a.bounds? = some x) (mem : p ∈ a.positions) :
    x.containsPosition p = true :=
  (Bounds.leastOver_ofPositions? has).covers _ (List.mem_map_of_mem mem)

theorem exists_bounds? (inhabited : a.positions ≠ []) : ∃ x, a.bounds? = some x := by
  obtain ⟨p, ps, listed⟩ := List.exists_cons_of_ne_nil inhabited
  rw [bounds?, listed]
  exact ⟨_, rfl⟩

/-- A point of a geometry has a box that it leaves by no more than the tolerance. -/
theorem exists_box_of_hasPoint (h : a.hasPoint p = true) :
    ∃ x, a.bounds? = some x ∧ (x.expand Segment.tolerance).containsPosition p = true := by
  have near := near_of_hasPoint a h
  obtain ⟨x, has⟩ := exists_bounds? near.ne_nil
  exact ⟨x, has, near x fun q mem => covered_of_mem has mem⟩

theorem boxes_near_of_vertex (h : someVertexIn a b = true) : ∃ x y, a.bounds? = some x ∧
    b.bounds? = some y ∧ (x.expand Segment.tolerance).intersects y = true := by
  obtain ⟨p, mem, inside⟩ := List.any_eq_true.mp h
  obtain ⟨y, has', near⟩ := exists_box_of_hasPoint inside
  obtain ⟨x, has⟩ := exists_bounds? (List.ne_nil_of_mem mem)
  refine ⟨x, y, has, has', ?_⟩
  rw [Bounds.expand_meets_comm]
  exact Bounds.meets_of_shared near (covered_of_mem has mem)

omit [Euclidean K] in
mutual

theorem ends_of_segment (g : Geometry K) {s : Position K × Position K} (h : s ∈ g.segments) :
    s.1 ∈ g.positions ∧ s.2 ∈ g.positions := by
  cases g with
  | point => contradiction
  | multiPoint => contradiction
  | lineString line => exact Path.mem_of_mem_pairs h
  | polygon rings =>
    obtain ⟨ring, mem, h⟩ := List.mem_flatMap.mp h
    exact (Path.mem_of_mem_pairs h).imp (List.mem_flatten_of_mem mem) (List.mem_flatten_of_mem mem)
  | multiLineString lines =>
    obtain ⟨line, mem, h⟩ := List.mem_flatMap.mp h
    exact (Path.mem_of_mem_pairs h).imp (List.mem_flatten_of_mem mem) (List.mem_flatten_of_mem mem)
  | multiPolygon ps =>
    obtain ⟨ring, mem, h⟩ := List.mem_flatMap.mp h
    exact (Path.mem_of_mem_pairs h).imp (List.mem_flatten_of_mem mem) (List.mem_flatten_of_mem mem)
  | collection gs => exact ends_of_segmentOfAll gs h

theorem ends_of_segmentOfAll (gs : List (Geometry K)) {s : Position K × Position K}
    (h : s ∈ segmentsOfAll gs) : s.1 ∈ positionsOfAll gs ∧ s.2 ∈ positionsOfAll gs := by
  cases gs with
  | nil => contradiction
  | cons g gs =>
    rw [segmentsOfAll, List.mem_append] at h
    simp only [positionsOfAll, List.mem_append]
    rcases h with first | rest
    · exact (ends_of_segment g first).imp .inl .inl
    · exact (ends_of_segmentOfAll gs rest).imp .inr .inr

end

theorem boxes_near_of_segments (h : someSegmentsMeet a b = true) : ∃ x y, a.bounds? = some x ∧
    b.bounds? = some y ∧ (x.expand Segment.tolerance).intersects y = true := by
  simp only [someSegmentsMeet, List.any_eq_true] at h
  obtain ⟨s, hs, t, ht, meet⟩ := h
  obtain ⟨s₁, s₂⟩ := ends_of_segment a hs
  obtain ⟨t₁, t₂⟩ := ends_of_segment b ht
  obtain ⟨x, has⟩ := exists_bounds? (List.ne_nil_of_mem s₁)
  obtain ⟨y, has'⟩ := exists_bounds? (List.ne_nil_of_mem t₁)
  refine ⟨x, y, has, has', ?_⟩
  -- an end of a segment of `a` in the widened box of one of `b`, and the other way round
  have fromA {p q r : Position K} (hp : p ∈ a.positions) (hq : q ∈ b.positions)
      (hr : r ∈ b.positions) (box : Segment.inBox p q r = true) :
      (x.expand Segment.tolerance).intersects y = true := by
    rw [Bounds.expand_meets_comm]
    exact Bounds.meets_of_shared (Near.of_inBox hq hr box y fun v => covered_of_mem has')
      (covered_of_mem has hp)
  have fromB {p q r : Position K} (hp : p ∈ b.positions) (hq : q ∈ a.positions)
      (hr : r ∈ a.positions) (box : Segment.inBox p q r = true) :
      (x.expand Segment.tolerance).intersects y = true :=
    Bounds.meets_of_shared (Near.of_inBox hq hr box x fun v => covered_of_mem has)
      (covered_of_mem has' hp)
  simp only [Segment.intersects, Bool.or_eq_true, Bool.and_eq_true] at meet
  rcases meet with (((⟨ha, hb⟩ | ⟨_, box⟩) | ⟨_, box⟩) | ⟨_, box⟩) | ⟨_, box⟩
  · obtain ⟨z, onA, onB⟩ := Segment.exists_on_both ha hb
    exact Bounds.expand_meets (Bounds.meets_of_shared
      (Segment.covered_of_on onA (covered_of_mem has s₁) (covered_of_mem has s₂))
      (Segment.covered_of_on onB (covered_of_mem has' t₁) (covered_of_mem has' t₂)))
  · exact fromA s₁ t₁ t₂ box
  · exact fromA s₂ t₁ t₂ box
  · exact fromB t₁ s₁ s₂ box
  · exact fromB t₂ s₁ s₂ box

theorem intersects_eq (clear : ¬NearMiss a b) :
    a.intersects b = (someVertexIn a b || someVertexIn b a || someSegmentsMeet a b) := by
  cases tests : someVertexIn a b || someVertexIn b a || someSegmentsMeet a b with
  | false => rw [intersects, tests, Bool.and_false]
  | true =>
    obtain ⟨x, y, has, has', near⟩ : ∃ x y, a.bounds? = some x ∧ b.bounds? = some y ∧
        (x.expand Segment.tolerance).intersects y = true := by
      rcases Bool.or_eq_true_iff.mp tests with vertices | meet
      · rcases Bool.or_eq_true_iff.mp vertices with inB | inA
        · exact boxes_near_of_vertex inB
        · obtain ⟨y, x, has', has, near⟩ := boxes_near_of_vertex inA
          exact ⟨x, y, has, has', by rwa [Bounds.expand_meets_comm]⟩
      · exact boxes_near_of_segments meet
    have meet : x.intersects y = true := by
      rw [← Bool.not_eq_false]
      exact fun apart => clear ⟨x, y, has, has', apart, near⟩
    simp only [intersects, boundsApart, has, has', meet, tests, Bool.not_true, Bool.not_false,
      Bool.and_self]

theorem contains_eq (clear : ¬Overhang a b) :
    a.contains b = (!b.positions.isEmpty && b.positions.all fun p => a.hasPoint p) := by
  rw [Bool.eq_iff_iff, contains_iff]
  simp only [Bool.and_eq_true, Bool.not_eq_true', List.isEmpty_eq_false_iff, List.all_eq_true]
  constructor
  · rintro ⟨x, y, _, has', _, every⟩
    refine ⟨fun empty => ?_, every⟩
    rw [bounds?, empty] at has'
    contradiction
  · rintro ⟨inhabited, every⟩
    obtain ⟨q, first⟩ := List.exists_mem_of_ne_nil _ inhabited
    obtain ⟨x, has, _⟩ := exists_box_of_hasPoint (every q first)
    obtain ⟨y, has'⟩ := exists_bounds? inhabited
    refine ⟨x, y, has, has', ?_, every⟩
    have wide : (x.expand Segment.tolerance).contains y = true := by
      refine (Bounds.leastOver_ofPositions? has').least _ fun box mem => ?_
      obtain ⟨p, hp, rfl⟩ := List.mem_map.mp mem
      exact near_of_hasPoint a (every p hp) x fun v => covered_of_mem has
    rw [← Bool.not_eq_false]
    exact fun out => clear ⟨x, y, has, has', out, wide⟩

theorem not_nearMiss_of_mem (ha : p ∈ a.positions) (hb : p ∈ b.positions) : ¬NearMiss a b := by
  rintro ⟨x, y, has, has', apart, _⟩
  rw [Bounds.meets_of_shared (covered_of_mem has ha) (covered_of_mem has' hb)] at apart
  contradiction

theorem not_overhang_of_subset (part : b.positions ⊆ a.positions) : ¬Overhang a b := by
  rintro ⟨x, y, has, has', out, _⟩
  have inside : x.contains y = true :=
    (Bounds.leastOver_ofPositions? has').least x fun box mem => by
      obtain ⟨q, hq, rfl⟩ := List.mem_map.mp mem
      exact covered_of_mem has (part hq)
  rw [inside] at out
  contradiction

/-- A point to the left of all positions neither meets the geometry nor lies in its box. -/
theorem apart_of_left {c : K} (starts : ∀ q ∈ b.positions, c ≤ q.x) (left : p.x < c) :
    (Geometry.point p).intersects b = false ∧ b.contains (.point p) = false := by
  have start {y : Bounds K} (has : b.bounds? = some y) : c ≤ y.minX := by
    have whole : ({ y with minX := c } : Bounds K).contains y = true := by
      refine (Bounds.leastOver_ofPositions? has).least _ fun box mem => ?_
      obtain ⟨q, hq, rfl⟩ := List.mem_map.mp mem
      have covered := Bounds.containsPosition_iff.mp (covered_of_mem has hq)
      exact Bounds.containsPosition_iff.mpr ⟨starts q hq, covered.2⟩
    exact (Bounds.contains_iff.mp whole).1
  simp only [← Bool.not_eq_true]
  constructor
  · intro meet
    cases has : b.bounds? with
    | none =>
      rw [intersects, boundsApart, has] at meet
      simp at meet
    | some y =>
      have joint := Bounds.intersects_iff.mp (boxes_meet_of_intersects has meet)
      exact absurd (left.trans_le (start has)) (not_lt.mpr joint.2.1)
  · intro inside
    obtain ⟨y, x, has, has', within, _⟩ := contains_iff.mp inside
    obtain rfl : Bounds.ofPosition p = x := Option.some.inj has'
    exact absurd (left.trans_le (start has)) (not_lt.mpr (Bounds.contains_iff.mp within).1)

/-- Where no box misses or leaves the other by the tolerance or less, the box test changes no
answer. A point is contained in a geometry when it lies in it, and meets it when it lies in it or
when a position of the geometry is there. -/
theorem relations_without_boxes (a b : Geometry K) :
    (¬NearMiss a b →
      a.intersects b = (someVertexIn a b || someVertexIn b a || someSegmentsMeet a b)) ∧
    (¬Overhang a b →
      a.contains b = (!b.positions.isEmpty && b.positions.all fun p => a.hasPoint p)) ∧
    ∀ p, (¬Overhang a (.point p) → a.contains (.point p) = a.hasPoint p) ∧
      (¬NearMiss (.point p) a → (Geometry.point p).intersects a =
        (a.hasPoint p || a.positions.any fun q => p.sameXY q)) := by
  refine ⟨intersects_eq, contains_eq, fun p => ⟨fun clear => ?_, fun clear => ?_⟩⟩
  · rw [contains_eq clear]
    simp [positions]
  · rw [intersects_eq clear]
    simp [someVertexIn, someSegmentsMeet, positions, segments, hasPoint]

/-- A diagonal of a square, and one of its corners. -/
theorem relations_without_boxes_diagonal :
    let square : Geometry ℝ :=
      .polygon [[⟨0, 0, none⟩, ⟨4, 0, none⟩, ⟨4, 4, none⟩, ⟨0, 4, none⟩, ⟨0, 0, none⟩]]
    let diagonal : Geometry ℝ := .lineString [⟨0, 0, none⟩, ⟨4, 4, none⟩]
    let corner : Position ℝ := ⟨4, 4, none⟩
    (¬NearMiss square diagonal ∧ square.intersects diagonal = (someVertexIn square diagonal ||
      someVertexIn diagonal square || someSegmentsMeet square diagonal)) ∧
    (¬Overhang square diagonal ∧ square.contains diagonal = (!diagonal.positions.isEmpty &&
      diagonal.positions.all fun p => square.hasPoint p)) ∧
    (¬Overhang square (.point corner) ∧ square.contains (.point corner) = square.hasPoint corner) ∧
    (¬NearMiss (.point corner) square ∧ (Geometry.point corner).intersects square =
      (square.hasPoint corner || square.positions.any fun q => corner.sameXY q)) := by
  intro square diagonal corner
  have touch : ¬NearMiss square diagonal :=
    not_nearMiss_of_mem (p := corner) (by simp [square, positions, corner])
      (by simp [diagonal, positions, corner])
  have inside : ¬Overhang square diagonal := not_overhang_of_subset (by
    simp [square, diagonal, positions])
  have vertex : ¬Overhang square (.point corner) := not_overhang_of_subset (by
    simp [square, corner, positions])
  have met : ¬NearMiss (.point corner) square :=
    not_nearMiss_of_mem (p := corner) (by simp [positions]) (by simp [square, positions, corner])
  have laws := relations_without_boxes square diagonal
  exact ⟨⟨touch, laws.1 touch⟩, ⟨inside, laws.2.1 inside⟩, ⟨vertex, (laws.2.2 corner).1 vertex⟩,
    met, (laws.2.2 corner).2 met⟩

/-- Half the tolerance before the start of a line, a point passes the test on the line but not that
of the boxes, in real numbers as in doubles. A vertex of a hole beside the shell is not a point of
the polygon, and the polygon meets it. -/
theorem relations_differ_beside_line :
    (let line : Geometry ℝ := .lineString [⟨0, 0, none⟩, ⟨1, 0, none⟩]
    let p : Position ℝ := ⟨-1 / 20000000000, 0, none⟩
    line.hasPoint p = true ∧ (Geometry.point p).intersects line = false ∧
      line.contains (.point p) = false) ∧
    (let shell : Path ℝ := [⟨0, 0, none⟩, ⟨4, 0, none⟩, ⟨4, 4, none⟩, ⟨0, 4, none⟩, ⟨0, 0, none⟩]
    let hole : Path ℝ := [⟨10, 10, none⟩, ⟨11, 10, none⟩, ⟨11, 11, none⟩, ⟨10, 10, none⟩]
    let q : Position ℝ := ⟨10, 10, none⟩
    (Geometry.polygon [shell, hole]).hasPoint q = false ∧
      (Geometry.point q).intersects (.polygon [shell, hole]) = true) ∧
    let line : Geometry Float := .lineString [⟨0, 0, none⟩, ⟨1, 0, none⟩]
    let p : Position Float := ⟨-5e-11, 0, none⟩
    line.hasPoint p = true ∧ (Geometry.point p).intersects line = false ∧
      line.contains (.point p) = false := by
  refine ⟨?_, ?_, by decide +kernel⟩
  · intro line p
    have box : Segment.inBox p ⟨0, 0, none⟩ ⟨1, 0, none⟩ = true := by
      have low := Scalar.min_le_left (b := (1 : ℝ)) (le_refl (0 : ℝ))
      have high := Scalar.le_max_left (b := (1 : ℝ)) (le_refl (0 : ℝ))
      have flat := Scalar.min_le_left (b := (0 : ℝ)) (le_refl (0 : ℝ))
      have flat' := Scalar.le_max_left (b := (0 : ℝ)) (le_refl (0 : ℝ))
      simp only [Segment.inBox, Bool.and_eq_true, decide_eq_true_eq, Segment.tolerance_eq, p]
      refine ⟨⟨⟨?_, ?_⟩, ?_⟩, ?_⟩ <;> linarith
    have on : Segment.hasPoint p ⟨0, 0, none⟩ ⟨1, 0, none⟩ = true :=
      Segment.hasPoint_of_orientation (by simp [Segment.orientation, p]) box
    refine ⟨List.any_eq_true.mpr ⟨(⟨0, 0, none⟩, ⟨1, 0, none⟩), by simp [Path.pairs], on⟩, ?_⟩
    exact apart_of_left (c := 0) (by simp [line, positions]) (by norm_num [p])
  · intro shell hole q
    constructor
    · rw [← Bool.not_eq_true]
      intro inside
      have reached : shell.side q ≠ .outside := by
        intro out
        rw [hasPoint, polygonHasPoint, out] at inside
        contradiction
      have near := Near.of_side reached ⟨0, 0, 4, 4, none, none⟩ fun v hv => by
        rw [Bounds.containsPosition_iff]
        simp only [shell, List.mem_cons, List.not_mem_nil, or_false] at hv
        rcases hv with rfl | rfl | rfl | rfl | rfl <;> norm_num
      have right := (Bounds.containsPosition_iff.mp near).2.1
      norm_num [Bounds.expand, Segment.tolerance_eq, q] at right
    · rw [intersects_eq (not_nearMiss_of_mem (p := q) (by simp [positions])
        (by simp [positions, hole, q]))]
      simp [someVertexIn, positions, hasPoint, hole, q, Position.sameXY_self]

end Geometry
end Geospatial
