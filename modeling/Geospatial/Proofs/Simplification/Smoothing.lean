import Geospatial.Proofs.Ring.Cycle
import Geospatial.Proofs.Relation.BoxTest
import Geospatial.Proofs.Scalar.Real
import Geospatial.Proofs.Simplification.Corner

/-! Smoothed lines. A round replaces every segment by two places on it. A line is open or closed
after the round as it was before, so that all rounds go the same way, and no place leaves a box. -/
namespace Geospatial.Path

section

variable {K : Type} [Scalar K] {points : Path K}

/-- The places at which the segments are cut. -/
def cuts (points : Path K) : Path K := (pairs points).flatMap fun s => quarters s.1 s.2

theorem length_cuts (points : Path K) : (cuts points).length = 2 * (points.length - 1) := by
  have two (s : Position K × Position K) : (quarters s.1 s.2).length = 2 := rfl
  simp only [cuts, List.length_flatMap, two, List.map_const', List.sum_replicate_nat, pairs,
    List.length_zip, List.length_tail]
  omega

theorem cutCorners_of_line (filled : points ≠ []) (unlooped : points.isLoop = false) :
    (cutCorners points).length = 2 * points.length ∧
      (cutCorners points).head? = points.head? ∧
      (cutCorners points).getLast? = points.getLast? := by
  have first := List.head?_eq_some_head filled
  have last := List.getLast?_eq_getLast_of_ne_nil filled
  have result : cutCorners points =
      points.head filled :: (cuts points ++ [points.getLast filled]) := by
    rw [cutCorners, if_neg (Bool.eq_false_iff.mp unlooped), first, last]
    rfl
  rw [result]
  refine ⟨?_, first.symm, ?_⟩
  · have positive := List.length_pos_iff.mpr filled
    rw [List.length_cons, List.length_append, length_cuts, List.length_singleton]
    omega
  · rw [last, ← List.cons_append, List.getLast?_concat]

theorem repeat_cutCorners_of_line (filled : points ≠ []) (apart : points.endsMeet = false)
    (rounds : ℕ) : (rounds.repeat cutCorners points).length = 2 ^ rounds * points.length ∧
      (rounds.repeat cutCorners points).head? = points.head? ∧
      (rounds.repeat cutCorners points).getLast? = points.getLast? := by
  induction rounds with
  | zero => exact ⟨(Nat.one_mul _).symm, rfl, rfl⟩
  | succ rounds ih =>
    obtain ⟨size, first, last⟩ := ih
    have filled' : rounds.repeat cutCorners points ≠ [] := by
      intro empty
      rw [empty] at first
      exact filled (List.head?_eq_none_iff.mp first.symm)
    -- Whether to go on round a loop is asked in each round, and answered by the ends.
    have apart' : (rounds.repeat cutCorners points).endsMeet = false := by
      rw [endsMeet, first, last]
      exact apart
    obtain ⟨size', first', last'⟩ := cutCorners_of_line filled' (isLoop_eq_false apart')
    refine ⟨?_, first'.trans first, last'.trans last⟩
    rw [Nat.repeat, size', size, pow_succ', mul_assoc]

end

section

variable {K : Type} [Euclidean K] {points : Path K} {a b p : Position K}

theorem cutCorners_of_loop (looped : points.isLoop = true) :
    (cutCorners points).isLoop = true ∧
      (cutCorners points).length = 2 * (points.length - 1) + 1 ∧
      (cutCorners points).head? = (cutCorners points).getLast? := by
  have many := two_lt_of_isLoop looped
  have size := length_cuts points
  have result : cutCorners points = (cuts points).closedCopy := if_pos looped
  rw [result]
  refine ⟨isLoop_closedCopy (by omega) fun p _ => Position.sameXY_self p, ?_⟩
  obtain ⟨c, rest, cut⟩ : ∃ c rest, cuts points = c :: rest :=
    List.exists_cons_of_length_pos (by omega)
  rw [← size, cut, closedCopy_cons, List.length_append, List.getLast?_concat]
  exact ⟨rfl, rfl⟩

theorem repeat_cutCorners_of_loop (looped : points.isLoop = true) (rounds : ℕ) :
    (rounds.repeat cutCorners points).isLoop = true ∧
      (rounds.repeat cutCorners points).length = 2 ^ rounds * (points.length - 1) + 1 ∧
      (0 < rounds → (rounds.repeat cutCorners points).head? =
        (rounds.repeat cutCorners points).getLast?) := by
  induction rounds with
  | zero =>
    have many := two_lt_of_isLoop looped
    refine ⟨looped, ?_, fun absent => absurd absent (Nat.lt_irrefl 0)⟩
    rw [Nat.repeat]
    omega
  | succ rounds ih =>
    obtain ⟨looped', size, -⟩ := ih
    obtain ⟨closed, size', meet⟩ := cutCorners_of_loop looped'
    refine ⟨closed, ?_, fun _ => meet⟩
    rw [Nat.repeat, size', size, Nat.add_sub_cancel, pow_succ', mul_assoc]

theorem on_of_mem_quarters (mem : p ∈ quarters a b) : Segment.On p a b := by
  have quarter : (0.25 : K) = 1 / 4 := by norm_num [Euclidean.ofScientific_true]
  have rest : (0.75 : K) = 1 - 1 / 4 := by norm_num [Euclidean.ofScientific_true]
  rw [quarters, quarter, rest] at mem
  rcases List.mem_pair.mp mem with rfl | rfl
  · exact ⟨1 / 4, by norm_num, by norm_num, by ring, by ring⟩
  · exact ⟨1 - 1 / 4, by norm_num, by norm_num, by ring, by ring⟩

/-- A round makes places on segments only, if only on those from a vertex to itself. -/
theorem exists_on_of_mem_cutCorners (mem : p ∈ cutCorners points) :
    ∃ a ∈ points, ∃ b ∈ points, Segment.On p a b := by
  have ofCut {q : Position K} (cut : q ∈ cuts points) :
      ∃ a ∈ points, ∃ b ∈ points, Segment.On q a b := by
    obtain ⟨s, step, here⟩ := List.mem_flatMap.mp cut
    obtain ⟨first, second⟩ := mem_of_mem_pairs step
    exact ⟨s.1, first, s.2, second, on_of_mem_quarters here⟩
  by_cases looped : points.isLoop = true
  · rw [show cutCorners points = (cuts points).closedCopy from if_pos looped, closedCopy,
      List.mem_append, Option.mem_toList] at mem
    rcases mem with cut | first
    · exact ofCut cut
    · exact ofCut (List.mem_of_mem_head? first)
  · rw [show cutCorners points = points.head?.toList ++ cuts points ++ points.getLast?.toList from
      if_neg looped, List.mem_append, List.mem_append, Option.mem_toList, Option.mem_toList] at mem
    rcases mem with (first | cut) | last
    · exact ⟨p, List.mem_of_mem_head? first, p, List.mem_of_mem_head? first, .left p p⟩
    · exact ofCut cut
    · exact ⟨p, List.mem_of_mem_getLast? last, p, List.mem_of_mem_getLast? last, .left p p⟩

theorem repeat_cutCorners_covered {box : Bounds K}
    (covers : ∀ p ∈ points, box.containsPosition p = true) (rounds : ℕ) :
    ∀ p ∈ rounds.repeat cutCorners points, box.containsPosition p = true := by
  induction rounds with
  | zero => exact covers
  | succ rounds ih =>
    intro p mem
    obtain ⟨a, ha, b, hb, on⟩ := exists_on_of_mem_cutCorners mem
    exact Segment.covered_of_on on (ih a ha) (ih b hb)

theorem exists_ends_of_isLoop (looped : points.isLoop = true) : ∃ a b,
    points.head? = some a ∧ points.getLast? = some b ∧ a.x = b.x ∧ a.y = b.y := by
  rw [isLoop, Bool.and_eq_true, endsMeet] at looped
  split at looped
  · rename_i a b first last
    exact ⟨a, b, first, last, Position.sameXY_iff.mp looped.2⟩
  · exact absurd looped.2 Bool.false_ne_true

/-- Each round doubles the vertices of an open line, which keeps both ends, and the segments of a
closed one, which starts again where it ends. All that comes out stays in the box of the line. -/
theorem smooth_keeps_shape (points : Path K) (many : 3 ≤ points.length) (rounds : ℕ) :
    ∃ out, points.smooth rounds = out ∧
      (points.isLoop = false → out.length = 2 ^ rounds * points.length ∧
        out.head? = points.head? ∧ out.getLast? = points.getLast?) ∧
      (points.isLoop = true → out.length = 2 ^ rounds * (points.length - 1) + 1 ∧
        ∃ a b, out.head? = some a ∧ out.getLast? = some b ∧ a.x = b.x ∧ a.y = b.y ∧
          (0 < rounds → a = b)) ∧
      ∃ box, Bounds.ofPositions? points = some box ∧ ∀ p ∈ out, box.containsPosition p = true := by
  have filled : points ≠ [] := List.ne_nil_of_length_pos (by omega)
  refine ⟨_, if_neg (Nat.not_lt_of_le many), fun unlooped => ?_, fun looped => ?_, ?_⟩
  · apply repeat_cutCorners_of_line filled
    exact (isLoop_eq many).symm.trans unlooped
  · obtain ⟨closed, size, meet⟩ := repeat_cutCorners_of_loop looped rounds
    obtain ⟨a, b, first, last, hx, hy⟩ := exists_ends_of_isLoop closed
    refine ⟨size, a, b, first, last, hx, hy, fun again => ?_⟩
    exact Option.some.inj (first.symm.trans ((meet again).trans last))
  · obtain ⟨p, rest, rfl⟩ := List.exists_cons_of_ne_nil filled
    refine ⟨_, rfl, repeat_cutCorners_covered ?_ rounds⟩
    intro q mem
    exact (Bounds.leastOver_ofPositions? rfl).covers _ (List.mem_map_of_mem mem)

end

/-- Three rounds along two sides of a triangle, and about it. -/
theorem smooth_keeps_shape_triangle :
    ∃ sides : Path ℝ, sides = [⟨0, 0, none⟩, ⟨4, 0, none⟩, ⟨0, 4, none⟩] ∧
      (sides.smooth 3).length = 24 ∧ (sides.closedCopy.smooth 3).length = 25 := by
  let sides : Path ℝ := [⟨0, 0, none⟩, ⟨4, 0, none⟩, ⟨0, 4, none⟩]
  have apart : sides.isLoop = false := by
    simp [sides, isLoop, endsMeet, Position.sameXY]
  have closed : sides.closedCopy.isLoop = true :=
    isLoop_closedCopy (by simp [sides]) fun p _ => Position.sameXY_self p
  obtain ⟨out, result, line, -⟩ := smooth_keeps_shape sides le_rfl 3
  obtain ⟨out', result', -, loop, -⟩ := smooth_keeps_shape sides.closedCopy
    (by simp [sides, closedCopy]) 3
  refine ⟨sides, rfl, ?_, ?_⟩
  · rw [result]
    exact (line apart).1
  · rw [result']
    exact (loop closed).1

end Geospatial.Path
