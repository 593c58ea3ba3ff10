import Mathlib.Algebra.Order.Field.Basic
import Geospatial.Validation
import Geospatial.Proofs.Measure.Rings
import Geospatial.Proofs.Relation.Laws
import Geospatial.Proofs.Ring.Convex
import Geospatial.Proofs.Ring.Symmetry
import Geospatial.Proofs.Scalar.Real
import Geospatial.Proofs.Segment.Meeting
import Geospatial.Proofs.Validation.Agreement

/-! Paths that cross themselves, in exact arithmetic. Two segments are apart when a third one stands
between them, and round a closed path the first and the last one are neighbors. Neither depends on
the sense of the path, and the test of two segments does not depend on theirs. -/
namespace Geospatial

namespace Segment

variable {K : Type} [Euclidean K]

theorem inBox_comm (p a b : Position K) : inBox p a b = inBox p b a := by
  simp only [inBox, Exact.min_comm a.x, Exact.min_comm a.y, Exact.max_comm a.x, Exact.max_comm a.y]

theorem opposite_comm (d e : K) : opposite d e = opposite e d := by
  rw [opposite, opposite, Bool.or_comm, Bool.and_comm, Bool.and_comm (decide (tolerance < d))]

theorem opposite_neg (d e : K) : opposite (-d) (-e) = opposite d e := by
  simp only [opposite, neg_lt_neg_iff, lt_neg (a := tolerance), Bool.or_comm]

/-- The first segment may be named from its second end. -/
theorem intersects_flip (a₁ a₂ b₁ b₂ : Position K) :
    intersects a₂ a₁ b₁ b₂ = intersects a₁ a₂ b₁ b₂ := by
  simp only [intersects, orientation_reverse a₁ a₂, opposite_neg, Euclidean.abs_eq, abs_neg,
    inBox_comm _ a₂ a₁, opposite_comm (orientation b₁ b₂ a₂)]
  ac_rfl

theorem intersects_swap (s t : Position K × Position K) :
    intersects s.swap.1 s.swap.2 t.swap.1 t.swap.2 = intersects s.1 s.2 t.1 t.2 := by
  rw [Prod.fst_swap, Prod.snd_swap, Prod.fst_swap, Prod.snd_swap, intersects_flip, intersects_comm,
    intersects_flip, intersects_comm]

end Segment

namespace Validation

/-- Two segments meet. -/
def meets {K : Type} [Scalar K] (s t : Position K × Position K) : Bool :=
  Segment.intersects s.1 s.2 t.1 t.2

section

variable {K : Type} [Scalar K] {segments : List (Position K × Position K)}

/-- There is a segment between the two that meet. -/
theorem anyMeetApart_iff : anyMeetApart segments = true ↔
    ∃ s x t, [s, x, t].Sublist segments ∧ meets s t = true := by
  induction segments with
  | nil => simp [anyMeetApart]
  | cons a l ih =>
    cases l with
    | nil =>
      simp only [anyMeetApart, Bool.false_eq_true, false_iff]
      rintro ⟨s, x, t, part, -⟩
      simpa using part.length_le
    | cons b rest =>
      rw [anyMeetApart, Bool.or_eq_true, ih, List.any_eq_true]
      constructor
      · rintro (⟨t, mem, meet⟩ | ⟨s, x, t, part, meet⟩)
        · exact ⟨a, b, t, ((List.singleton_sublist.mpr mem).cons_cons b).cons_cons a, meet⟩
        · exact ⟨s, x, t, part.cons a, meet⟩
      · rintro ⟨s, x, t, part, meet⟩
        cases part with
        | cons _ part => exact .inr ⟨s, x, t, part, meet⟩
        | cons_cons _ part =>
          exact .inl ⟨t, List.singleton_sublist.mp part.tail, meet⟩

theorem anyMeetApart_mono {part : List (Position K × Position K)} (sublist : part.Sublist segments)
    (apart : anyMeetApart part = true) : anyMeetApart segments = true := by
  obtain ⟨s, x, t, inner, meet⟩ := anyMeetApart_iff.mp apart
  exact anyMeetApart_iff.mpr ⟨s, x, t, inner.trans sublist, meet⟩

/-- The segments of a path that have a length. -/
def properSegments (path : Path K) : List (Position K × Position K) :=
  (Path.pairs path).filter fun s => !s.1.sameXY s.2

/-- The first and the last segment of a closed path are not compared: so two that meet are both
among all but the last one, or both among all but the first. -/
theorem crossesItself_eq (path : Path K) : crossesItself path = (decide (4 ≤ path.length) &&
    if path.endsMeet then
      anyMeetApart (properSegments path).dropLast || anyMeetApart (properSegments path).tail
    else anyMeetApart (properSegments path)) := by
  have proper : (Path.pairs path).filter (fun s => !s.1.sameXY s.2) = properSegments path := rfl
  simp only [crossesItself, proper]
  by_cases short : path.length < 4
  · simp [short, Nat.not_le.mpr short]
  rw [if_neg short, decide_eq_true (Nat.not_lt.mp short), Bool.true_and]
  generalize properSegments path = segments
  cases path.endsMeet with
  | false => rfl
  | true =>
    match segments with
    | [] => rfl
    | [s] => rfl
    | [s, t] => simp [anyMeetApart]
    | s :: t :: u :: rest =>
      have inner := anyMeetApart_mono (List.dropLast_sublist (t :: u :: rest))
      simp only [List.dropLast_cons_cons, List.tail_cons, if_true, anyMeetApart] at inner ⊢
      grind

theorem anyMeetApart_of_few (few : segments.length ≤ 2) : anyMeetApart segments = false := by
  rw [← Bool.not_eq_true, anyMeetApart_iff]
  rintro ⟨s, x, t, part, -⟩
  have three := part.length_le
  simp only [List.length_cons, List.length_nil] at three
  omega

/-- Any two of the three segments of a closed triangle are neighbors. -/
theorem crossesItself_of_short {ring : Path K} (short : ring.length ≤ 4)
    (closed : ring.endsMeet = true) : crossesItself ring = false := by
  have few : (properSegments ring).length ≤ 3 := by
    have all := List.length_filter_le (fun s => !s.1.sameXY s.2) (Path.pairs ring)
    rw [Path.pairs, List.length_zip, List.length_tail] at all
    rw [properSegments, Path.pairs]
    omega
  rw [crossesItself_eq, closed, if_pos rfl,
    anyMeetApart_of_few (by rw [List.length_dropLast]; omega),
    anyMeetApart_of_few (by rw [List.length_tail]; omega)]
  simp

end

variable {K : Type} [Euclidean K]

/-- The sense of a path, and with it that of its segments, makes no difference. -/
theorem anyMeetApart_backward (segments : List (Position K × Position K)) :
    anyMeetApart (segments.map Prod.swap).reverse = anyMeetApart segments := by
  have turned {segments : List (Position K × Position K)} (apart : anyMeetApart segments = true) :
      anyMeetApart (segments.map Prod.swap).reverse = true := by
    obtain ⟨s, x, t, part, meet⟩ := anyMeetApart_iff.mp apart
    refine anyMeetApart_iff.mpr ⟨t.swap, x.swap, s.swap, ?_, ?_⟩
    · exact List.reverse_sublist.mpr (part.map Prod.swap)
    · rwa [meets, Segment.intersects_swap, Segment.intersects_comm]
  rw [Bool.eq_iff_iff]
  refine ⟨fun apart => ?_, turned⟩
  have back := turned apart
  rwa [List.map_reverse, List.reverse_reverse, List.map_map, Prod.swap_swap_eq, List.map_id] at back

theorem properSegments_reverse (path : Path K) :
    properSegments path.reverse = ((properSegments path).map Prod.swap).reverse := by
  rw [properSegments, Path.pairs_reverse, List.filter_reverse, List.filter_map]
  congr 3
  funext s
  exact congrArg not (Position.sameXY_comm s.2 s.1)

theorem crossesItself_reverse (path : Path K) :
    crossesItself path.reverse = crossesItself path := by
  simp only [crossesItself_eq, List.length_reverse, Path.endsMeet_reverse, properSegments_reverse,
    anyMeetApart_backward, List.dropLast_reverse, List.tail_reverse, ← List.map_tail,
    ← List.map_dropLast]
  rw [Bool.or_comm]

end Validation
end Geospatial
