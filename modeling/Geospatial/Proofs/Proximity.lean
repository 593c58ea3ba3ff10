import Mathlib.Order.Bounds.Basic
import Mathlib.Tactic.LinearCombination
import Geospatial.Proximity
import Geospatial.Proofs.Relation.Reflexive
import Geospatial.Proofs.Simplification.Refinement

/-! How near a position is to a line, in exact arithmetic: the distance to a segment is the least of
the distances to its places, whichever end comes first, and the distance to a line the least of those
to the places on it. Vertices that are inserted on its segments leave a line where it is. -/
namespace Geospatial

section

variable {K : Type} [Exact K] {lo hi a u : K}

theorem Exact.clamp_mem (ordered : lo ≤ hi) (a : K) :
    lo ≤ Scalar.clamp lo hi a ∧ Scalar.clamp lo hi a ≤ hi := by
  unfold Scalar.clamp
  split_ifs with below above
  · exact ⟨le_rfl, ordered⟩
  · exact ⟨ordered, le_rfl⟩
  · exact ⟨not_lt.mp below, not_lt.mp above⟩

/-- No value between the bounds is nearer than the clamped one. -/
theorem Exact.abs_clamp_sub_le (low : lo ≤ u) (high : u ≤ hi) :
    |Scalar.clamp lo hi a - a| ≤ |u - a| := by
  unfold Scalar.clamp
  split_ifs with below above
  · rw [abs_of_pos (sub_pos.mpr below), abs_of_pos (sub_pos.mpr (below.trans_le low))]
    exact sub_le_sub_right low a
  · rw [abs_of_neg (sub_neg.mpr above), abs_of_neg (sub_neg.mpr (high.trans_lt above))]
    exact neg_le_neg (sub_le_sub_right high a)
  · rw [sub_self, abs_zero]
    exact abs_nonneg _

end

namespace Segment

open Geospatial.Path (along on_along)

section

variable {K : Type} [Euclidean K] {a b p x : Position K}

def lengthSquared (a b : Position K) : K :=
  (b.x - a.x) * (b.x - a.x) + (b.y - a.y) * (b.y - a.y)

/-- The share of the way from `a` to `b` at the foot of the perpendicular from `p`. -/
def foot (p a b : Position K) : K :=
  ((p.x - a.x) * (b.x - a.x) + (p.y - a.y) * (b.y - a.y)) / lengthSquared a b

theorem lengthSquared_nonneg (a b : Position K) : 0 ≤ lengthSquared a b :=
  add_nonneg (mul_self_nonneg _) (mul_self_nonneg _)

theorem distance_of_point (short : lengthSquared a b = 0) :
    Segment.distance p a b = p.distance a := by
  rw [Segment.distance]
  exact if_pos ((Exact.beq_iff_eq _ _).mpr short)

theorem distance_of_segment (long : lengthSquared a b ≠ 0) :
    Segment.distance p a b = p.distance (along a b (Scalar.clamp 0 1 (foot p a b))) := by
  rw [Position.distance_comm, Segment.distance]
  exact if_neg fun short => long ((Exact.beq_iff_eq _ _).mp short)

/-- Along the line, the squared distance grows with the distance from the foot. -/
theorem distance_along_mul_self (long : lengthSquared a b ≠ 0) (t : K) :
    p.distance (along a b t) * p.distance (along a b t) =
      p.distance (along a b (foot p a b)) * p.distance (along a b (foot p a b)) +
        lengthSquared a b * (|t - foot p a b| * |t - foot p a b|) := by
  have foot_mul : foot p a b * lengthSquared a b =
      (p.x - a.x) * (b.x - a.x) + (p.y - a.y) * (b.y - a.y) := div_mul_cancel₀ _ long
  simp only [Position.distance, Euclidean.hypot_mul_self, abs_mul_abs_self, along]
  unfold lengthSquared at foot_mul ⊢
  linear_combination 2 * (t - foot p a b) * foot_mul

/-- The nearest place of a segment is as far away as the segment is said to be. -/
theorem distance_isLeast (p a b : Position K) :
    IsLeast {d | ∃ x, On x a b ∧ p.distance x = d} (Segment.distance p a b) := by
  by_cases short : lengthSquared a b = 0
  · rw [distance_of_point short]
    refine ⟨⟨a, On.left a b, rfl⟩, ?_⟩
    rintro d ⟨x, ⟨t, -, -, hx, hy⟩, rfl⟩
    obtain ⟨flat, level⟩ := mul_self_add_mul_self_eq_zero.mp short
    rw [flat, mul_zero, add_zero] at hx
    rw [level, mul_zero, add_zero] at hy
    rw [Position.distance, Position.distance, hx, hy]
  · obtain ⟨low, high⟩ := Exact.clamp_mem zero_le_one (foot p a b)
    rw [distance_of_segment short]
    refine ⟨⟨_, on_along low high, rfl⟩, ?_⟩
    rintro d ⟨x, ⟨t, start, stop, hx, hy⟩, rfl⟩
    have same : p.distance x = p.distance (along a b t) := by
      rw [Position.distance, Position.distance, hx, hy]
      rfl
    have nearer := Exact.abs_clamp_sub_le (a := foot p a b) start stop
    -- both squares are that of the foot and that of the way from there, and only that differs
    rw [same]
    apply nonneg_le_nonneg_of_sq_le_sq (Position.distance_nonneg _ _)
    rw [distance_along_mul_self short, distance_along_mul_self short t]
    gcongr
    exact lengthSquared_nonneg a b

theorem distance_comm (p a b : Position K) :
    Segment.distance p a b = Segment.distance p b a := by
  have turned : {d | ∃ x, On x a b ∧ p.distance x = d} = {d | ∃ x, On x b a ∧ p.distance x = d} :=
    Set.ext fun d => exists_congr fun x => and_congr_left' ⟨On.symm, On.symm⟩
  exact (turned ▸ distance_isLeast p a b).unique (distance_isLeast p b a)

end

end Segment

namespace Path

variable {K : Type} {a b x : Position K} {inner rest line out : Path K}

/-- The place is a vertex of the line or lies on one of its segments. -/
def Passes [Exact K] (line : Path K) (x : Position K) : Prop :=
  (∃ v ∈ line, x.sameXY v = true) ∨ ∃ s ∈ pairs line, Segment.On x s.1 s.2

section

variable [Exact K]

theorem passes_singleton : Passes [a] x ↔ x.sameXY a = true := by
  simp [Passes, pairs]

theorem passes_cons_cons :
    Passes (a :: b :: rest) x ↔ Segment.On x a b ∨ Passes (b :: rest) x := by
  have steps : pairs (a :: b :: rest) = (a, b) :: pairs (b :: rest) := rfl
  simp only [Passes, steps, List.exists_mem_cons_iff (a := a), List.exists_mem_cons_iff (a := (a, b))]
  constructor
  · rintro ((first | later) | (on | later))
    · exact .inl ((Segment.On.left a b).of_sameXY ((Position.sameXY_comm a x).trans first))
    · exact .inr (.inl later)
    · exact .inl on
    · exact .inr (.inr later)
  · rintro (on | later | later)
    · exact .inr (.inl on)
    · exact .inl (.inr later)
    · exact .inr (.inr later)

theorem Passes.append_left (before : Path K) (passes : Passes (b :: rest) x) :
    Passes (before ++ b :: rest) x := by
  rcases passes with ⟨v, vertex, same⟩ | ⟨s, step, on⟩
  · exact .inl ⟨v, List.mem_append_right before vertex, same⟩
  · refine .inr ⟨s, ?_, on⟩
    rw [pairs_append_cons]
    exact List.mem_append_right _ step

/-- Vertices in any order on the way from `a` to `b` add no place to it and leave none out. -/
theorem passes_detour (rest : Path K) (x : Position K) {c : Position K} (start : Segment.On c a b)
    (on : ∀ v ∈ inner, Segment.On v a b) :
    (Passes (c :: inner ++ b :: rest) x → Segment.On x a b ∨ Passes (b :: rest) x) ∧
      (Segment.On x c b → Passes (c :: inner ++ b :: rest) x) := by
  -- the vertices may go back, so that of the way only what is left from `c` on is sure to be passed
  induction inner generalizing c with
  | nil =>
    refine ⟨fun passes => ?_, fun here => passes_cons_cons.mpr (.inl here)⟩
    exact (passes_cons_cons.mp passes).imp_left (start.trans (.right a b))
  | cons v inner ih =>
    obtain ⟨first, others⟩ := List.forall_mem_cons.mp on
    obtain ⟨back, forth⟩ := ih first others
    constructor
    · intro passes
      rcases passes_cons_cons.mp passes with here | later
      · exact .inl (start.trans first here)
      · exact back later
    · intro here
      exact passes_cons_cons.mpr ((start.detour first here).imp_right forth)

end

variable [Euclidean K]

theorem Refined.passes_iff (refined : Refined line out) : out.Passes x ↔ line.Passes x := by
  induction refined with
  | nil => rfl
  | single a => rfl
  | @segment a b inner line out on refined ih =>
    rw [passes_cons_cons, ← ih]
    obtain ⟨back, forth⟩ := passes_detour out x (.left a b) on
    exact ⟨back, fun passes => passes.elim forth (Passes.append_left (a :: inner))⟩

theorem Refined.ne_nil (refined : Refined line out) (filled : line ≠ []) : out ≠ [] :=
  fun empty => filled (List.sublist_nil.mp (empty ▸ refined.sublist))

/-- A line of several vertices is made up of its segments. -/
theorem Passes.exists_on (passes : Passes (a :: b :: rest) x) :
    ∃ s ∈ pairs (a :: b :: rest), Segment.On x s.1 s.2 := by
  rcases passes with ⟨v, vertex, same⟩ | on
  · rw [Position.sameXY_comm] at same
    obtain ⟨s, step, rfl | rfl⟩ := exists_mem_pairs vertex (by simp)
    · exact ⟨s, step, (Segment.On.left s.1 s.2).of_sameXY same⟩
    · exact ⟨s, step, (Segment.On.right s.1 s.2).of_sameXY same⟩
  · exact on

end Path

namespace Proximity

open Segment (On)

variable {K : Type} [Euclidean K] {a b : Position K} {rest line out : Path K}

theorem planarLineDistance_isLeast (p a b : Position K) (rest : Path K) :
    IsLeast {d | ∃ x, Path.Passes (a :: b :: rest) x ∧ p.distance x = d}
      (planarLineDistance p (a :: b :: rest)) := by
  constructor
  · have among : planarLineDistance p (a :: b :: rest) ∈
        (Path.pairs (a :: b :: rest)).map fun s => Segment.distance p s.1 s.2 :=
      Exact.least_mem (List.cons_ne_nil _ _)
    obtain ⟨s, step, nearest⟩ := List.mem_map.mp among
    obtain ⟨x, on, far⟩ := (Segment.distance_isLeast p s.1 s.2).1
    exact ⟨x, .inr ⟨s, step, on⟩, far.trans nearest⟩
  · rintro d ⟨x, passes, rfl⟩
    obtain ⟨s, step, on⟩ := passes.exists_on
    calc planarLineDistance p (a :: b :: rest) ≤ Segment.distance p s.1 s.2 :=
          Exact.least_le (List.mem_map_of_mem step)
      _ ≤ p.distance x := (Segment.distance_isLeast p s.1 s.2).2 ⟨x, on, rfl⟩

variable [Geodesy K]

theorem lineDistance_isLeast (p : Position K) (filled : line ≠ []) :
    IsLeast {d | ∃ x, line.Passes x ∧ p.distance x = d} (lineDistance .euclidean p line) := by
  match line, filled with
  | [only], _ =>
    refine ⟨⟨only, Path.passes_singleton.mpr (Position.sameXY_self only), rfl⟩, ?_⟩
    rintro d ⟨x, passes, rfl⟩
    obtain ⟨hx, hy⟩ := Position.sameXY_iff.mp (Path.passes_singleton.mp passes)
    rw [Position.distance, hx, hy]
    exact le_rfl
  | a :: b :: rest, _ => exact planarLineDistance_isLeast p a b rest

/-- Vertices that are inserted on the segments of a line do not change how near it is. -/
theorem lineDistance_of_refined (p : Position K) (refined : Path.Refined line out) :
    lineDistance .euclidean p out = lineDistance .euclidean p line := by
  by_cases filled : line = []
  · subst filled
    cases refined
    rfl
  · have least := lineDistance_isLeast p (refined.ne_nil filled)
    simp only [refined.passes_iff] at least
    exact least.unique (lineDistance_isLeast p filled)

/-- The distance to a segment, in either direction, is the least of the distances to its places, and
the distance to a line the least of those to the places on it. It stays the same when vertices are
inserted on the segments of the line. -/
theorem distances_least (p : Position K) :
    (∀ a b : Position K,
      IsLeast {d | ∃ x, On x a b ∧ p.distance x = d} (Segment.distance p a b) ∧
        Segment.distance p a b = Segment.distance p b a) ∧
    (∀ line : Path K, line ≠ [] →
      IsLeast {d | ∃ x, line.Passes x ∧ p.distance x = d} (lineDistance .euclidean p line)) ∧
    ∀ line out : Path K, Path.Refined line out →
      lineDistance .euclidean p out = lineDistance .euclidean p line :=
  ⟨fun a b => ⟨Segment.distance_isLeast p a b, Segment.distance_comm p a b⟩,
    fun _ filled => lineDistance_isLeast p filled, fun _ _ => lineDistance_of_refined p⟩

/-- A position beside a line of two segments, of which the first is divided back and forth. -/
theorem distances_least_divided :
    let p : Position ℝ := ⟨1, 1, none⟩
    let line : Path ℝ := [⟨0, 0, none⟩, ⟨4, 0, none⟩, ⟨4, 3, none⟩]
    let divided : Path ℝ := [⟨0, 0, none⟩, ⟨3, 0, none⟩, ⟨1, 0, none⟩, ⟨4, 0, none⟩, ⟨4, 3, none⟩]
    line ≠ [] ∧ Path.Refined line divided ∧
      lineDistance .euclidean p divided = lineDistance .euclidean p line ∧
      lineDistance .euclidean p line ≤ p.distance ⟨1, 0, none⟩ := by
  intro p line divided
  have on (t : ℝ) (low : 0 ≤ t) (high : t ≤ 4) : On ⟨t, 0, none⟩ ⟨0, 0, none⟩ ⟨4, 0, none⟩ :=
    ⟨t / 4, by linarith, by linarith, by ring, by ring⟩
  have refined : Path.Refined line divided := by
    have inner : ∀ v ∈ [(⟨3, 0, none⟩ : Position ℝ), ⟨1, 0, none⟩],
        On v ⟨0, 0, none⟩ ⟨4, 0, none⟩ := by
      intro v mem
      rcases List.mem_pair.mp mem with rfl | rfl
      · exact on 3 (by norm_num) (by norm_num)
      · exact on 1 (by norm_num) (by norm_num)
    have undivided : ∀ v ∈ ([] : Path ℝ), On v ⟨4, 0, none⟩ ⟨4, 3, none⟩ := nofun
    exact .segment inner (.segment undivided (.single _))
  obtain ⟨-, least, same⟩ := distances_least p
  have filled : line ≠ [] := List.cons_ne_nil _ _
  have passes : line.Passes ⟨1, 0, none⟩ :=
    Path.passes_cons_cons.mpr (.inl (on 1 (by norm_num) (by norm_num)))
  exact ⟨filled, refined, same _ _ refined, (least line filled).2 ⟨_, passes, rfl⟩⟩

end Proximity
end Geospatial
