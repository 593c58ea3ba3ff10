import Mathlib.Data.List.Induction
import Mathlib.Logic.Function.Iterate
import Mathlib.Logic.Relation
import Geospatial.Proofs.Outcome
import Geospatial.Proofs.Scalar.Double
import Geospatial.Proofs.Scalar.Rounding
import Geospatial.Simplification.ChordSearch

/-! Where the search of a line cuts a stretch, and when the search ends. A cut is at the first of
the vertices that are farthest from the chord, values that are not numbers left aside, and strictly
between the ends; it leaves two shorter parts, so that a search without other cuts ends, after less
than two steps for each edge. Only a negative tolerance lets a stretch be cut where no vertex is off
the chord, and then at its own first end: it is put back as long as it was, and the search does not
end. -/
namespace Geospatial.Path

variable {K : Type} [Scalar K] {vertex : ℕ → Position K} {tolerance : K}

namespace Stretch

variable {r q : Stretch} {i j : ℕ}

section Cut

theorem mem_inner : i ∈ r.inner ↔ r.first < i ∧ i < r.last := by
  rw [inner, length, List.mem_range'_1]
  omega

/-- The first of the inner vertices that are off the chord and farthest from it. -/
structure IsFarthest (vertex : ℕ → Position K) (r : Stretch) (i : ℕ) : Prop where
  after : r.first < i
  before : i < r.last
  off : 0 < r.offChord vertex i
  greatest {j : ℕ} : r.first < j → j < r.last → ¬r.offChord vertex i < r.offChord vertex j
  earliest {j : ℕ} : r.first < j → j < i → ¬r.offChord vertex i ≤ r.offChord vertex j

theorem farther_of_lt {best : ℕ × K} (more : best.2 < r.offChord vertex i) :
    r.farther vertex best i = (i, r.offChord vertex i) := if_pos more

theorem farther_of_not_lt {best : ℕ × K} (less : ¬best.2 < r.offChord vertex i) :
    r.farther vertex best i = best := if_neg less

variable [Scalar.LawfulOrder K]

/-- The best candidate of some vertices is the one before them, or the first of the farthest. -/
theorem foldl_farther (vertex : ℕ → Position K) (is : List ℕ) (best : ℕ × K) :
    (is.foldl (r.farther vertex) best = best ∧ ∀ j ∈ is, ¬best.2 < r.offChord vertex j) ∨
    ∃ before i after, is = before ++ i :: after ∧
      is.foldl (r.farther vertex) best = (i, r.offChord vertex i) ∧
      best.2 < r.offChord vertex i ∧
      (∀ j ∈ before, ¬r.offChord vertex i ≤ r.offChord vertex j) ∧
      ∀ j ∈ after, ¬r.offChord vertex i < r.offChord vertex j := by
  induction is using List.reverseRecOn with
  | nil => exact .inl ⟨rfl, nofun⟩
  | append_singleton is k ih =>
    rw [List.foldl_append, List.foldl_cons, List.foldl_nil]
    rcases ih with ⟨same, level⟩ | ⟨before, i, after, split, chosen, off, first, rest⟩
    · rw [same]
      by_cases more : best.2 < r.offChord vertex k
      · refine .inr ⟨is, k, [], rfl, farther_of_lt more, more, fun j hj back => ?_, nofun⟩
        exact level j hj (Scalar.lt_of_lt_of_le more back)
      · refine .inl ⟨farther_of_not_lt more, List.forall_mem_append.mpr ⟨level, ?_⟩⟩
        exact List.forall_mem_singleton.mpr more
    · rw [chosen]
      by_cases more : r.offChord vertex i < r.offChord vertex k
      · refine .inr ⟨is, k, [], rfl, farther_of_lt more, Scalar.lt_trans off more, ?_, nofun⟩
        intro j hj back
        have beyond := Scalar.lt_of_lt_of_le more back
        rw [split, List.mem_append, List.mem_cons] at hj
        rcases hj with hj | rfl | hj
        · exact first j hj (Scalar.le_of_lt beyond)
        · exact Scalar.lt_irrefl _ beyond
        · exact rest j hj beyond
      · refine .inr ⟨before, i, after ++ [k], ?_, farther_of_not_lt more, off, first, ?_⟩
        · rw [split, List.append_assoc, List.cons_append]
        · exact List.forall_mem_append.mpr ⟨rest, List.forall_mem_singleton.mpr more⟩

/-- No vertex is off the chord and nothing is found, or the first of the farthest vertices is. -/
theorem farthest_spec (vertex : ℕ → Position K) (r : Stretch) :
    (r.farthest vertex = (r.first, 0) ∧
      ∀ j, r.first < j → j < r.last → ¬0 < r.offChord vertex j) ∨
    ∃ i, r.IsFarthest vertex i ∧ r.farthest vertex = (i, r.offChord vertex i) := by
  rcases foldl_farther vertex r.inner (r.first, 0) with
    ⟨same, none⟩ | ⟨before, i, after, split, chosen, off, first, rest⟩
  · exact .inl ⟨same, fun j low high => none j (mem_inner.mpr ⟨low, high⟩)⟩
  · have parted {j : ℕ} (low : r.first < j) (high : j < r.last) :
        j ∈ before ∨ j = i ∨ j ∈ after := by
      have here := mem_inner.mpr ⟨low, high⟩
      rwa [split, List.mem_append, List.mem_cons] at here
    have inside : r.first < i ∧ i < r.last := mem_inner.mp (by simp [split])
    have sorted : (before ++ i :: after).Pairwise (· < ·) := split ▸ List.pairwise_lt_range'
    have ahead := (List.pairwise_cons.mp (List.pairwise_append.mp sorted).2.1).1
    refine .inr ⟨i, ⟨inside.1, inside.2, off, ?_, ?_⟩, chosen⟩
    · intro j low high less
      rcases parted low high with hj | rfl | hj
      · exact first j hj (Scalar.le_of_lt less)
      · exact Scalar.lt_irrefl _ less
      · exact rest j hj less
    · intro j low less
      rcases parted low (Nat.lt_trans less inside.2) with hj | rfl | hj
      · exact first j hj
      · exact absurd less (Nat.lt_irrefl _)
      · exact absurd less (Nat.lt_asymm (ahead j hj))

theorem IsFarthest.unique (hi : r.IsFarthest vertex i) (hj : r.IsFarthest vertex j) : i = j := by
  have number {k : ℕ} (hk : r.IsFarthest vertex k) := Scalar.le_right (Scalar.le_of_lt hk.off)
  rcases Nat.lt_trichotomy i j with less | same | more
  · exact absurd (Scalar.le_of_not_lt (number hj) (number hi) (hi.greatest hj.after hj.before))
      (hj.earliest hi.after less)
  · exact same
  · exact absurd (Scalar.le_of_not_lt (number hi) (number hj) (hj.greatest hi.after hi.before))
      (hi.earliest hj.after more)

/-- A stretch is cut at its farthest vertex, or at its own first end. -/
theorem cut?_eq_some : r.cut? vertex tolerance = some i ↔
    (r.IsFarthest vertex i ∧ tolerance < r.offChord vertex i) ∨
    (i = r.first ∧ 1 < r.length ∧ tolerance < 0 ∧
      ∀ j, r.first < j → j < r.last → ¬0 < r.offChord vertex j) := by
  unfold cut?
  constructor
  · intro found
    split at found
    · contradiction
    · rename_i long
      rcases farthest_spec vertex r with ⟨flat, level⟩ | ⟨k, far, chosen⟩
      · simp only [flat, Option.ite_none_right_eq_some, Option.some.injEq] at found
        exact .inr ⟨found.2.symm, by omega, found.1, level⟩
      · simp only [chosen, Option.ite_none_right_eq_some, Option.some.injEq] at found
        obtain ⟨beyond, rfl⟩ := found
        exact .inl ⟨far, beyond⟩
  · rintro (⟨far, beyond⟩ | ⟨rfl, long, negative, level⟩)
    · have long : ¬r.length ≤ 1 := by
        have := far.after
        have := far.before
        rw [length]
        omega
      rw [if_neg long]
      rcases farthest_spec vertex r with ⟨-, level⟩ | ⟨k, far', chosen⟩
      · exact absurd far.off (level i far.after far.before)
      · obtain rfl := far.unique far'
        simp only [chosen, if_pos beyond]
    · rw [if_neg (by omega)]
      rcases farthest_spec vertex r with ⟨flat, -⟩ | ⟨k, far, -⟩
      · simp only [flat, if_pos negative]
      · exact absurd far.off (level k far.after far.before)

theorem cut?_eq_none (nonneg : 0 ≤ tolerance) : r.cut? vertex tolerance = none ↔
    ∀ j, r.first < j → j < r.last → ¬tolerance < r.offChord vertex j := by
  constructor
  · intro uncut j low high beyond
    have off := Scalar.lt_of_le_of_lt nonneg beyond
    rcases farthest_spec vertex r with ⟨-, level⟩ | ⟨i, far, -⟩
    · exact level j low high off
    · have most := Scalar.le_of_not_lt (Scalar.le_right (Scalar.le_of_lt off))
        (Scalar.le_right (Scalar.le_of_lt far.off)) (far.greatest low high)
      have cut := cut?_eq_some.mpr (.inl ⟨far, Scalar.lt_of_lt_of_le beyond most⟩)
      rw [uncut] at cut
      contradiction
  · intro within
    refine Option.eq_none_iff_forall_ne_some.mpr fun i found => ?_
    rcases cut?_eq_some.mp found with ⟨far, beyond⟩ | ⟨-, -, negative, -⟩
    · exact within i far.after far.before beyond
    · exact Scalar.not_lt_of_le nonneg negative

end Cut

/-- One of the two parts that a cut leaves of a stretch. -/
def HasPart (vertex : ℕ → Position K) (tolerance : K) (r q : Stretch) : Prop :=
  ∃ i, r.cut? vertex tolerance = some i ∧ (q = ⟨r.first, i⟩ ∨ q = ⟨i, r.last⟩)

/-- Neither the stretch nor what comes of it is cut at its own first end. -/
def Parted (vertex : ℕ → Position K) (tolerance : K) (r : Stretch) : Prop :=
  ∀ q, Relation.ReflTransGen (HasPart vertex tolerance) r q → q.cut? vertex tolerance ≠ some q.first

theorem eq_of_uncut (uncut : r.cut? vertex tolerance = none)
    (reached : Relation.ReflTransGen (HasPart vertex tolerance) r q) : q = r := by
  rcases reached.cases_head with same | ⟨_, ⟨i, found, -⟩, -⟩
  · exact same.symm
  · rw [uncut] at found
    contradiction

/-- What comes of a stretch that is cut comes of its parts. -/
theorem reaches_of_cut (cut : r.cut? vertex tolerance = some i) :
    Relation.ReflTransGen (HasPart vertex tolerance) r q ↔
      q = r ∨ Relation.ReflTransGen (HasPart vertex tolerance) ⟨i, r.last⟩ q ∨
        Relation.ReflTransGen (HasPart vertex tolerance) ⟨r.first, i⟩ q := by
  constructor
  · intro reached
    rcases reached.cases_head with same | ⟨_, ⟨k, found, part⟩, reached⟩
    · exact .inl same.symm
    · obtain rfl := Option.some.inj (cut.symm.trans found)
      rcases part with rfl | rfl
      · exact .inr (.inr reached)
      · exact .inr (.inl reached)
  · rintro (rfl | reached | reached)
    · exact .refl
    · exact .head ⟨i, cut, .inr rfl⟩ reached
    · exact .head ⟨i, cut, .inl rfl⟩ reached

theorem parted_of_uncut (uncut : r.cut? vertex tolerance = none) : r.Parted vertex tolerance := by
  intro q reached
  rw [eq_of_uncut uncut reached, uncut]
  nofun

theorem parted_of_cut (cut : r.cut? vertex tolerance = some i) : r.Parted vertex tolerance ↔
    Parted vertex tolerance ⟨i, r.last⟩ ∧ Parted vertex tolerance ⟨r.first, i⟩ := by
  simp only [Parted, reaches_of_cut cut, or_imp, forall_and, forall_eq]
  refine and_iff_right_of_imp fun ⟨right, _⟩ here => ?_
  -- cut at the first end, the stretch is its own right part
  obtain rfl := Option.some.inj (cut.symm.trans here)
  exact right r .refl here

/-- The steps that it takes to search a stretch, or more. -/
def effort (r : Stretch) : ℕ := 2 * (r.length - 1) + 1

theorem length_parts_lt (between : r.first < i ∧ i < r.last) :
    (Stretch.mk i r.last).length < r.length ∧ (Stretch.mk r.first i).length < r.length := by
  simp only [length]
  omega

theorem effort_parts_lt (between : r.first < i ∧ i < r.last) :
    (Stretch.mk i r.last).effort + (Stretch.mk r.first i).effort < r.effort := by
  simp only [effort, length]
  omega

variable [Scalar.LawfulOrder K]

theorem parted_of_not_negative (valid : ¬tolerance < 0) (r : Stretch) :
    r.Parted vertex tolerance := by
  intro q _ cut
  rcases cut?_eq_some.mp cut with ⟨far, -⟩ | ⟨-, -, negative, -⟩
  · exact absurd far.after (Nat.lt_irrefl _)
  · exact valid negative

theorem Parted.between (parted : r.Parted vertex tolerance)
    (cut : r.cut? vertex tolerance = some i) : r.first < i ∧ i < r.last := by
  rcases cut?_eq_some.mp cut with ⟨far, -⟩ | ⟨rfl, -⟩
  · exact ⟨far.after, far.before⟩
  · exact absurd cut (parted r .refl)

end Stretch

namespace ChordSearch

variable {s : ChordSearch} {r : Stretch} {rest : List Stretch} {i rounds : ℕ}

theorem step_of_empty (empty : s.waiting = []) : s.step vertex tolerance = s := by
  rw [step, empty]

theorem step_of_uncut (waiting : s.waiting = r :: rest) (uncut : r.cut? vertex tolerance = none) :
    s.step vertex tolerance = ⟨s.kept, rest⟩ := by
  simp only [step, waiting, uncut]

theorem step_of_cut (waiting : s.waiting = r :: rest) (cut : r.cut? vertex tolerance = some i) :
    s.step vertex tolerance =
      ⟨s.kept.setIfInBounds i true, ⟨i, r.last⟩ :: ⟨r.first, i⟩ :: rest⟩ := by
  simp only [step, waiting, cut]

theorem iterate_of_empty (empty : s.waiting = []) (rounds : ℕ) :
    (step vertex tolerance)^[rounds] s = s :=
  Function.iterate_fixed (step_of_empty empty) rounds

/-- No stretch that waits will be cut at its own first end, nor will any part of it. -/
def Parted (vertex : ℕ → Position K) (tolerance : K) (s : ChordSearch) : Prop :=
  ∀ r ∈ s.waiting, r.Parted vertex tolerance

theorem parted_step :
    (s.step vertex tolerance).Parted vertex tolerance ↔ s.Parted vertex tolerance := by
  cases waiting : s.waiting with
  | nil => rw [step_of_empty waiting]
  | cons r rest =>
    cases cut : r.cut? vertex tolerance with
    | none =>
      simp only [step_of_uncut waiting cut, Parted, waiting, List.forall_mem_cons,
        Stretch.parted_of_uncut cut, true_and]
    | some i =>
      simp only [step_of_cut waiting cut, Parted, waiting, List.forall_mem_cons,
        Stretch.parted_of_cut cut, and_assoc]

theorem parted_iterate (rounds : ℕ) :
    ((step vertex tolerance)^[rounds] s).Parted vertex tolerance ↔ s.Parted vertex tolerance := by
  induction rounds generalizing s with
  | zero => exact Iff.rfl
  | succ rounds ih => exact ih.trans parted_step

/-- The steps that it takes to search all that waits, or more. -/
def effort (s : ChordSearch) : ℕ := (s.waiting.map Stretch.effort).sum

theorem effort_of_waiting (waiting : s.waiting = r :: rest) :
    s.effort = r.effort + (rest.map Stretch.effort).sum := by
  rw [effort, waiting, List.map_cons, List.sum_cons]

theorem effort_start (n : ℕ) : (start n).effort = 2 * (n - 2) + 1 := rfl

theorem parted_start {n : ℕ} :
    (start n).Parted vertex tolerance ↔ (Stretch.mk 0 (n - 1)).Parted vertex tolerance :=
  List.forall_mem_singleton

/-- What the search has come to once nothing waits is what it runs to. -/
theorem run_of_ends (ends : ((step vertex tolerance)^[rounds] s).waiting = []) :
    s.run vertex tolerance = (step vertex tolerance)^[rounds] s := by
  apply repeatM_eq_iterate (fun _ => rfl)
  · exact fun s empty => step_of_empty (List.isEmpty_iff.mp empty)
  · exact List.isEmpty_iff.mpr ends

variable [Scalar.LawfulOrder K]

theorem effort_step_lt (parted : s.Parted vertex tolerance) (more : s.waiting ≠ []) :
    (s.step vertex tolerance).effort < s.effort := by
  obtain ⟨r, rest, waiting⟩ := List.exists_cons_of_ne_nil more
  rw [effort_of_waiting waiting]
  cases cut : r.cut? vertex tolerance with
  | none =>
    rw [step_of_uncut waiting cut]
    exact Nat.lt_add_of_pos_left (Nat.succ_pos _)
  | some i =>
    have first : r.Parted vertex tolerance := parted r (waiting ▸ List.mem_cons_self)
    have less := Stretch.effort_parts_lt (first.between cut)
    rw [step_of_cut waiting cut]
    simp only [effort, List.map_cons, List.sum_cons]
    omega

theorem ends_of_parted (parted : s.Parted vertex tolerance) (enough : s.effort ≤ rounds) :
    ((step vertex tolerance)^[rounds] s).waiting = [] := by
  induction rounds generalizing s with
  | zero =>
    by_contra more
    have less := effort_step_lt parted more
    omega
  | succ rounds ih =>
    by_cases empty : s.waiting = []
    · rw [iterate_of_empty empty, empty]
    · have less := effort_step_lt parted empty
      exact ih (parted_step.mpr parted) (by omega)

/-- A search ends if and only if no stretch is ever cut at its own first end. -/
theorem ends_iff_parted :
    (∃ rounds, ((step vertex tolerance)^[rounds] s).waiting = []) ↔ s.Parted vertex tolerance := by
  constructor
  · rintro ⟨rounds, empty⟩
    refine (parted_iterate rounds).mp fun r here => ?_
    rw [empty] at here
    exact absurd here List.not_mem_nil
  · exact fun parted => ⟨s.effort, ends_of_parted parted le_rfl⟩

end ChordSearch

variable [Scalar.LawfulOrder K]

/-- Each stretch that is put on the stack in place of another one is shorter, or the tolerance is
negative, no vertex of the other one is off its chord, and that one itself is put back. The search
ends if and only if it never comes to that, and so it does for any tolerance that is not negative.
-/
theorem chordSearch_ends (points : Path K) (tolerance : K) :
    (∀ (s : ChordSearch) r rest, s.waiting = r :: rest →
      ∃ parts, (s.step (vertexAt points.toArray) tolerance).waiting = parts ++ rest ∧
        ((∀ q ∈ parts, q.length < r.length) ∨
          r ∈ parts ∧ tolerance < 0 ∧ ∀ j, r.first < j → j < r.last →
            ¬0 < r.offChord (vertexAt points.toArray) j)) ∧
    ((∃ rounds, ((ChordSearch.step (vertexAt points.toArray) tolerance)^[rounds]
        (.start points.length)).waiting = []) ↔
      (Stretch.mk 0 (points.length - 1)).Parted (vertexAt points.toArray) tolerance) ∧
    (¬tolerance < 0 →
      ((ChordSearch.step (vertexAt points.toArray) tolerance)^[2 * (points.length - 2) + 1]
        (.start points.length)).waiting = []) := by
  refine ⟨fun s r rest waiting => ?_, ?_, fun valid => ?_⟩
  · cases cut : r.cut? (vertexAt points.toArray) tolerance with
    | none =>
      rw [ChordSearch.step_of_uncut waiting cut]
      exact ⟨[], rfl, .inl nofun⟩
    | some i =>
      rw [ChordSearch.step_of_cut waiting cut]
      refine ⟨[⟨i, r.last⟩, ⟨r.first, i⟩], rfl, ?_⟩
      rcases Stretch.cut?_eq_some.mp cut with ⟨far, -⟩ | ⟨rfl, -, negative, flat⟩
      · have shorter := Stretch.length_parts_lt ⟨far.after, far.before⟩
        exact .inl (List.forall_mem_cons.mpr ⟨shorter.1, List.forall_mem_singleton.mpr shorter.2⟩)
      · exact .inr ⟨List.mem_cons_self, negative, flat⟩
  · exact ChordSearch.ends_iff_parted.trans ChordSearch.parted_start
  · apply ChordSearch.ends_of_parted (ChordSearch.parted_start.mpr _)
    · exact (ChordSearch.effort_start points.length).le
    · exact Stretch.parted_of_not_negative valid _

/-- A vertex that is not a number, and a tolerance that is none. -/
theorem chordSearch_ends_unmeasured :
    ¬(0 / 0 : Float) < 0 ∧ ((ChordSearch.step
      (vertexAt #[⟨0, 0, none⟩, ⟨0 / 0, 1, none⟩, ⟨2, 0, none⟩])
      (0 / 0 : Float))^[3] (.start 3)).waiting = [] := by
  have valid : ¬(0 / 0 : Float) < 0 := by decide +kernel
  exact ⟨valid, (chordSearch_ends [⟨0, 0, none⟩, ⟨0 / 0, 1, none⟩, ⟨2, 0, none⟩] (0 / 0)).2.2 valid⟩

/-- A line whose vertices are all in one place is cut at its first end again and again. -/
theorem chordSearch_endless : ¬∃ rounds, ((ChordSearch.step
    (vertexAt (List.replicate 1000 (⟨0, 0, none⟩ : Position Float)).toArray) (-1))^[rounds]
      (.start 1000)).waiting = [] := by
  have origin (j : ℕ) :
      vertexAt (List.replicate 1000 (⟨0, 0, none⟩ : Position Float)).toArray j = ⟨0, 0, none⟩ := by
    rw [vertexAt, Array.getD_eq_getD_getElem?, List.getElem?_toArray, List.getElem?_replicate]
    split <;> rfl
  have still : ¬(0 : Float) < Segment.distance ⟨0, 0, none⟩ ⟨0, 0, none⟩ ⟨0, 0, none⟩ := by
    decide +kernel
  have negative : (-1 : Float) < 0 := by decide +kernel
  rw [ChordSearch.ends_iff_parted, ChordSearch.parted_start]
  intro parted
  refine parted ⟨0, 999⟩ .refl (Stretch.cut?_eq_some.mpr (.inr ⟨rfl, by decide, negative, ?_⟩))
  intro j _ _
  rwa [Stretch.offChord, origin, origin, origin]

end Geospatial.Path
