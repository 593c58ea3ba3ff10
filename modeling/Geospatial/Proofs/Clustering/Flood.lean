import Mathlib.Data.List.Nodup
import Mathlib.Logic.Relation
import Geospatial.Clustering.Dbscan

/-! What filling clusters from their cores comes to. One search labels the cores that chains of
neighbors join to its seed, and leaves all other labels as they were. All searches together label
every core, and two cores alike exactly when a chain joins them. -/
namespace Geospatial.Clustering

namespace Surroundings

variable (g : Surroundings)

/-- Cores, the second of which is in reach of the first. -/
def Link (i j : ℕ) : Prop := g.isCore i = true ∧ g.isCore j = true ∧ j ∈ g.near i

/-- A chain of cores leads from one to the other. -/
abbrev Joined : ℕ → ℕ → Prop := Relation.ReflTransGen g.Link

variable {g} {i j : ℕ}

theorem Joined.symm (symm : ∀ i j, g.Link i j → g.Link j i) (joined : g.Joined i j) :
    g.Joined j i := by
  induction joined with
  | refl => exact .refl
  | tail _ step ih => exact .head (symm _ _ step) ih

theorem Joined.isCore (joined : g.Joined i j) (core : g.isCore i = true) : g.isCore j = true := by
  cases joined with
  | refl => exact core
  | tail _ step => exact step.2.1

end Surroundings

namespace Flood

variable {g : Surroundings} {id seed : ℕ} {before : List (Option ℕ)}

/-- A visit labels a core without a label. -/
theorem visit_eq (g : Surroundings) (id : ℕ) (s : Flood) (n : ℕ) :
    (g.isCore n = true ∧ s.labels[n]? = some none ∧
      s.visit g id n = ⟨s.labels.set n (some id), n :: s.stack⟩) ∨
    ¬(g.isCore n = true ∧ s.labels[n]? = some none) ∧ s.visit g id n = s := by
  rw [visit]
  split
  · rename_i test
    obtain ⟨core, unlabelled⟩ := Bool.and_eq_true_iff.mp test
    exact .inl ⟨core, by simpa using unlabelled, rfl⟩
  · rename_i test
    exact .inr ⟨by simpa using test, rfl⟩

theorem getElem?_set_label (id : ℕ) {labels : List (Option ℕ)} {n : ℕ}
    (here : labels[n]? = some none) (k : ℕ) :
    (labels.set n (some id))[k]? = if n = k then some (some id) else labels[k]? := by
  have inside := (List.getElem?_eq_some_iff.mp here).1
  rw [List.getElem?_set, if_pos inside]

/-- What is joined to a seed has its label, and all other labels are as they were. -/
structure Filled (g : Surroundings) (id seed : ℕ) (before after : List (Option ℕ)) : Prop where
  length : after.length = before.length
  joined : ∀ k, g.Joined seed k → after[k]? = some (some id)
  apart : ∀ k, ¬g.Joined seed k → after[k]? = before[k]?

/-- The search from a seed as far as it has come, with the neighbors of one core left to be visited.
Labels are those before it, or those of cores that are joined to the seed; the neighbors of a core
that is done with have their labels. -/
structure Spread (g : Surroundings) (id seed : ℕ) (before : List (Option ℕ)) (current : ℕ)
    (left : List ℕ) (s : Flood) : Prop where
  length : s.labels.length = before.length
  seeded : s.labels[seed]? = some (some id)
  labelled : ∀ k, s.labels[k]? = before[k]? ∨ g.Joined seed k ∧ s.labels[k]? = some (some id)
  stacked : ∀ k ∈ s.stack, g.Joined seed k
  done : ∀ j k, g.Joined seed j → s.labels[j]? = some (some id) → j ∉ s.stack → g.Link j k →
    (j = current → k ∉ left) → s.labels[k]? = some (some id)

namespace Spread

variable {current n : ℕ} {left : List ℕ} {s : Flood}

/-- What is joined to the seed has its label or none yet. -/
theorem label_of_joined (spread : Spread g id seed before current left s)
    (unlabelled : ∀ k, g.Joined seed k → before[k]? = some none) (joined : g.Joined seed n) :
    s.labels[n]? = some none ∨ s.labels[n]? = some (some id) :=
  (spread.labelled n).imp (·.trans (unlabelled n joined)) (·.2)

theorem visit (spread : Spread g id seed before current (n :: left) s)
    (unlabelled : ∀ k, g.Joined seed k → before[k]? = some none)
    (joined : g.Joined seed current) (link : g.isCore n = true → g.Link current n) :
    Spread g id seed before current left (s.visit g id n) := by
  rcases visit_eq g id s n with ⟨core, here, visited⟩ | ⟨other, visited⟩
  · rw [visited]
    have set := getElem?_set_label id here
    refine ⟨?_, ?_, fun k => ?_, ?_, ?_⟩
    · rw [List.length_set, spread.length]
    · rw [set, spread.seeded, ite_self]
    · rw [set]
      split
      · rename_i same
        exact .inr ⟨same ▸ joined.tail (link core), rfl⟩
      · exact spread.labelled k
    · exact List.forall_mem_cons.mpr ⟨joined.tail (link core), spread.stacked⟩
    · intro j k hj label unstacked step looked
      have other := List.ne_of_not_mem_cons unstacked
      have closed := List.not_mem_of_not_mem_cons unstacked
      rw [set, if_neg (Ne.symm other)] at label
      rw [set]
      split
      · rfl
      · rename_i apart
        refine spread.done j k hj label closed step fun same => ?_
        exact List.not_mem_cons_of_ne_of_not_mem (Ne.symm apart) (looked same)
  · rw [visited]
    refine ⟨spread.length, spread.seeded, spread.labelled, spread.stacked, ?_⟩
    intro j k hj label closed step looked
    by_cases this : j = current ∧ k = n
    · obtain ⟨rfl, rfl⟩ := this
      rcases spread.label_of_joined unlabelled (hj.tail step) with noCore | label
      · exact absurd ⟨step.2.1, noCore⟩ other
      · exact label
    · refine spread.done j k hj label closed step fun same => ?_
      exact List.not_mem_cons_of_ne_of_not_mem (fun again => this ⟨same, again⟩) (looked same)

theorem foldl_visit (spread : Spread g id seed before current left s)
    (unlabelled : ∀ k, g.Joined seed k → before[k]? = some none)
    (joined : g.Joined seed current) (link : ∀ n ∈ left, g.isCore n = true → g.Link current n) :
    Spread g id seed before current [] (left.foldl (Flood.visit g id) s) := by
  induction left generalizing s with
  | nil => exact spread
  | cons n ns ih =>
    obtain ⟨first, rest⟩ := List.forall_mem_cons.mp link
    exact ih (spread.visit unlabelled joined first) rest

/-- A core from the stack is done with when all its neighbors are visited. -/
theorem step (spread : Spread g id seed before current [] s)
    (unlabelled : ∀ k, g.Joined seed k → before[k]? = some none) (core : g.isCore seed = true)
    {next : ℕ} {rest : List ℕ} (waiting : s.stack = next :: rest) :
    Spread g id seed before next [] (s.step g id) := by
  have stacked := spread.stacked
  rw [waiting] at stacked
  obtain ⟨joined, others⟩ := List.forall_mem_cons.mp stacked
  rw [Flood.step, waiting]
  refine foldl_visit ⟨spread.length, spread.seeded, spread.labelled, others, ?_⟩ unlabelled joined
    fun n near hn => ⟨joined.isCore core, hn, near⟩
  intro j k hj label closed link looked
  have other : j ≠ next := fun same => looked same (same ▸ link.2.2)
  refine spread.done j k hj label ?_ link (fun _ => List.not_mem_nil)
  rw [waiting]
  exact List.not_mem_cons_of_ne_of_not_mem other closed

/-- When nothing is left on the stack, all that is joined to the seed has its label. -/
theorem run (spread : Spread g id seed before current [] s)
    (unlabelled : ∀ k, g.Joined seed k → before[k]? = some none) (core : g.isCore seed = true) :
    Filled g id seed before (s.run g id) := by
  fun_induction Flood.run g id s generalizing current with
  | case1 s empty =>
    refine ⟨spread.length, fun k joined => ?_, fun k apart => ?_⟩
    · induction joined with
      | refl => exact spread.seeded
      | tail joined step ih =>
        refine spread.done _ _ joined ih ?_ step (fun _ => List.not_mem_nil)
        rw [empty]
        exact List.not_mem_nil
    · exact (spread.labelled k).resolve_right fun labelled => apart labelled.1
  | case2 s next rest waiting ih => exact ih (spread.step unlabelled core waiting)

end Spread

/-- A search fills a cluster with what is joined to its seed. -/
theorem run_filled (id : ℕ) (unlabelled : ∀ k, g.Joined seed k → before[k]? = some none)
    (core : g.isCore seed = true) :
    Filled g id seed before (run g id ⟨before.set seed (some id), [seed]⟩) := by
  have set := getElem?_set_label id (unlabelled seed .refl)
  suffices started : Spread g id seed before seed [] ⟨before.set seed (some id), [seed]⟩ from
    started.run unlabelled core
  refine ⟨List.length_set, ?_, fun k => ?_, ?_, ?_⟩
  · rw [set, if_pos rfl]
  · rw [set]
    split
    · rename_i same
      exact .inr ⟨same ▸ .refl, rfl⟩
    · exact .inl rfl
  · exact List.forall_mem_singleton.mpr .refl
  · intro j k joined label closed
    have other : seed ≠ j := fun same => closed (List.mem_singleton.mpr same.symm)
    rw [set, if_neg other, unlabelled j joined] at label
    exact nomatch label

end Flood

namespace Seeding

variable {g : Surroundings} {count : ℕ}

/-- Clusters as far as they are filled: each of them has all that is joined to one of its cores. -/
structure Parted (g : Surroundings) (count : ℕ) (s : Seeding) : Prop where
  length : s.labels.length = count
  labelled : ∀ k l, s.labels[k]? = some (some l) → g.isCore k = true ∧ l < s.next
  closed : ∀ j k l, s.labels[j]? = some (some l) → g.Joined j k → s.labels[k]? = some (some l)
  joined : ∀ j k l, s.labels[j]? = some (some l) → s.labels[k]? = some (some l) → g.Joined j k

theorem parted_start (g : Surroundings) (count : ℕ) :
    Parted g count ⟨List.replicate count none, 0⟩ := by
  have blank (k l : ℕ) : (List.replicate count (none : Option ℕ))[k]? ≠ some (some l) := by
    simp [List.getElem?_replicate]
  exact ⟨List.length_replicate, fun k l here => absurd here (blank k l),
    fun j _ l here => absurd here (blank j l), fun j _ l here => absurd here (blank j l)⟩

variable {s : Seeding}

/-- No cluster that is there has anything of what is joined to a seed without a label. -/
theorem Parted.unlabelled (parted : s.Parted g count) (symm : ∀ i j, g.Link i j → g.Link j i)
    (inside : ∀ k, g.isCore k = true → k < count) {i : ℕ} (core : g.isCore i = true)
    (free : s.labels[i]? = some none) : ∀ k, g.Joined i k → s.labels[k]? = some none := by
  intro k joined
  have bound : k < s.labels.length := parted.length ▸ inside k (joined.isCore core)
  cases label : s.labels[k] with
  | none => rw [List.getElem?_eq_getElem bound, label]
  | some l =>
    have labelled : s.labels[k]? = some (some l) := by rw [List.getElem?_eq_getElem bound, label]
    have back := parted.closed k i l labelled (joined.symm symm)
    rw [free] at back
    exact nomatch back

theorem Parted.seed (parted : s.Parted g count) (symm : ∀ i j, g.Link i j → g.Link j i)
    (inside : ∀ k, g.isCore k = true → k < count) (i : ℕ) : (s.seed g i).Parted g count := by
  rw [Seeding.seed]
  split
  · rename_i test
    obtain ⟨core, free⟩ := Bool.and_eq_true_iff.mp test
    have free : s.labels[i]? = some none := by simpa using free
    have filled := Flood.run_filled s.next (parted.unlabelled symm inside core free) core
    have older {k l : ℕ} (apart : ¬g.Joined i k)
        (label : (Flood.run g s.next ⟨s.labels.set i (some s.next), [i]⟩)[k]? = some (some l)) :
        s.labels[k]? = some (some l) := (filled.apart k apart).symm.trans label
    have new {k l : ℕ} (joined : g.Joined i k)
        (label : (Flood.run g s.next ⟨s.labels.set i (some s.next), [i]⟩)[k]? = some (some l)) :
        l = s.next := by simpa using label.symm.trans (filled.joined k joined)
    refine ⟨filled.length.trans parted.length, fun k l label => ?_, fun j k l label joined => ?_,
      fun j k l first second => ?_⟩
    · by_cases this : g.Joined i k
      · rw [new this label]
        exact ⟨this.isCore core, Nat.lt_succ_self s.next⟩
      · obtain ⟨core, earlier⟩ := parted.labelled k l (older this label)
        exact ⟨core, Nat.lt_succ_of_lt earlier⟩
    · by_cases this : g.Joined i j
      · rw [new this label]
        exact filled.joined k (this.trans joined)
      · have apart : ¬g.Joined i k := fun there => this (there.trans (joined.symm symm))
        rw [filled.apart k apart]
        exact parted.closed j k l (older this label) joined
    · by_cases here : g.Joined i j
      · by_cases there : g.Joined i k
        · exact (here.symm symm).trans there
        · obtain rfl := new here first
          exact absurd (parted.labelled k _ (older there second)).2 (Nat.lt_irrefl _)
      · by_cases there : g.Joined i k
        · obtain rfl := new there second
          exact absurd (parted.labelled j _ (older here first)).2 (Nat.lt_irrefl _)
        · exact parted.joined j k l (older here first) (older there second)
  · exact parted

/-- A seed has a label, and what has one keeps it. -/
theorem Parted.labelled_seed (parted : s.Parted g count) (symm : ∀ i j, g.Link i j → g.Link j i)
    (inside : ∀ k, g.isCore k = true → k < count) (i : ℕ) {k : ℕ} (core : g.isCore k = true)
    (known : k = i ∨ ∃ l, s.labels[k]? = some (some l)) :
    ∃ l, (s.seed g i).labels[k]? = some (some l) := by
  rw [Seeding.seed]
  split
  · rename_i test
    obtain ⟨seed, free⟩ := Bool.and_eq_true_iff.mp test
    have free : s.labels[i]? = some none := by simpa using free
    have filled := Flood.run_filled s.next (parted.unlabelled symm inside seed free) seed
    by_cases joined : g.Joined i k
    · exact ⟨s.next, filled.joined k joined⟩
    · rcases known with rfl | ⟨l, label⟩
      · exact absurd .refl joined
      · exact ⟨l, (filled.apart k joined).trans label⟩
  · rename_i test
    rcases known with rfl | labelled
    · have bound : k < s.labels.length := parted.length ▸ inside k core
      cases label : s.labels[k] with
      | none => simp [core, List.getElem?_eq_getElem bound, label] at test
      | some l => exact ⟨l, by rw [List.getElem?_eq_getElem bound, label]⟩
    · exact labelled

/-- After the first points each core among them has a label. -/
theorem parted_seeds (symm : ∀ i j, g.Link i j → g.Link j i)
    (inside : ∀ k, g.isCore k = true → k < count) (m : ℕ) :
    let s := (List.range m).foldl (Seeding.seed g) ⟨List.replicate count none, 0⟩
    s.Parted g count ∧ ∀ k < m, g.isCore k = true → ∃ l, s.labels[k]? = some (some l) := by
  induction m with
  | zero => exact ⟨parted_start g count, nofun⟩
  | succ m ih =>
    obtain ⟨parted, seeded⟩ := ih
    rw [List.range_succ, List.foldl_append]
    refine ⟨parted.seed symm inside m, fun k early core => ?_⟩
    refine parted.labelled_seed symm inside m core ?_
    rcases Nat.lt_succ_iff_lt_or_eq.mp early with early | rfl
    · exact .inr (seeded k early core)
    · exact .inl rfl

end Seeding

variable {g : Surroundings} {count : ℕ}

section

variable (symm : ∀ i j, g.Link i j → g.Link j i) (inside : ∀ k, g.isCore k = true → k < count)
include symm inside

/-- Every core has a label, and nothing else has. -/
theorem coreLabels_isSome {k : ℕ} :
    (∃ l, (coreLabels g count)[k]? = some (some l)) ↔ g.isCore k = true := by
  obtain ⟨parted, seeded⟩ := Seeding.parted_seeds symm inside count
  exact ⟨fun ⟨l, label⟩ => (parted.labelled k l label).1, fun core => seeded k (inside k core) core⟩

/-- Cores have the same label exactly when a chain of cores joins them. -/
theorem coreLabels_eq_iff {i j : ℕ} (hi : g.isCore i = true) :
    (∃ l, (coreLabels g count)[i]? = some (some l) ∧ (coreLabels g count)[j]? = some (some l)) ↔
      g.Joined i j := by
  obtain ⟨parted, seeded⟩ := Seeding.parted_seeds symm inside count
  constructor
  · rintro ⟨l, first, second⟩
    exact parted.joined i j l first second
  · intro joined
    obtain ⟨l, label⟩ := seeded i (inside i hi) hi
    exact ⟨l, label, parted.closed i j l label joined⟩

theorem length_coreLabels : (coreLabels g count).length = count :=
  (Seeding.parted_seeds symm inside count).1.length

end
end Geospatial.Clustering
