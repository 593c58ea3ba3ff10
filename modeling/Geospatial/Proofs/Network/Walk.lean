import Mathlib.Data.List.Perm.Subperm
import Geospatial.Proofs.Scalar.Exact
import Geospatial.Network.Search
import Geospatial.Proofs.Network.Consistency

/-! Walks through a network, which may pass a node or an edge more than once, and what they
cost in exact arithmetic. Where no walk in reach leads back to its start at a negative cost,
some walk without repeated nodes costs as little as any other. -/
namespace Geospatial.Network

variable {K : Type}

/-- The edge may be taken from `u` to `v`. -/
def Edge.Joins (e : Edge K) (u v : String) : Prop :=
  e.source = u ∧ e.target = v ∨ e.bidirectional = true ∧ e.target = u ∧ e.source = v

/-- The arcs lead from one node to another. -/
inductive Walk (n : Network K) : String → List (Arc K) → String → Prop
  | stay (v : String) : Walk n v [] v
  | step {a : Arc K} {u v : String} {as : List (Arc K)} : a.edge ∈ n.edges →
      a.edge.Joins u a.head → Walk n a.head as v → Walk n u (a :: as) v

/-- The nodes of a walk from `u`, in order. -/
def visited (u : String) (as : List (Arc K)) : List String := u :: as.map (·.head)

def Reaches (n : Network K) (u v : String) : Prop := ∃ as, n.Walk u as v

section Arcs

variable {n : Network K}

theorem Edge.leadsTo?_eq_some {e : Edge K} {u v : String} :
    e.leadsTo? u = some v ↔ e.Joins u v := by
  unfold Edge.leadsTo? Edge.Joins
  split
  · rename_i same
    have same : e.source = u := by simpa using same
    constructor
    · intro leads
      exact Or.inl ⟨same, Option.some.inj leads⟩
    · rintro (⟨_, rfl⟩ | ⟨_, target, rfl⟩)
      · rfl
      · rw [target, same]
  · rename_i other
    have other : e.source ≠ u := by simpa using other
    simp [other, ← and_assoc]

theorem mem_arcs [Scalar K] {u : String} {a : Arc K} :
    (u, a) ∈ n.arcs ↔ a.edge ∈ n.edges ∧ a.edge.Joins u a.head := by
  obtain ⟨e, v⟩ := a
  unfold arcs Edge.Joins
  simp only [List.mem_flatMap, List.mem_cons, Prod.mk.injEq, Arc.mk.injEq]
  constructor
  · rintro ⟨e', he, ⟨rfl, rfl, rfl⟩ | back⟩
    · exact ⟨he, Or.inl ⟨rfl, rfl⟩⟩
    · split at back
      · rename_i both
        obtain ⟨rfl, rfl, rfl⟩ : u = e'.target ∧ e = e' ∧ v = e'.source := by simpa using back
        exact ⟨he, Or.inr ⟨both, rfl, rfl⟩⟩
      · exact absurd back List.not_mem_nil
  · rintro ⟨he, ⟨rfl, rfl⟩ | ⟨both, rfl, rfl⟩⟩
    · exact ⟨e, he, Or.inl ⟨rfl, rfl, rfl⟩⟩
    · exact ⟨e, he, Or.inr (by simp [both])⟩

theorem Edge.Joins.touches {e : Edge K} {u v : String} (joins : e.Joins u v) :
    e.Touches u ∧ e.Touches v := by
  rcases joins with ⟨rfl, rfl⟩ | ⟨_, rfl, rfl⟩
  · exact ⟨Or.inl rfl, Or.inr rfl⟩
  · exact ⟨Or.inr rfl, Or.inl rfl⟩

namespace Consistent

theorem hasNode_of_touches (consistent : n.Consistent) {e : Edge K} {v : String}
    (here : e ∈ n.edges) (touches : e.Touches v) : n.hasNode v := by
  obtain ⟨source, target⟩ := consistent.ends e here
  rcases touches with rfl | rfl
  · exact source
  · exact target

theorem mem_outgoing (consistent : n.Consistent) {u : String} {a : Arc K} :
    a ∈ n.outgoing u ↔ a.edge ∈ n.edges ∧ a.edge.Joins u a.head := by
  obtain ⟨e, v⟩ := a
  unfold outgoing
  cases found : n.incidence? u with
  | none =>
    simp only [List.not_mem_nil, false_iff, not_and]
    intro here joins
    obtain ⟨l, hl⟩ := (consistent.keys u).mpr (consistent.hasNode_of_touches here joins.touches.1)
    rw [consistent.incidence?_eq_some.mpr hl] at found
    exact absurd found nofun
  | some l =>
    obtain ⟨hl, rfl⟩ := consistent.incidence?_eq_some.mp found
    simp only [List.mem_filterMap, Option.bind_eq_bind, Option.bind_eq_some_iff, Option.pure_def,
      Option.some.injEq, Arc.mk.injEq, Edge.leadsTo?_eq_some, consistent.edge?_eq_some]
    constructor
    · rintro ⟨_, _, e', ⟨here, _⟩, v', joins, rfl, rfl⟩
      exact ⟨here, joins⟩
    · rintro ⟨here, joins⟩
      have listed := (consistent.listed l hl e.id).mpr ⟨e, here, rfl, joins.touches.1⟩
      exact ⟨e.id, listed, e, ⟨here, rfl⟩, v, joins, rfl, rfl⟩

theorem outgoing_nodup (consistent : n.Consistent) (u : String) : (n.outgoing u).Nodup := by
  unfold outgoing
  cases found : n.incidence? u with
  | none => exact List.nodup_nil
  | some l =>
    obtain ⟨hl, rfl⟩ := consistent.incidence?_eq_some.mp found
    apply (consistent.once l hl).filterMap
    intro id id' a first second
    simp only [Option.mem_def, Option.bind_eq_bind, Option.bind_eq_some_iff, Option.pure_def,
      Option.some.injEq, consistent.edge?_eq_some] at first second
    obtain ⟨e, ⟨_, rfl⟩, _, _, rfl⟩ := first
    obtain ⟨e', ⟨_, rfl⟩, _, _, same⟩ := second
    rw [(Arc.mk.inj same).1]

/-- An edge leaves a node in one direction at most. -/
theorem outgoing_ids_nodup (consistent : n.Consistent) (u : String) :
    ((n.outgoing u).map (·.edge.id)).Nodup := by
  refine List.Nodup.map_on ?_ (consistent.outgoing_nodup u)
  rintro ⟨e, v⟩ leaves ⟨e', v'⟩ leaves' same
  obtain ⟨here, joins⟩ := consistent.mem_outgoing.mp leaves
  obtain ⟨here', joins'⟩ := consistent.mem_outgoing.mp leaves'
  obtain rfl := List.inj_on_of_nodup_map consistent.edges here here' same
  have leads := (Edge.leadsTo?_eq_some.mpr joins).symm.trans (Edge.leadsTo?_eq_some.mpr joins')
  exact congrArg (Arc.mk e) (Option.some.inj leads)

/-- A node has no more edges to leave it than there are arcs from it. -/
theorem length_outgoing_le [Scalar K] (consistent : n.Consistent) (u : String) :
    (n.outgoing u).length ≤ (n.arcs.filter (·.1 == u)).length := by
  have unique : ((n.outgoing u).map (u, ·)).Nodup :=
    (consistent.outgoing_nodup u).map fun _ _ same => (Prod.mk.inj same).2
  have among : (n.outgoing u).map (u, ·) ⊆ n.arcs.filter (·.1 == u) := by
    intro p hp
    obtain ⟨a, ha, rfl⟩ := List.mem_map.mp hp
    exact List.mem_filter.mpr ⟨mem_arcs.mpr (consistent.mem_outgoing.mp ha), beq_self_eq_true u⟩
  simpa using (unique.subperm among).length_le

end Consistent
end Arcs

namespace Walk

variable {n : Network K}

theorem append_iff {u w : String} {as bs : List (Arc K)} :
    n.Walk u (as ++ bs) w ↔ ∃ v, n.Walk u as v ∧ n.Walk v bs w := by
  induction as generalizing u with
  | nil =>
    constructor
    · intro walk
      exact ⟨u, .stay u, walk⟩
    · rintro ⟨v, first, second⟩
      cases first
      exact second
  | cons a as ih =>
    constructor
    · intro walk
      cases walk with
      | step here joins walk =>
        obtain ⟨v, first, second⟩ := ih.mp walk
        exact ⟨v, .step here joins first, second⟩
    · rintro ⟨v, first, second⟩
      cases first with
      | step here joins first => exact .step here joins (ih.mpr ⟨v, first, second⟩)

theorem append {u v w : String} {as bs : List (Arc K)} (first : n.Walk u as v)
    (second : n.Walk v bs w) : n.Walk u (as ++ bs) w := append_iff.mpr ⟨v, first, second⟩

theorem single {u : String} {a : Arc K} (here : a.edge ∈ n.edges) (joins : a.edge.Joins u a.head) :
    n.Walk u [a] a.head := .step here joins (.stay a.head)

/-- The last arc of a walk. -/
theorem concat_iff {u w : String} {as : List (Arc K)} {a : Arc K} :
    n.Walk u (as ++ [a]) w ↔
      ∃ v, n.Walk u as v ∧ a.edge ∈ n.edges ∧ a.edge.Joins v a.head ∧ a.head = w := by
  rw [append_iff]
  apply exists_congr
  intro v
  constructor
  · rintro ⟨first, last⟩
    cases last with
    | step here joins rest =>
      cases rest
      exact ⟨first, here, joins, rfl⟩
  · rintro ⟨first, here, joins, rfl⟩
    exact ⟨first, single here joins⟩

theorem edge_mem {u v : String} {as : List (Arc K)} (walk : n.Walk u as v) :
    ∀ a ∈ as, a.edge ∈ n.edges := by
  induction walk with
  | stay v => nofun
  | step here _ _ ih => exact List.forall_mem_cons.mpr ⟨here, ih⟩

theorem mem_heads {u v : String} {as : List (Arc K)} (walk : n.Walk u as v) (gone : as ≠ []) :
    v ∈ as.map (·.head) := by
  obtain ⟨as, a, rfl⟩ := (List.eq_nil_or_concat' as).resolve_left gone
  obtain ⟨_, _, _, _, rfl⟩ := concat_iff.mp walk
  simp

theorem hasNode (consistent : n.Consistent) {u v : String} {as : List (Arc K)}
    (walk : n.Walk u as v) (known : n.hasNode u) : ∀ w ∈ visited u as, n.hasNode w := by
  induction walk with
  | stay v => simpa [visited] using known
  | step here joins walk ih =>
    intro w hw
    rcases List.mem_cons.mp hw with rfl | hw
    · exact known
    · exact ih (consistent.hasNode_of_touches here joins.touches.2) w hw

theorem getLast?_visited {u v : String} {as : List (Arc K)} (walk : n.Walk u as v) :
    (visited u as).getLast? = some v := by
  induction walk with
  | stay v => rfl
  | step here joins walk ih => simpa [visited, List.getLast?_cons] using ih

/-- A walk goes to each of its nodes and on from there. -/
theorem split {u w : String} {as : List (Arc K)} (walk : n.Walk u as w) {v : String}
    (passes : v ∈ visited u as) :
    ∃ ps qs, as = ps ++ qs ∧ n.Walk u ps v ∧ n.Walk v qs w := by
  induction walk with
  | stay u =>
    obtain rfl : v = u := by simpa [visited] using passes
    exact ⟨[], [], rfl, .stay v, .stay v⟩
  | @step a u w as here joins walk ih =>
    rcases List.mem_cons.mp passes with rfl | passes
    · exact ⟨[], a :: as, rfl, .stay v, .step here joins walk⟩
    · obtain ⟨ps, qs, rfl, first, second⟩ := ih passes
      exact ⟨a :: ps, qs, rfl, .step here joins first, second⟩

/-- A walk that repeats a node goes round in a loop there. -/
theorem exists_loop {u w : String} {as : List (Arc K)} (walk : n.Walk u as w)
    (repeats : ¬(visited u as).Nodup) :
    ∃ v ps qs rs, as = ps ++ (qs ++ rs) ∧ qs ≠ [] ∧
      n.Walk u ps v ∧ n.Walk v qs v ∧ n.Walk v rs w := by
  induction walk with
  | stay u => exact absurd (List.nodup_singleton u) repeats
  | @step a u w as here joins walk ih =>
    by_cases again : u ∈ visited a.head as
    · obtain ⟨ps, rs, rfl, back, rest⟩ := walk.split again
      exact ⟨u, [], a :: ps, rs, rfl, List.cons_ne_nil _ _, .stay u, .step here joins back, rest⟩
    · have later : ¬(visited a.head as).Nodup :=
        fun unique => repeats (List.nodup_cons.mpr ⟨again, unique⟩)
      obtain ⟨v, ps, qs, rs, rfl, passed, first, loop, rest⟩ := ih later
      exact ⟨v, a :: ps, qs, rs, rfl, passed, .step here joins first, loop, rest⟩

theorem reorder_iff {es : List (Edge K)} (perm : es.Perm n.edges) {u v : String}
    {as : List (Arc K)} : Walk { n with edges := es } u as v ↔ n.Walk u as v := by
  constructor
  · intro walk
    induction walk with
    | stay v => exact .stay v
    | step here joins _ ih => exact .step (perm.mem_iff.mp here) joins ih
  · intro walk
    induction walk with
    | stay v => exact .stay v
    | step here joins _ ih => exact .step (perm.mem_iff.mpr here) joins ih

theorem length_lt (consistent : n.Consistent) {u v : String} {as : List (Arc K)}
    (walk : n.Walk u as v) (known : n.hasNode u) (simple : (visited u as).Nodup) :
    as.length < n.nodes.length := by
  have among : visited u as ⊆ n.nodes.map (·.id) := by
    intro w hw
    simpa using hasNode_iff.mp (walk.hasNode consistent known w hw)
  exact Nat.lt_of_succ_le (by simpa [visited] using (simple.subperm among).length_le)

end Walk

section Cost

variable [Exact K] {n : Network K}

def costOf (as : List (Arc K)) : K := Scalar.sum (as.map (·.edge.cost))

@[simp] theorem costOf_nil : costOf ([] : List (Arc K)) = 0 := rfl

@[simp] theorem costOf_cons (a : Arc K) (as : List (Arc K)) :
    costOf (a :: as) = a.edge.cost + costOf as := by
  simp [costOf, Exact.sum_eq]

@[simp] theorem costOf_append (as bs : List (Arc K)) :
    costOf (as ++ bs) = costOf as + costOf bs := by
  simp [costOf, Exact.sum_eq]

/-- A walk in reach of `start` leads back to its own start at a negative cost. -/
def HasNegativeCycle (n : Network K) (start : String) : Prop :=
  ∃ v as, n.Reaches start v ∧ n.Walk v as v ∧ costOf as < 0

/-- No edge lowers the estimate by more than its cost. -/
def Feasible (n : Network K) (estimate : String → K) : Prop :=
  ∀ e ∈ n.edges, ∀ u v, e.Joins u v → estimate u ≤ e.cost + estimate v

theorem feasible_zero (costs : ∀ e ∈ n.edges, 0 ≤ e.cost) : n.Feasible fun _ => 0 := by
  intro e here u v joins
  simpa using costs e here

theorem Feasible.le_costOf {estimate : String → K} (feasible : n.Feasible estimate) {u v : String}
    {as : List (Arc K)} (walk : n.Walk u as v) : estimate u ≤ costOf as + estimate v := by
  induction walk with
  | stay v => simp
  | step here joins walk ih =>
    rw [costOf_cons, add_assoc]
    exact (feasible _ here _ _ joins).trans (by gcongr)

theorem Feasible.not_hasNegativeCycle {estimate : String → K} (feasible : n.Feasible estimate)
    (start : String) : ¬n.HasNegativeCycle start := by
  rintro ⟨v, as, _, loop, negative⟩
  have le := feasible.le_costOf loop
  linarith

/-- Leaving out the loops of a walk makes it no dearer. -/
theorem Walk.exists_simple {start v : String} (noCycle : ¬n.HasNegativeCycle start)
    {as : List (Arc K)} (walk : n.Walk start as v) :
    ∃ bs, n.Walk start bs v ∧ (visited start bs).Nodup ∧ costOf bs ≤ costOf as := by
  -- Without one of its loops a walk is shorter, and costs no more since no loop gains.
  induction short : as.length using Nat.strong_induction_on generalizing as with
  | _ k ih =>
    by_cases simple : (visited start as).Nodup
    · exact ⟨as, walk, simple, le_rfl⟩
    · obtain ⟨m, ps, qs, rs, rfl, passed, first, loop, rest⟩ := walk.exists_loop simple
      have gain : 0 ≤ costOf qs :=
        not_lt.mp fun negative => noCycle ⟨m, qs, ⟨ps, first⟩, loop, negative⟩
      have shorter : (ps ++ rs).length < k := by
        have := List.length_pos_iff.mpr passed
        simp only [List.length_append] at short ⊢
        omega
      obtain ⟨bs, simpler, unique, cost⟩ := ih _ shorter (first.append rest) rfl
      refine ⟨bs, simpler, unique, cost.trans ?_⟩
      simp only [costOf_append]
      linarith

end Cost
end Geospatial.Network
