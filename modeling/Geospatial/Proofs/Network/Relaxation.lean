import Mathlib.Data.List.Induction
import Mathlib.Logic.Function.Iterate
import Geospatial.Proofs.Scalar.Real
import Geospatial.Proofs.Network.Answer

/-! Relaxation in rounds, for costs of either sign. After some rounds every label is as cheap as
any walk of so many arcs. Without negative cycles, walks without repeated nodes are cheap enough,
so that nothing improves after as many rounds as there are nodes; and where nothing improves,
no negative cycle is in reach. The order of the edges decides over equally cheap routes and the
edge that a fault names, and over nothing else. -/
namespace Geospatial.Network

variable {K : Type} [Exact K] {n : Network K} {start goal : String}

theorem improvement?_eq_some {labels : List (Label K)} {u : String} {a : Arc K} {l' : Label K} :
    improvement? labels (u, a) = some l' ↔
      ∃ l, Label.find? labels u = some l ∧ (l.extend a).improves labels ∧ l.extend a = l' := by
  simp only [improvement?, Option.bind_eq_bind, Option.bind_eq_some_iff,
    Option.ite_none_right_eq_some, Option.some.injEq]

/-- A label at the tail of the arc gives one at its end. -/
def Relaxed (labels labels' : List (Label K)) (p : String × Arc K) : Prop :=
  ∀ cost, Label.Within labels p.1 cost → Label.Within labels' p.2.head (cost + p.2.edge.cost)

theorem Relaxed.mono {labels labels' before after : List (Label K)} {p : String × Arc K}
    (relaxed : Relaxed labels labels' p) (first : Label.Refine before labels)
    (last : Label.Refine labels' after) : Relaxed before after p :=
  fun cost within => last _ _ (relaxed cost (first _ _ within))

/-- Nothing improves. -/
def Stable (arcs : List (String × Arc K)) (labels : List (Label K)) : Prop :=
  ∀ p ∈ arcs, improvement? labels p = none

theorem improvement?_eq_none {labels : List (Label K)} {p : String × Arc K} :
    improvement? labels p = none ↔ Relaxed labels labels p := by
  obtain ⟨u, a⟩ := p
  constructor
  · rintro nothing cost ⟨l, found, le⟩
    have worse : ¬(l.extend a).improves labels := fun better =>
      absurd (improvement?_eq_some.mpr ⟨l, found, better, rfl⟩) (by simp [nothing])
    exact (Label.not_improves_iff.mp worse).mono (by simpa using le)
  · intro relaxed
    by_contra something
    obtain ⟨l', found⟩ := Option.ne_none_iff_exists'.mp something
    obtain ⟨l, there, better, rfl⟩ := improvement?_eq_some.mp found
    exact Label.not_improves_iff.mpr (relaxed l.cost ⟨l, there, le_rfl⟩) better

/-- The labels after one arc of a round. -/
def relaxArc (labels : List (Label K)) (p : String × Arc K) : List (Label K) :=
  match improvement? labels p with
  | some l => l.set labels
  | none => labels

theorem relaxRound_eq (arcs : List (String × Arc K)) (labels : List (Label K)) :
    relaxRound arcs labels = arcs.foldl relaxArc labels := rfl

theorem refine_relaxArc (labels : List (Label K)) (p : String × Arc K) :
    Label.Refine labels (relaxArc labels p) := by
  unfold relaxArc
  split
  · rename_i found
    obtain ⟨l, _, better, rfl⟩ := improvement?_eq_some.mp found
    exact Label.refine_set better
  · exact .refl labels

theorem relaxed_relaxArc (labels : List (Label K)) (p : String × Arc K) :
    Relaxed labels (relaxArc labels p) p := by
  unfold relaxArc
  split
  · rename_i found
    intro cost within
    obtain ⟨l, there, _, rfl⟩ := improvement?_eq_some.mp found
    have le := (Label.within_iff there).mp within
    exact ⟨l.extend p.2, Label.find?_set_self (l.extend p.2) labels, by simpa using le⟩
  · rename_i nothing
    exact improvement?_eq_none.mp nothing

theorem Sound.relaxArc {labels : List (Label K)} (sound : n.Sound start labels)
    (noCycle : ¬n.HasNegativeCycle start) {p : String × Arc K} (among : p ∈ n.arcs) :
    n.Sound start (relaxArc labels p) := by
  unfold Network.relaxArc
  split
  · rename_i found
    obtain ⟨l, there, better, rfl⟩ := improvement?_eq_some.mp found
    obtain ⟨here, joins⟩ := mem_arcs.mp among
    have name := Label.node_of_find? there
    exact sound.set noCycle ⟨name.symm ▸ there, here, name.symm ▸ joins, better⟩
  · exact sound

/-- A round improves labels only, and carries every label that was there over every arc. -/
theorem relaxRound_refines (arcs : List (String × Arc K)) (labels : List (Label K)) :
    Label.Refine labels (relaxRound arcs labels) ∧
      ∀ p ∈ arcs, Relaxed labels (relaxRound arcs labels) p := by
  simp only [relaxRound_eq]
  induction arcs generalizing labels with
  | nil => exact ⟨.refl labels, nofun⟩
  | cons p ps ih =>
    obtain ⟨refine, relaxed⟩ := ih (relaxArc labels p)
    have first := refine_relaxArc labels p
    refine ⟨first.trans refine, ?_⟩
    intro q hq
    rcases List.mem_cons.mp hq with rfl | hq
    · exact (relaxed_relaxArc labels q).mono (.refl labels) refine
    · exact (relaxed q hq).mono first (.refl _)

theorem Sound.relaxRound {labels : List (Label K)} (sound : n.Sound start labels)
    (noCycle : ¬n.HasNegativeCycle start) {arcs : List (String × Arc K)} (among : arcs ⊆ n.arcs) :
    n.Sound start (relaxRound arcs labels) := by
  rw [relaxRound_eq]
  induction arcs generalizing labels with
  | nil => exact sound
  | cons p ps ih =>
    obtain ⟨first, rest⟩ := List.cons_subset.mp among
    exact ih (sound.relaxArc noCycle first) rest

/-- The labels after some rounds from the start on. -/
def labelsAfter (n : Network K) (start : String) (rounds : Nat) : List (Label K) :=
  (relaxRound n.arcs)^[rounds] [⟨start, 0, none⟩]

theorem labelsAfter_succ (n : Network K) (start : String) (rounds : Nat) :
    n.labelsAfter start (rounds + 1) = relaxRound n.arcs (n.labelsAfter start rounds) :=
  Function.iterate_succ_apply' ..

theorem sound_labelsAfter (noCycle : ¬n.HasNegativeCycle start) (rounds : Nat) :
    n.Sound start (n.labelsAfter start rounds) := by
  induction rounds with
  | zero => exact sound_start n start
  | succ rounds ih =>
    rw [labelsAfter_succ]
    exact ih.relaxRound noCycle (List.Subset.refl n.arcs)

theorem within_labelsAfter_start (n : Network K) (start : String) (rounds : Nat) :
    Label.Within (n.labelsAfter start rounds) start 0 := by
  induction rounds with
  | zero => exact ⟨_, (sound_start n start).origin, le_rfl⟩
  | succ rounds ih =>
    rw [labelsAfter_succ]
    exact (relaxRound_refines n.arcs _).1 start 0 ih

/-- Labels are as cheap as walks of at most as many arcs as there were rounds. -/
theorem within_labelsAfter {rounds : Nat} {as : List (Arc K)} {v : String}
    (walk : n.Walk start as v) (short : as.length ≤ rounds) :
    Label.Within (n.labelsAfter start rounds) v (costOf as) := by
  induction as using List.reverseRecOn generalizing rounds v with
  | nil =>
    cases walk
    exact n.within_labelsAfter_start start rounds
  | append_singleton as a ih =>
    obtain ⟨u, first, here, joins, rfl⟩ := Walk.concat_iff.mp walk
    cases rounds with
    | zero => simp at short
    | succ rounds =>
      have earlier := ih first (by simpa using short)
      have relaxed := (relaxRound_refines n.arcs (n.labelsAfter start rounds)).2 (u, a)
        (mem_arcs.mpr ⟨here, joins⟩)
      rw [labelsAfter_succ]
      simpa using relaxed _ earlier

theorem stable_labelsAfter (consistent : n.Consistent) (known : n.hasNode start)
    (noCycle : ¬n.HasNegativeCycle start) :
    Stable n.arcs (n.labelsAfter start n.nodes.length) := by
  intro p among
  obtain ⟨here, joins⟩ := mem_arcs.mp among
  rw [improvement?_eq_none]
  rintro cost ⟨l, found, le⟩
  -- The walk of the label and the arc cost no less than some walk that the rounds have covered.
  obtain ⟨as, walk, attained⟩ := (sound_labelsAfter noCycle _).attained _ l found
  obtain ⟨bs, walk', simple, le'⟩ := (walk.append (.single here joins)).exists_simple noCycle
  have short := (walk'.length_lt consistent known simple).le
  apply (within_labelsAfter walk' short).mono
  simp only [costOf_append, costOf_cons, costOf_nil, add_zero] at le'
  linarith

/-- Stable labels carry over to the end of a walk. -/
theorem Stable.within {labels : List (Label K)} (stable : Stable n.arcs labels)
    {u v : String} {as : List (Arc K)} (walk : n.Walk u as v) {cost : K}
    (within : Label.Within labels u cost) : Label.Within labels v (cost + costOf as) := by
  induction walk generalizing cost with
  | stay v => simpa using within
  | @step a u v as here joins walk ih =>
    have relaxed := improvement?_eq_none.mp (stable (u, a) (mem_arcs.mpr ⟨here, joins⟩))
    simpa [add_assoc] using ih (relaxed cost within)

theorem Stable.not_hasNegativeCycle {labels : List (Label K)} (stable : Stable n.arcs labels)
    {cost : K} (within : Label.Within labels start cost) : ¬n.HasNegativeCycle start := by
  rintro ⟨v, as, ⟨bs, reach⟩, loop, negative⟩
  obtain ⟨l, found, _⟩ := stable.within reach within
  have round := stable.within loop ⟨l, found, le_rfl⟩
  have le := (Label.within_iff found).mp round
  linarith

/-- Relaxation ends after a round in which nothing improves any more, or fails after all
rounds. -/
theorem relax_ends (arcs : List (String × Arc K)) (rounds : Nat) (labels : List (Label K)) :
    (∃ k, relax arcs rounds labels = .ok ((relaxRound arcs)^[k] labels) ∧
      Stable arcs ((relaxRound arcs)^[k] labels)) ∨
    (∃ id, relax arcs rounds labels = .error id) ∧
      ¬Stable arcs ((relaxRound arcs)^[rounds] labels) := by
  induction rounds generalizing labels with
  | zero =>
    unfold relax
    split
    · rename_i nothing
      exact Or.inl ⟨0, rfl, by simpa [Stable] using nothing⟩
    · rename_i p found
      refine Or.inr ⟨⟨_, rfl⟩, fun stable => ?_⟩
      have nothing : improvement? labels p = none := stable p (List.mem_of_find?_eq_some found)
      simpa [nothing] using List.find?_some found
  | succ rounds ih =>
    unfold relax
    split
    · rename_i nothing
      exact Or.inl ⟨0, rfl, by simpa [Stable] using nothing⟩
    · rcases ih (relaxRound arcs labels) with ⟨k, ended, stable⟩ | failed
      · exact Or.inl ⟨k + 1, ended, stable⟩
      · exact Or.inr failed

/-- A two-way edge of negative cost leads back to its source at a negative cost. -/
theorem hasNegativeCycle_of_bidirectional {e : Edge K} (here : e ∈ n.edges)
    (both : e.bidirectional = true) (negative : e.cost < 0) (reach : n.Reaches start e.source) :
    n.HasNegativeCycle start := by
  have forth : n.Walk e.source [⟨e, e.target⟩] e.target := .single here (Or.inl ⟨rfl, rfl⟩)
  have back : n.Walk e.target [⟨e, e.source⟩] e.source := .single here (Or.inr ⟨both, rfl, rfl⟩)
  refine ⟨e.source, _, reach, forth.append back, ?_⟩
  simp only [costOf_append, costOf_cons, costOf_nil]
  linarith

section Order

variable {es : List (Edge K)}

theorem hasNegativeCycle_reorder (perm : es.Perm n.edges) :
    HasNegativeCycle { n with edges := es } start ↔ n.HasNegativeCycle start := by
  simp only [HasNegativeCycle, Reaches, Walk.reorder_iff perm]

theorem answers_reorder (perm : es.Perm n.edges) {r? : Option (Route K)}
    (answer : Answers { n with edges := es } start goal r?) : n.Answers start goal r? := by
  refine ⟨?_, ?_, ?_⟩
  · simpa only [Reaches, Walk.reorder_iff perm] using answer.reaches
  · intro r hr
    obtain ⟨starts, ends, simple, as, walk, rest⟩ := answer.route r hr
    exact ⟨starts, ends, simple, as, (Walk.reorder_iff perm).mp walk, rest⟩
  · intro r hr as walk
    exact answer.cheapest r hr as ((Walk.reorder_iff perm).mpr walk)

end Order

variable [Geodesy K]

/-- Relaxation fails where a negative cycle is in reach, and has an answer everywhere else. -/
theorem bellmanFord_outcome (consistent : n.Consistent) (hs : n.hasNode start)
    (hg : n.hasNode goal) :
    (n.HasNegativeCycle start → Fails (n.bellmanFord start goal) .topology) ∧
      (¬n.HasNegativeCycle start →
        ∃ r?, n.bellmanFord start goal = .ok r? ∧ n.Answers start goal r?) := by
  obtain ⟨_, _, first⟩ := requireNode_eq_ok hs
  obtain ⟨_, _, last⟩ := requireNode_eq_ok hg
  rcases relax_ends n.arcs n.nodes.length [⟨start, 0, none⟩] with
    ⟨k, ended, stable⟩ | ⟨⟨id, failed⟩, unstable⟩
  · have noCycle := stable.not_hasNegativeCycle (n.within_labelsAfter_start start k)
    have sound := sound_labelsAfter noCycle k
    refine ⟨fun cycle => absurd cycle noCycle, fun _ => ⟨_, ?_, sound.answers consistent ?_⟩⟩
    · rw [bellmanFord, first, last, ended]
      rfl
    · intro as walk
      rw [← zero_add (costOf as)]
      exact stable.within walk (n.within_labelsAfter_start start k)
  · have cycle : n.HasNegativeCycle start := by
      by_contra noCycle
      exact unstable (stable_labelsAfter consistent hs noCycle)
    refine ⟨fun _ => ⟨.topology (.negativeCycle start id), ?_, rfl⟩, absurd cycle⟩
    rw [bellmanFord, first, last, failed]
    rfl

/-- The kind of a fault, or what the route costs if there is one. -/
def costOrKind (o : Outcome K (Option (Route K))) : Except FaultKind (Option K) :=
  (o.mapError Fault.kind).map (Option.map (·.cost))

theorem costOrKind_reorder (consistent : n.Consistent) (hs : n.hasNode start)
    (hg : n.hasNode goal) {es : List (Edge K)} (perm : es.Perm n.edges) :
    costOrKind (bellmanFord { n with edges := es } start goal) =
      costOrKind (n.bellmanFord start goal) := by
  obtain ⟨fails, answers⟩ := bellmanFord_outcome consistent hs hg
  obtain ⟨fails', answers'⟩ := bellmanFord_outcome (consistent.reorder perm) hs hg
  by_cases cycle : n.HasNegativeCycle start
  · obtain ⟨f, failed, kind⟩ := fails cycle
    obtain ⟨f', failed', kind'⟩ := fails' ((hasNegativeCycle_reorder perm).mpr cycle)
    simp [costOrKind, failed, failed', kind, kind', Except.mapError, Except.map]
  · obtain ⟨r?, found, answer⟩ := answers cycle
    obtain ⟨s?, found', answer'⟩ := answers' (mt (hasNegativeCycle_reorder perm).mp cycle)
    have same := (answers_reorder perm answer').cost_unique answer
    simp [costOrKind, found, found', same, Except.mapError, Except.map]

/-- A fault tells that a negative cycle is in reach; a two-way edge of negative cost is one.
Otherwise the answer is a cheapest route. The order of the edges matters for neither. -/
theorem bellmanFord_finds_cheapest (built : n.Built) (hs : n.hasNode start)
    (hg : n.hasNode goal) :
    (Fails (n.bellmanFord start goal) .topology ↔ n.HasNegativeCycle start) ∧
      (∀ e ∈ n.edges, e.bidirectional = true → e.cost < 0 → n.Reaches start e.source →
        n.HasNegativeCycle start) ∧
      (¬n.HasNegativeCycle start →
        ∃ r?, n.bellmanFord start goal = .ok r? ∧ n.Answers start goal r?) ∧
      ∀ es : List (Edge K), es.Perm n.edges →
        costOrKind (bellmanFord { n with edges := es } start goal) =
          costOrKind (n.bellmanFord start goal) := by
  obtain ⟨fails, answers⟩ := bellmanFord_outcome built.consistent hs hg
  refine ⟨⟨?_, fails⟩, ?_, answers, fun es => costOrKind_reorder built.consistent hs hg⟩
  · rintro ⟨f, failed, _⟩
    by_contra noCycle
    obtain ⟨r?, found, _⟩ := answers noCycle
    exact absurd (failed.symm.trans found) nofun
  · intro e here both negative reach
    exact hasNegativeCycle_of_bidirectional here both negative reach

/-- A direct way, and a detour that pays. -/
noncomputable def detour : Network ℝ := (empty .euclidean).run [
  .addNode "a" ⟨0, 0, none⟩, .addNode "b" ⟨3, 0, none⟩, .addNode "c" ⟨3, 4, none⟩,
  .addEdge ⟨"ab", "a", "b", 4, none, false⟩, .addEdge ⟨"ac", "a", "c", 2, none, false⟩,
  .addEdge ⟨"cb", "c", "b", -1, none, false⟩]

theorem edges_detour : detour.edges = [⟨"ab", "a", "b", 4, none, false⟩,
    ⟨"ac", "a", "c", 2, none, false⟩, ⟨"cb", "c", "b", -1, none, false⟩] := rfl

/-- What is left to pay from each node is an estimate that no edge lowers too far. -/
theorem feasible_detour : detour.Feasible fun id => if id = "c" then -1 else 0 := by
  intro e here u v joins
  simp only [edges_detour, List.mem_cons, List.not_mem_nil, or_false] at here
  rcases here with rfl | rfl | rfl
  · obtain ⟨rfl, rfl⟩ : "a" = u ∧ "b" = v := by simpa [Edge.Joins] using joins
    simp
  · obtain ⟨rfl, rfl⟩ : "a" = u ∧ "c" = v := by simpa [Edge.Joins] using joins
    simp
  · obtain ⟨rfl, rfl⟩ : "c" = u ∧ "b" = v := by simpa [Edge.Joins] using joins
    simp

/-- The route makes the detour. -/
theorem bellmanFord_finds_cheapest_detour : detour.Built ∧
    ∃ r, detour.bellmanFord "a" "b" = .ok (some r) ∧ detour.IsRoute "a" "b" r ∧ r.cost ≤ 1 := by
  have built : detour.Built := ⟨.euclidean, _, rfl⟩
  have known : detour.hasNode "a" ∧ detour.hasNode "b" := ⟨rfl, rfl⟩
  obtain ⟨-, -, answers, -⟩ := bellmanFord_finds_cheapest built known.1 known.2
  obtain ⟨r?, found, answer⟩ := answers (feasible_detour.not_hasNegativeCycle "a")
  have round : detour.Walk "a" [⟨⟨"ac", "a", "c", 2, none, false⟩, "c"⟩,
      ⟨⟨"cb", "c", "b", -1, none, false⟩, "b"⟩] "b" :=
    .step (by simp [edges_detour]) (Or.inl ⟨rfl, rfl⟩)
      (.step (by simp [edges_detour]) (Or.inl ⟨rfl, rfl⟩) (.stay "b"))
  obtain ⟨r, rfl⟩ := Option.isSome_iff_exists.mp (answer.reaches.mpr ⟨_, round⟩)
  refine ⟨built, r, found, answer.route r rfl, ?_⟩
  have cost := answer.cheapest r rfl _ round
  norm_num at cost
  exact cost

end Geospatial.Network
