import Mathlib.Data.List.Forall2
import Geospatial.Proofs.Network.Cheapest
import Geospatial.Proofs.Scalar.Order

/-! Tours by nearest neighbors. Of the stops that are left, each time the one that a cheapest route
reaches at the least cost is taken out, so that every stop is visited as often as it is listed. The
tour fails only where some stop is out of reach of another one. -/
namespace Geospatial.Network

variable {K : Type} [Exact K] {n : Network K}

structure CheapestRoute (n : Network K) (start goal : String) (r : Route K) : Prop where
  route : n.IsRoute start goal r
  cheapest : ∀ as, n.Walk start as goal → r.cost ≤ costOf as

theorem Answers.cheapestRoute {u v : String} {r : Route K} (answer : n.Answers u v (some r)) :
    n.CheapestRoute u v r := ⟨answer.route r rfl, answer.cheapest r rfl⟩

/-- The cheapest of some routes is the least one by cost. -/
theorem cheapest?_eq_least? (routes : List (ℕ × Route K)) :
    cheapest? routes = Order.least? (Order.on (fun r => r.2.cost) Scalar.order) routes := by
  cases routes with
  | nil => rfl
  | cons r rs => simp only [cheapest?, Order.least?, Order.on, beq_iff_eq, Scalar.order_eq_gt]

/-- No listed route is cheaper than the one that is chosen. -/
theorem cheapest?_eq_some {routes : List (ℕ × Route K)} {r : ℕ × Route K}
    (found : cheapest? routes = some r) : r ∈ routes ∧ ∀ s ∈ routes, r.2.cost ≤ s.2.cost := by
  rw [cheapest?_eq_least?] at found
  exact Scalar.least?_by_key (fun _ => le_rfl) found

theorem cheapest?_eq_none {routes : List (ℕ × Route K)} :
    cheapest? routes = none ↔ routes = [] := by
  rw [cheapest?_eq_least?, Order.least?_eq_none]

/-- The routes from a node to some stops, with the places of the stops, as far as there are any. -/
def reachedOf (routes : List (Option (Route K))) : List (ℕ × Route K) :=
  routes.zipIdx.filterMap fun (r, i) => r.map (i, ·)

omit [Exact K] in
theorem mem_reachedOf {routes : List (Option (Route K))} {i : ℕ} {r : Route K} :
    (i, r) ∈ reachedOf routes ↔ routes[i]? = some (some r) := by
  simp [reachedOf, List.mem_zipIdx_iff_getElem?]

/-- The stops are visited in order from a node on. Each one is reached over a cheapest route, and
none of those that are left could be reached at a lower cost. -/
inductive Visits (n : Network K) : String → List String → List (Route K) → Prop
  | stay (u : String) : Visits n u [] []
  | next {u v : String} {vs : List String} {leg : Route K} {legs : List (Route K)} :
      n.CheapestRoute u v leg → (∀ w ∈ v :: vs, ∀ as, n.Walk u as w → leg.cost ≤ costOf as) →
      Visits n v vs legs → Visits n u (v :: vs) (leg :: legs)

namespace Visits

variable {u : String} {vs : List String} {legs : List (Route K)}

theorem ends (visits : n.Visits u vs legs) :
    (legs.map fun l => l.nodes.getLast?) = vs.map some := by
  induction visits with
  | stay u => rfl
  | next leg _ _ ih => rw [List.map_cons, List.map_cons, leg.route.ends, ih]

theorem length_eq (visits : n.Visits u vs legs) : legs.length = vs.length := by
  simpa using congrArg List.length visits.ends

theorem order (visits : n.Visits u vs legs) (first : String) :
    (legs.map fun l => l.nodes.getLast?.getD first) = vs := by
  have ends := congrArg (List.map fun v : Option String => v.getD first) visits.ends
  rw [List.map_map, List.map_map] at ends
  exact ends.trans (List.map_id' vs)

theorem lastStop_eq (visits : n.Visits u vs legs) : lastStop u legs = vs.getLast?.getD u := by
  have ends := congrArg List.getLast? visits.ends
  rw [List.getLast?_map, List.getLast?_map] at ends
  have last := congrArg (Option.bind · id) ends
  rw [Option.bind_map, Option.bind_map] at last
  exact congrArg (Option.getD · u) (last.trans (Option.bind_fun_some _))

theorem cheapest (visits : n.Visits u vs legs) :
    List.Forall₂ (fun s leg => n.CheapestRoute s.1 s.2 leg) (Path.pairs (u :: vs)) legs := by
  induction visits with
  | stay u => exact .nil
  | next leg _ _ ih => exact .cons leg ih

theorem nearest (visits : n.Visits u vs legs) {i j : ℕ} (later : i < j) {v w : String}
    (here : (u :: vs)[i]? = some v) (there : (u :: vs)[j]? = some w) {leg : Route K}
    (taken : legs[i]? = some leg) : ∀ as, n.Walk v as w → leg.cost ≤ costOf as := by
  induction visits generalizing i j with
  | stay u => simp at taken
  | next _ least _ ih =>
    obtain ⟨j, rfl⟩ : ∃ k, j = k + 1 := ⟨j - 1, by omega⟩
    rw [List.getElem?_cons_succ] at there
    cases i with
    | zero =>
      obtain rfl := Option.some.inj here
      obtain rfl := Option.some.inj taken
      exact least w (List.mem_of_getElem? there)
    | succ i => exact ih (Nat.lt_of_succ_lt_succ later) here there taken

end Visits

/-- A tour over some stops in the order of `visits`, back to the first one where that is asked for
and there are others. -/
structure IsTour (n : Network K) (stops : List String) (returns : Bool) (visits : List String)
    (t : Tour K) : Prop where
  each : visits.Perm stops
  first : visits.head? = stops.head?
  order : t.order =
    if returns = true ∧ 1 < stops.length then visits ++ stops.head?.toList else visits
  /-- Legs lead from each place of the order to the next one. -/
  legs : List.Forall₂ (fun ends leg => n.CheapestRoute ends.1 ends.2 leg)
    (Path.pairs t.order) t.legs
  /-- The next stop is a cheapest one to reach of those that are visited later. -/
  nearest : ∀ {i j : ℕ} {u v : String} {leg : Route K}, i < j → visits[i]? = some u →
    visits[j]? = some v → t.legs[i]? = some leg → ∀ as, n.Walk u as v → leg.cost ≤ costOf as
  cost : t.cost = (t.legs.map (·.cost)).sum

section Answers

variable {u : String} {stops : List String} {routes : List (Option (Route K))}
  (answers : List.Forall₂ (n.Answers u) stops routes)
include answers

theorem answer_of_stop {i : ℕ} {v : String} (here : stops[i]? = some v) :
    ∃ r?, routes[i]? = some r? ∧ n.Answers u v r? := by
  obtain ⟨inside, rfl⟩ := List.getElem?_eq_some_iff.mp here
  have there : i < routes.length := answers.length_eq ▸ inside
  exact ⟨routes[i], List.getElem?_eq_getElem there, answers.get inside there⟩

/-- The cheapest route of all leads to a stop that is nearest. -/
theorem nearest_of_cheapest? {i : ℕ} {leg : Route K}
    (found : cheapest? (reachedOf routes) = some (i, leg)) :
    ∃ v, stops[i]? = some v ∧ n.CheapestRoute u v leg ∧
      ∀ w ∈ stops, ∀ as, n.Walk u as w → leg.cost ≤ costOf as := by
  obtain ⟨chosen, least⟩ := cheapest?_eq_some found
  have reached := mem_reachedOf.mp chosen
  have inside : i < stops.length := by
    rw [answers.length_eq]
    exact (List.getElem?_eq_some_iff.mp reached).1
  have here := List.getElem?_eq_getElem inside
  obtain ⟨r?, there, answer⟩ := answer_of_stop answers here
  obtain rfl := Option.some.inj (there.symm.trans reached)
  refine ⟨stops[i], here, answer.cheapestRoute, fun w hw as walk => ?_⟩
  obtain ⟨j, hj⟩ := List.mem_iff_getElem?.mp hw
  obtain ⟨s?, other, answer'⟩ := answer_of_stop answers hj
  obtain ⟨s, rfl⟩ := Option.isSome_iff_exists.mp (answer'.reaches.mpr ⟨as, walk⟩)
  exact (least (j, s) (mem_reachedOf.mpr other)).trans (answer'.cheapest s rfl as walk)

theorem not_reaches_of_cheapest? (unreached : cheapest? (reachedOf routes) = none) :
    ∀ v ∈ stops, ¬n.Reaches u v := by
  intro v hv reaches
  obtain ⟨i, here⟩ := List.mem_iff_getElem?.mp hv
  obtain ⟨r?, there, answer⟩ := answer_of_stop answers here
  obtain ⟨r, rfl⟩ := Option.isSome_iff_exists.mp (answer.reaches.mpr reaches)
  have reached := mem_reachedOf.mpr there
  rw [cheapest?_eq_none.mp unreached] at reached
  contradiction

end Answers

section Run

variable [Geodesy K] (consistent : n.Consistent) (costs : ∀ e ∈ n.edges, 0 ≤ e.cost)
include consistent costs

theorem exists_routes {u : String} (hu : n.hasNode u) {stops : List String}
    (known : ∀ v ∈ stops, n.hasNode v) :
    ∃ routes, stops.mapM (n.dijkstra u) = .ok routes ∧ List.Forall₂ (n.Answers u) stops routes := by
  induction stops with
  | nil => exact ⟨[], rfl, .nil⟩
  | cons v vs ih =>
    obtain ⟨hv, rest⟩ := List.forall_mem_cons.mp known
    obtain ⟨r?, found, answer⟩ := dijkstra_eq_ok consistent costs hu hv
    obtain ⟨routes, others, answers⟩ := ih rest
    refine ⟨r? :: routes, ?_, .cons answer answers⟩
    rw [List.mapM_cons, found, others]
    rfl

omit consistent costs in
theorem visitRemaining_succ {u : String} {stops : List String}
    {routes : List (Option (Route K))} (found : stops.mapM (n.dijkstra u) = .ok routes)
    (rounds : ℕ) : n.visitRemaining u (rounds + 1) stops = match cheapest? (reachedOf routes) with
      | none => .ok none
      | some (i, leg) => (·.map (leg :: ·)) <$>
          n.visitRemaining (stops.getD i u) rounds (stops.eraseIdx i) := by
  rw [visitRemaining, found]
  rfl

/-- The stops that are left are all visited, unless one of them cannot be reached from another. -/
theorem visitRemaining_visits {rounds : ℕ} {u : String} (hu : n.hasNode u) {stops : List String}
    (known : ∀ v ∈ stops, n.hasNode v) (count : stops.length = rounds) :
    ∃ legs?, n.visitRemaining u rounds stops = .ok legs? ∧
      (∀ legs ∈ legs?, ∃ vs, vs.Perm stops ∧ n.Visits u vs legs) ∧
      ((∀ v ∈ u :: stops, ∀ w ∈ u :: stops, n.Reaches v w) → legs?.isSome) := by
  induction rounds generalizing u stops with
  | zero =>
    obtain rfl := List.eq_nil_of_length_eq_zero count
    refine ⟨some [], rfl, fun legs hl => ⟨[], .nil, ?_⟩, fun _ => rfl⟩
    rw [← Option.mem_some_iff.mp hl]
    exact .stay u
  | succ rounds ih =>
    obtain ⟨routes, found, answers⟩ := exists_routes consistent costs hu known
    rw [visitRemaining_succ found]
    cases next : cheapest? (reachedOf routes) with
    | none =>
      refine ⟨none, rfl, nofun, fun joined => ?_⟩
      obtain ⟨v, hv⟩ := List.exists_mem_of_length_eq_add_one count
      exact absurd (joined u List.mem_cons_self v (List.mem_cons_of_mem u hv))
        (not_reaches_of_cheapest? answers next v hv)
    | some chosen =>
      obtain ⟨i, leg⟩ := chosen
      obtain ⟨v, here, cheapest, nearest⟩ := nearest_of_cheapest? answers next
      have taken : stops.getD i u = v := by rw [List.getD_eq_getElem?_getD, here, Option.getD_some]
      obtain ⟨inside, same⟩ := List.getElem?_eq_some_iff.mp here
      have perm : (v :: stops.eraseIdx i).Perm stops :=
        same ▸ List.getElem_cons_eraseIdx_perm inside
      have fewer : (stops.eraseIdx i).length = rounds := by
        rw [List.length_eraseIdx_of_lt inside, count, Nat.add_sub_cancel]
      obtain ⟨hv, others⟩ := List.forall_mem_cons.mp fun w hw => known w (perm.mem_iff.mp hw)
      obtain ⟨legs?, visited, visits, complete⟩ := ih hv others fewer
      refine ⟨legs?.map (leg :: ·), ?_, ?_, ?_⟩
      · simp only [taken, visited]
        rfl
      · intro legs hl
        obtain ⟨rest, hr, rfl⟩ := Option.map_eq_some_iff.mp hl
        obtain ⟨vs, order, visits⟩ := visits rest hr
        have order := (order.cons v).trans perm
        exact ⟨v :: vs, order, .next cheapest (fun w hw => nearest w (order.mem_iff.mp hw)) visits⟩
      · intro joined
        rw [Option.isSome_map]
        have among {w : String} (hw : w ∈ v :: stops.eraseIdx i) : w ∈ u :: stops :=
          List.mem_cons_of_mem u (perm.mem_iff.mp hw)
        exact complete fun a ha b hb => joined a (among ha) b (among hb)

end Run

/-- The tour over some legs. -/
def Tour.ofLegs (first : String) (legs : List (Route K)) : Tour K where
  order := first :: legs.map fun l => l.nodes.getLast?.getD first
  legs
  cost := Scalar.sum (legs.map (·.cost))

omit [Exact K] in
theorem requireNodes_eq_ok {stops : List String} (known : ∀ v ∈ stops, n.hasNode v) :
    (stops.forM fun s => do let _ ← n.requireNode s) = (.ok () : Outcome K Unit) := by
  induction stops with
  | nil => rfl
  | cons v vs ih =>
    obtain ⟨hv, rest⟩ := List.forall_mem_cons.mp known
    obtain ⟨_, _, found⟩ := requireNode_eq_ok hv
    rw [List.forM, found]
    exact ih rest

section Cases

variable [Geodesy K] (costs : ∀ e ∈ n.edges, 0 ≤ e.cost) {first : String} {others : List String}
  (known : ∀ v ∈ first :: others, n.hasNode v) {returns : Bool} {legs : List (Route K)}
include costs known

theorem tour_eq_none (stuck : n.visitRemaining first others.length others = .ok none) :
    n.tour (first :: others) returns = .ok none := by
  rw [tour, requireNodes_eq_ok known, requireCosts_eq_ok costs, stuck]
  rfl

variable (visited : n.visitRemaining first others.length others = .ok (some legs))
include visited

theorem tour_eq_open (stays : ¬(returns = true ∧ others ≠ [])) :
    n.tour (first :: others) returns = .ok (some (.ofLegs first legs)) := by
  have stays : (returns && !others.isEmpty) = false := by simpa using stays
  rw [tour, requireNodes_eq_ok known, requireCosts_eq_ok costs, visited, stays]
  exact congrArg (fun legs => Except.ok (some (Tour.ofLegs first legs))) (List.append_nil legs)

theorem tour_eq_closed (goes : returns = true ∧ others ≠ []) {back? : Option (Route K)}
    (back : n.dijkstra (lastStop first legs) first = .ok back?) :
    n.tour (first :: others) returns =
      .ok (back?.map fun back => .ofLegs first (legs ++ [back])) := by
  have goes : (returns && !others.isEmpty) = true := by simpa using goes
  rw [tour, requireNodes_eq_ok known, requireCosts_eq_ok costs, visited, goes]
  simp only [bind, Except.bind, back]
  cases back? <;> rfl

end Cases

theorem pairs_concat (u v : String) (vs : List String) :
    Path.pairs (u :: (vs ++ [v])) = Path.pairs (u :: vs) ++ [(vs.getLast?.getD u, v)] := by
  induction vs generalizing u with
  | nil => rfl
  | cons w vs ih =>
    have last : (w :: vs).getLast?.getD u = vs.getLast?.getD w := by
      rw [List.getLast?_cons, Option.getD_some]
    rw [last]
    exact congrArg (List.cons (u, w)) (ih w)

namespace Visits

variable {first : String} {others vs : List String} {legs : List (Route K)} {returns : Bool}

theorem isTour_open (visits : n.Visits first vs legs) (perm : vs.Perm others)
    (stays : ¬(returns = true ∧ others ≠ [])) :
    n.IsTour (first :: others) returns (first :: vs) (.ofLegs first legs) where
  each := perm.cons first
  first := rfl
  order := by
    have alone : ¬(returns = true ∧ 1 < (first :: others).length) := by
      simpa [List.length_pos_iff] using stays
    rw [if_neg alone, Tour.ofLegs, visits.order]
  legs := by
    rw [Tour.ofLegs, visits.order]
    exact visits.cheapest
  nearest later here there taken := visits.nearest later here there taken
  cost := Exact.sum_eq _

theorem isTour_closed (visits : n.Visits first vs legs) (perm : vs.Perm others)
    (goes : returns = true ∧ others ≠ []) {back : Route K}
    (last : n.CheapestRoute (lastStop first legs) first back) :
    n.IsTour (first :: others) returns (first :: vs) (.ofLegs first (legs ++ [back])) := by
  have order : (Tour.ofLegs first (legs ++ [back])).order = first :: (vs ++ [first]) := by
    rw [Tour.ofLegs, List.map_append, visits.order, List.map_singleton, last.route.ends]
    rfl
  refine ⟨perm.cons first, rfl, ?_, ?_, ?_, Exact.sum_eq _⟩
  · have several : returns = true ∧ 1 < (first :: others).length := by
      simpa [List.length_pos_iff] using goes
    rw [if_pos several, order]
    rfl
  · rw [order, pairs_concat, ← visits.lastStop_eq]
    exact List.rel_append visits.cheapest (.cons last .nil)
  · intro i j u v leg later here there taken
    have inside : i < legs.length := by
      have bound := (List.getElem?_eq_some_iff.mp there).1
      rw [List.length_cons] at bound
      rw [visits.length_eq]
      omega
    exact visits.nearest later here there ((List.getElem?_append_left inside).symm.trans taken)

end Visits

/-- Among stops that are nodes of the network, a tour is found where every stop can be reached from
every other one, and whatever is found is a tour by nearest neighbors. -/
theorem tour_visits_nearest [Geodesy K] (built : n.Built) (costs : ∀ e ∈ n.edges, 0 ≤ e.cost)
    {stops : List String} (filled : stops ≠ []) (known : ∀ s ∈ stops, n.hasNode s)
    (returns : Bool) :
    ∃ t?, n.tour stops returns = .ok t? ∧
      (∀ t ∈ t?, ∃ visits, n.IsTour stops returns visits t) ∧
      ((∀ u ∈ stops, ∀ v ∈ stops, n.Reaches u v) → t?.isSome) := by
  have consistent := built.consistent
  obtain ⟨first, others, rfl⟩ := List.exists_cons_of_ne_nil filled
  obtain ⟨hf, ho⟩ := List.forall_mem_cons.mp known
  obtain ⟨legs?, visited, visits, complete⟩ :=
    visitRemaining_visits consistent costs hf ho rfl
  cases legs? with
  | none => exact ⟨none, tour_eq_none costs known visited, nofun, complete⟩
  | some legs =>
    obtain ⟨vs, perm, visits⟩ := visits legs rfl
    by_cases goes : returns = true ∧ others ≠ []
    · have last : lastStop first legs ∈ first :: others := by
        rw [visits.lastStop_eq]
        cases vs using List.reverseRecOn with
        | nil => exact List.mem_cons_self
        | append_singleton vs v =>
          exact List.mem_cons_of_mem first (perm.mem_iff.mp (by simp))
      obtain ⟨back?, found, answer⟩ := dijkstra_eq_ok consistent costs (known _ last) hf
      refine ⟨_, tour_eq_closed costs known visited goes found, ?_, ?_⟩
      · intro t ht
        obtain ⟨back, rfl, rfl⟩ := Option.map_eq_some_iff.mp ht
        exact ⟨first :: vs, visits.isTour_closed perm goes answer.cheapestRoute⟩
      · intro joined
        rw [Option.isSome_map]
        exact answer.reaches.mpr (joined _ last first List.mem_cons_self)
    · refine ⟨_, tour_eq_open costs known visited goes, ?_, fun _ => rfl⟩
      intro t ht
      rw [← Option.mem_some_iff.mp ht]
      exact ⟨first :: vs, visits.isTour_open perm goes⟩

/-- Every node of the corner can be reached, and leads back, by way of the first one. -/
theorem reaches_corner {u v : String} (hu : u ∈ ["a", "b", "c"]) (hv : v ∈ ["a", "b", "c"]) :
    corner.Reaches u v := by
  have single (e : Edge ℝ) (here : e ∈ corner.edges) {u v : String} (joins : e.Joins u v) :
      corner.Reaches u v := ⟨[⟨e, v⟩], .single here joins⟩
  have ab : (⟨"ab", "a", "b", 3, none, true⟩ : Edge ℝ) ∈ corner.edges := by simp [edges_corner]
  have ac : (⟨"ac", "a", "c", 9, none, true⟩ : Edge ℝ) ∈ corner.edges := by simp [edges_corner]
  have back : corner.Reaches u "a" := by
    simp only [List.mem_cons, List.not_mem_nil, or_false] at hu
    rcases hu with rfl | rfl | rfl
    · exact ⟨[], .stay "a"⟩
    · exact single _ ab (.inr ⟨rfl, rfl, rfl⟩)
    · exact single _ ac (.inr ⟨rfl, rfl, rfl⟩)
  have forth : corner.Reaches "a" v := by
    simp only [List.mem_cons, List.not_mem_nil, or_false] at hv
    rcases hv with rfl | rfl | rfl
    · exact ⟨[], .stay "a"⟩
    · exact single _ ab (.inl ⟨rfl, rfl⟩)
    · exact single _ ac (.inl ⟨rfl, rfl⟩)
  obtain ⟨as, first⟩ := back
  obtain ⟨bs, second⟩ := forth
  exact ⟨as ++ bs, first.append second⟩

/-- One of the stops is listed twice and visited twice. -/
theorem tour_visits_nearest_corner : corner.Built ∧
    (∀ s ∈ ["a", "c", "b", "c"], corner.hasNode s) ∧
    ∃ t visits, corner.tour ["a", "c", "b", "c"] true = .ok (some t) ∧
      corner.IsTour ["a", "c", "b", "c"] true visits t ∧ visits.count "c" = 2 := by
  have known : ∀ s ∈ ["a", "c", "b", "c"], corner.hasNode s := by
    simp only [List.forall_mem_cons]
    exact ⟨rfl, rfl, rfl, rfl, nofun⟩
  obtain ⟨t?, found, tours, complete⟩ :=
    tour_visits_nearest built_corner costs_corner (List.cons_ne_nil _ _) known true
  have among : ["a", "c", "b", "c"] ⊆ ["a", "b", "c"] := by decide
  obtain ⟨t, rfl⟩ := Option.isSome_iff_exists.mp
    (complete fun u hu v hv => reaches_corner (among hu) (among hv))
  obtain ⟨visits, tour⟩ := tours t rfl
  exact ⟨built_corner, known, t, visits, found, tour, tour.each.count_eq "c"⟩

end Geospatial.Network
