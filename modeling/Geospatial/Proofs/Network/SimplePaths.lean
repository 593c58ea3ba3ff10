import Geospatial.Proofs.Scalar.Order
import Geospatial.Proofs.Scalar.DoubleArithmetic
import Geospatial.Proofs.Network.Answer

/-! All paths without repeated nodes. A trail leads to the paths that go on from its last node to new
nodes. What a search has found and what its waiting trails lead to stays the same with every step,
so that in the end it has found what the trail at the start leads to. -/
namespace Geospatial.Network

variable {K : Type}

/-- The paths to the goal that a trail leads to over at most `k` further edges, in the order in which
they are found. -/
def Trail.completions (n : Network K) (goal : String) : Nat → Trail → List (List String)
  | 0, t => if t.node == goal then [t.taken] else []
  | k + 1, t =>
    if t.node == goal then [t.taken]
    else (t.extensions n).reverse.flatMap fun u => completions n goal k u

/-- The trail after one more arc. -/
def Trail.extend (t : Trail) (a : Arc K) : Trail :=
  ⟨a.head, t.taken ++ [a.edge.id], t.visited ++ [a.head]⟩

/-- All paths that a search has found or will find. -/
def PathSearch.outlook (n : Network K) (goal : String) (maxEdges : Nat) (s : PathSearch) :
    List (List String) :=
  s.found ++ s.waiting.flatMap fun t => t.completions n goal (maxEdges - t.taken.length)

variable {n : Network K} {start goal : String} {maxEdges : Nat}

namespace Trail

variable {t : Trail} {k : Nat}

theorem completions_goal (arrived : t.node = goal) : t.completions n goal k = [t.taken] := by
  cases k <;> rw [completions, if_pos (by simpa using arrived)]

theorem completions_zero (apart : t.node ≠ goal) : t.completions n goal 0 = [] := by
  rw [completions, if_neg (by simpa using apart)]

theorem completions_succ (apart : t.node ≠ goal) : t.completions n goal (k + 1) =
    (t.extensions n).reverse.flatMap fun u => u.completions n goal k := by
  rw [completions, if_neg (by simpa using apart)]

theorem mem_extensions {u : Trail} :
    u ∈ t.extensions n ↔ ∃ a ∈ n.outgoing t.node, a.head ∉ t.visited ∧ t.extend a = u := by
  simp [extensions, extend, List.mem_filterMap]

end Trail

namespace PathSearch

/-- A trail that is taken from the stack gives way to a path or to its extensions. -/
theorem outlook_step (s : PathSearch) :
    (s.step n goal maxEdges).outlook n goal maxEdges = s.outlook n goal maxEdges := by
  obtain ⟨waiting, found⟩ := s
  cases waiting with
  | nil => rfl
  | cons t rest =>
    simp only [step, outlook, List.flatMap_cons]
    by_cases arrived : t.node = goal
    · simp [Trail.completions_goal arrived, arrived]
    · rw [if_neg (by simpa using arrived)]
      split
      · rename_i long
        rw [Nat.sub_eq_zero_of_le long, Trail.completions_zero arrived, List.nil_append]
      · rename_i short
        obtain ⟨k, left⟩ : ∃ k, maxEdges - t.taken.length = k + 1 :=
          ⟨maxEdges - t.taken.length - 1, by omega⟩
        have next : ∀ u ∈ (t.extensions n).reverse,
            u.completions n goal (maxEdges - u.taken.length) = u.completions n goal k := by
          intro u longer
          rw [Trail.length_taken_of_mem_extensions (List.mem_reverse.mp longer)]
          congr 1
          omega
        rw [left, Trail.completions_succ arrived, List.flatMap_append, List.flatMap_congr next]

theorem run_of_empty {s : PathSearch} (empty : s.waiting = []) :
    s.run n goal maxEdges = s.found := by
  rw [run]
  split
  · rfl
  · rename_i waiting
    exact absurd (waiting.symm.trans empty) (List.cons_ne_nil _ _)

theorem run_of_waiting {s : PathSearch} {t : Trail} {rest : List Trail}
    (waiting : s.waiting = t :: rest) :
    s.run n goal maxEdges = (s.step n goal maxEdges).run n goal maxEdges := by
  rw [run]
  split
  · rename_i empty
    exact absurd (waiting.symm.trans empty) (List.cons_ne_nil t rest)
  · rfl

/-- Some number of steps leaves no trail waiting, by the measure that every step lowers. -/
theorem exists_rounds (n : Network K) (goal : String) (maxEdges : Nat) (s : PathSearch) :
    ∃ rounds, ((step n goal maxEdges)^[rounds] s).waiting = [] ∧
      ((step n goal maxEdges)^[rounds] s).found = s.run n goal maxEdges := by
  induction less : s.worth n maxEdges using Nat.strong_induction_on generalizing s with
  | _ w ih =>
    cases waiting : s.waiting with
    | nil => exact ⟨0, waiting, (run_of_empty waiting).symm⟩
    | cons t rest =>
      obtain ⟨rounds, empty, found⟩ :=
        ih _ (less ▸ worth_step_lt n goal maxEdges waiting) (s.step n goal maxEdges) rfl
      exact ⟨rounds + 1, empty, found.trans (run_of_waiting waiting).symm⟩

theorem outlook_iterate (rounds : Nat) (s : PathSearch) :
    ((step n goal maxEdges)^[rounds] s).outlook n goal maxEdges = s.outlook n goal maxEdges := by
  induction rounds generalizing s with
  | zero => rfl
  | succ rounds ih => exact (ih (s.step n goal maxEdges)).trans (outlook_step s)

theorem run_eq_outlook (s : PathSearch) : s.run n goal maxEdges = s.outlook n goal maxEdges := by
  obtain ⟨rounds, empty, found⟩ := exists_rounds n goal maxEdges s
  rw [← found, ← outlook_iterate rounds s, outlook, empty, List.flatMap_nil, List.append_nil]

theorem run_start (n : Network K) (start goal : String) (maxEdges : Nat) :
    (PathSearch.start start).run n goal maxEdges =
      Trail.completions n goal maxEdges ⟨start, [], [start]⟩ := by
  rw [run_eq_outlook]
  exact List.append_nil _

end PathSearch

namespace Trail

/-- A trail goes on along a walk from its last node to new nodes only, over at most `k` edges. -/
structure Leads (n : Network K) (goal : String) (k : Nat) (t : Trail) (as : List (Arc K)) :
    Prop where
  walk : n.Walk t.node as goal
  new : ∀ a ∈ as, a.head ∉ t.visited
  once : (as.map (·.head)).Nodup
  short : as.length ≤ k

variable {t : Trail} {k : Nat} {ids : List String}

theorem leads_nil : t.Leads n goal k [] ↔ t.node = goal := by
  constructor
  · rintro ⟨walk, -, -, -⟩
    cases walk
    rfl
  · rintro rfl
    exact ⟨.stay t.node, nofun, List.nodup_nil, Nat.zero_le k⟩

theorem leads_cons {a : Arc K} {as : List (Arc K)} : t.Leads n goal (k + 1) (a :: as) ↔
    (a.edge ∈ n.edges ∧ a.edge.Joins t.node a.head) ∧ a.head ∉ t.visited ∧
      (t.extend a).Leads n goal k as := by
  constructor
  · rintro ⟨walk, new, once, short⟩
    obtain ⟨first, others⟩ := List.forall_mem_cons.mp new
    obtain ⟨away, once⟩ := List.nodup_cons.mp once
    cases walk with
    | step here joins walk =>
      refine ⟨⟨here, joins⟩, first, walk, ?_, once, Nat.le_of_succ_le_succ short⟩
      intro b hb visited
      rcases List.mem_append.mp visited with before | same
      · exact others b hb before
      · exact away (List.mem_map.mpr ⟨b, hb, List.mem_singleton.mp same⟩)
  · rintro ⟨⟨here, joins⟩, first, walk, new, once, short⟩
    have later (b : Arc K) (hb : b ∈ as) : b.head ∉ t.visited ∧ b.head ≠ a.head := by
      simpa [extend] using new b hb
    refine ⟨.step here joins walk, ?_, ?_, Nat.succ_le_succ short⟩
    · exact List.forall_mem_cons.mpr ⟨first, fun b hb => (later b hb).1⟩
    · refine List.nodup_cons.mpr ⟨?_, once⟩
      intro back
      obtain ⟨b, hb, same⟩ := List.mem_map.mp back
      exact (later b hb).2 same

/-- A trail that has arrived goes nowhere from there. -/
theorem Leads.eq_nil {as : List (Arc K)} (leads : t.Leads n goal k as) (arrived : t.node = goal)
    (here : t.node ∈ t.visited) : as = [] := by
  by_contra gone
  obtain ⟨a, ha, same⟩ := List.mem_map.mp (leads.walk.mem_heads gone)
  exact leads.new a ha (same.trans arrived.symm ▸ here)

theorem mem_completions_goal (arrived : t.node = goal) (here : t.node ∈ t.visited) :
    ids ∈ [t.taken] ↔ ∃ as, t.Leads n goal k as ∧ t.taken ++ as.map (·.edge.id) = ids := by
  rw [List.mem_singleton]
  constructor
  · rintro rfl
    exact ⟨[], leads_nil.mpr arrived, List.append_nil _⟩
  · rintro ⟨as, leads, rfl⟩
    rw [leads.eq_nil arrived here, List.map_nil, List.append_nil]

/-- The paths of a trail are those over the walks that go on from it, and no others. -/
theorem mem_completions (consistent : n.Consistent) (here : t.node ∈ t.visited) :
    ids ∈ t.completions n goal k ↔
      ∃ as, t.Leads n goal k as ∧ t.taken ++ as.map (·.edge.id) = ids := by
  fun_induction completions n goal k t with
  | case1 t arrived => exact mem_completions_goal (by simpa using arrived) here
  | case2 t apart =>
    constructor
    · nofun
    · rintro ⟨as, leads, -⟩
      obtain rfl := List.eq_nil_of_length_eq_zero (Nat.le_zero.mp leads.short)
      exact absurd (leads_nil.mp leads) (by simpa using apart)
  | case3 k t arrived => exact mem_completions_goal (by simpa using arrived) here
  | case4 k t apart ih =>
    have there (a : Arc K) : (t.extend a).node ∈ (t.extend a).visited :=
      List.mem_append_right _ (List.mem_singleton_self a.head)
    have onward (a : Arc K) (as : List (Arc K)) : (t.extend a).taken ++ as.map (·.edge.id) =
        t.taken ++ (a :: as).map (·.edge.id) := List.append_assoc _ _ _
    rw [List.mem_flatMap]
    constructor
    · rintro ⟨u, longer, among⟩
      obtain ⟨a, leaves, new, rfl⟩ := mem_extensions.mp (List.mem_reverse.mp longer)
      obtain ⟨as, leads, rfl⟩ := (ih _ (there a)).mp among
      have joins := consistent.mem_outgoing.mp leaves
      exact ⟨a :: as, leads_cons.mpr ⟨joins, new, leads⟩, (onward a as).symm⟩
    · rintro ⟨as, leads, rfl⟩
      cases as with
      | nil => exact absurd (leads_nil.mp leads) (by simpa using apart)
      | cons a as =>
        obtain ⟨joins, new, leads⟩ := leads_cons.mp leads
        have leaves := consistent.mem_outgoing.mpr joins
        refine ⟨t.extend a, List.mem_reverse.mpr (mem_extensions.mpr ⟨a, leaves, new, rfl⟩), ?_⟩
        exact (ih _ (there a)).mpr ⟨as, leads, onward a as⟩

theorem prefix_of_mem_completions (among : ids ∈ t.completions n goal k) : t.taken <+: ids := by
  fun_induction completions n goal k t with
  | case1 => exact List.mem_singleton.mp among ▸ List.prefix_rfl
  | case2 => exact absurd among List.not_mem_nil
  | case3 => exact List.mem_singleton.mp among ▸ List.prefix_rfl
  | case4 k t _ ih =>
    obtain ⟨u, longer, among⟩ := List.mem_flatMap.mp among
    obtain ⟨a, -, -, rfl⟩ := mem_extensions.mp (List.mem_reverse.mp longer)
    exact (List.prefix_append t.taken [a.edge.id]).trans (ih _ among)

/-- Parallel edges have names of their own. -/
theorem pairwise_extensions (consistent : n.Consistent) (t : Trail) :
    (t.extensions n).Pairwise fun u v => u.taken ≠ v.taken := by
  have names := List.pairwise_map.mp (consistent.outgoing_ids_nodup t.node)
  refine List.pairwise_filterMap.mpr (names.imp ?_)
  intro a b apart u first v second same
  split at first
  · contradiction
  · split at second
    · contradiction
    · rw [← Option.some.inj first, ← Option.some.inj second, List.append_cancel_left_eq] at same
      exact apart (List.singleton_injective same)

theorem nodup_completions (consistent : n.Consistent) (k : Nat) (t : Trail) :
    (t.completions n goal k).Nodup := by
  fun_induction completions n goal k t with
  | case1 => exact List.nodup_singleton _
  | case2 => exact List.nodup_nil
  | case3 => exact List.nodup_singleton _
  | case4 k t _ ih =>
    refine List.nodup_flatMap.mpr ⟨fun u _ => ih u, List.pairwise_reverse.mpr ?_⟩
    refine (pairwise_extensions consistent t).imp_of_mem ?_
    intro u v hu hv apart ids first second
    -- Prefixes of one path that have the same length are the same.
    have length : v.taken.length = u.taken.length :=
      (length_taken_of_mem_extensions hv).trans (length_taken_of_mem_extensions hu).symm
    have same := List.prefix_of_prefix_length_le (prefix_of_mem_completions first)
      (prefix_of_mem_completions second) length.le
    exact apart (same.eq_of_length length).symm

end Trail

/-- A walk without repeated nodes, over at most so many edges. -/
structure SimpleWalk (n : Network K) (start goal : String) (maxEdges : Nat) (as : List (Arc K)) :
    Prop where
  walk : n.Walk start as goal
  simple : (visited start as).Nodup
  short : as.length ≤ maxEdges

theorem leads_iff_simpleWalk {as : List (Arc K)} :
    Trail.Leads n goal maxEdges ⟨start, [], [start]⟩ as ↔ n.SimpleWalk start goal maxEdges as := by
  have new : (∀ a ∈ as, a.head ∉ [start]) ↔ start ∉ as.map (·.head) := by
    simp [List.mem_map]
  constructor
  · rintro ⟨walk, away, once, short⟩
    exact ⟨walk, List.nodup_cons.mpr ⟨new.mp away, once⟩, short⟩
  · rintro ⟨walk, simple, short⟩
    obtain ⟨away, once⟩ := List.nodup_cons.mp simple
    exact ⟨walk, new.mpr away, once, short⟩

theorem mem_run_start (consistent : n.Consistent) {ids : List String} :
    ids ∈ (PathSearch.start start).run n goal maxEdges ↔
      ∃ as, n.SimpleWalk start goal maxEdges as ∧ as.map (·.edge.id) = ids := by
  rw [PathSearch.run_start, Trail.mem_completions consistent List.mem_cons_self]
  simp only [leads_iff_simpleWalk, List.nil_append]

section Routes

variable [Scalar K]

/-- By cost, then by the names of the edges. -/
def Route.byCost (r s : Route K) : Ordering :=
  (Scalar.order r.cost s.cost).then (compare r.edges s.edges)

theorem compare_names_eq_lt {xs ys : List String} : compare xs ys = .lt ↔ xs < ys := by
  induction xs generalizing ys with
  | nil => cases ys <;> simp
  | cons x xs ih =>
    cases ys with
    | nil => simp
    | cons y ys =>
      have names : compare x y = .lt ↔ x < y := compareOfLessAndEq_eq_lt
      rw [List.compare_eq_compareLex] at ih ⊢
      rw [List.compareLex_cons_cons, Ordering.then_eq_lt, names, ih, Std.compare_eq_iff_eq,
        List.cons_lt_cons_iff]

theorem allPaths_eq_ok [Geodesy K] (hs : n.hasNode start) (hg : n.hasNode goal) :
    n.allPaths start goal maxEdges = .ok (Order.sort Route.byCost
      (((PathSearch.start start).run n goal maxEdges).map (n.route start))) := by
  obtain ⟨_, _, first⟩ := requireNode_eq_ok hs
  obtain ⟨_, _, last⟩ := requireNode_eq_ok hg
  rw [allPaths, first, last]
  rfl

theorem edges_sort_perm [Geodesy K] (n : Network K) (start : String)
    (found : List (List String)) :
    ((Order.sort Route.byCost (found.map (n.route start))).map (·.edges)).Perm found := by
  refine ((Order.sort_perm Route.byCost _).map _).trans (.of_eq ?_)
  rw [List.map_map]
  exact List.map_id' found

theorem SimpleWalk.route [Geodesy K] (consistent : n.Consistent) {as : List (Arc K)}
    (path : n.SimpleWalk start goal maxEdges as) :
    (n.route start (as.map (·.edge.id))).nodes = visited start as ∧
      (n.route start (as.map (·.edge.id))).cost = Scalar.sum (as.map (·.edge.cost)) := by
  obtain ⟨nodes, costs⟩ := passages_walk consistent path.walk
  simp only [Network.route, visited, nodes, costs, and_self]

variable [Scalar.LawfulSum K]

theorem Route.byCost_transOn :
    Order.TransOn (Route.byCost (K := K)) fun r => r.cost ≤ r.cost :=
  (Scalar.order_transOn.on Route.cost fun _ number => number).lex
    ((Order.TransOn.of_transCmp fun _ => True).on Route.edges fun _ _ => trivial)

theorem Route.before_of_byCost {r s : Route K} (hr : r.cost ≤ r.cost) (hs : s.cost ≤ s.cost)
    (ordered : (r.byCost s).isLE) (apart : r.edges ≠ s.edges) :
    r.cost < s.cost ∨ (r.cost == s.cost) = true ∧ r.edges < s.edges := by
  have names : compare r.edges s.edges ≠ .eq := fun same => apart (Std.compare_eq_iff_eq.mp same)
  refine (Scalar.order_then_isLE hr hs ordered names).imp_right ?_
  exact fun ⟨same, name⟩ => ⟨same, compare_names_eq_lt.mp name⟩

/-- What a list of all simple paths is to be: each one once, by its edges, in order of the costs
and then of the names of the edges. -/
structure ListsPaths (n : Network K) (start goal : String) (maxEdges : Nat)
    (routes : List (Route K)) : Prop where
  complete : ∀ ids, ids ∈ routes.map (·.edges) ↔
    ∃ as, n.SimpleWalk start goal maxEdges as ∧ as.map (·.edge.id) = ids
  once : (routes.map (·.edges)).Nodup
  along : ∀ r ∈ routes, ∃ as, n.SimpleWalk start goal maxEdges as ∧
    r.edges = as.map (·.edge.id) ∧ r.nodes = visited start as ∧
    r.cost = Scalar.sum (as.map (·.edge.cost))
  ordered : routes.Pairwise fun r s =>
    r.cost < s.cost ∨ (r.cost == s.cost) = true ∧ r.edges < s.edges

theorem SimpleWalk.number_cost (finite : n.FiniteCosts) {as : List (Arc K)}
    (path : n.SimpleWalk start goal maxEdges as) :
    Scalar.sum (as.map (·.edge.cost)) ≤ Scalar.sum (as.map (·.edge.cost)) := by
  apply Scalar.sum_number
  intro c hc
  obtain ⟨a, ha, rfl⟩ := List.mem_map.mp hc
  exact finite _ (path.walk.edge_mem a ha)

variable [Geodesy K]

theorem listsPaths_sort (consistent : n.Consistent) (finite : n.FiniteCosts)
    {found : List (List String)} (once : found.Nodup)
    (complete : ∀ ids, ids ∈ found ↔
      ∃ as, n.SimpleWalk start goal maxEdges as ∧ as.map (·.edge.id) = ids) :
    n.ListsPaths start goal maxEdges (Order.sort Route.byCost (found.map (n.route start))) := by
  have perm := Order.sort_perm Route.byCost (found.map (n.route start))
  have edges := n.edges_sort_perm start found
  have along : ∀ r ∈ Order.sort Route.byCost (found.map (n.route start)), ∃ as,
      n.SimpleWalk start goal maxEdges as ∧ r.edges = as.map (·.edge.id) ∧
        r.nodes = visited start as ∧ r.cost = Scalar.sum (as.map (·.edge.cost)) := by
    intro r hr
    obtain ⟨ids, here, rfl⟩ := List.mem_map.mp (perm.mem_iff.mp hr)
    obtain ⟨as, path, rfl⟩ := (complete ids).mp here
    exact ⟨as, path, rfl, path.route consistent⟩
  have number : ∀ r ∈ Order.sort Route.byCost (found.map (n.route start)), r.cost ≤ r.cost := by
    intro r hr
    obtain ⟨as, path, -, -, cost⟩ := along r hr
    rw [cost]
    exact path.number_cost finite
  have distinct := edges.nodup_iff.mpr once
  refine ⟨fun ids => edges.mem_iff.trans (complete ids), distinct, along, ?_⟩
  have sorted := Route.byCost_transOn.sort_pairwise fun r hr => number r (perm.mem_iff.mpr hr)
  refine (sorted.and (List.pairwise_map.mp distinct)).imp_of_mem ?_
  intro r s hr hs both
  exact Route.before_of_byCost (number r hr) (number s hs) both.1 both.2

/-- Between known nodes, all paths without repeated nodes are listed, and the search for them takes
its last step with no trail left. -/
theorem allPaths_lists_simple (built : n.Built) (hs : n.hasNode start) (hg : n.hasNode goal)
    (maxEdges : Nat) :
    ∃ routes, n.allPaths start goal maxEdges = .ok routes ∧
      n.ListsPaths start goal maxEdges routes ∧
      ∃ rounds, ((PathSearch.step n goal maxEdges)^[rounds] (.start start)).waiting = [] ∧
        ((PathSearch.step n goal maxEdges)^[rounds] (.start start)).found.Perm
          (routes.map (·.edges)) := by
  obtain ⟨rounds, empty, found⟩ := PathSearch.exists_rounds n goal maxEdges (.start start)
  have once : ((PathSearch.start start).run n goal maxEdges).Nodup := by
    rw [PathSearch.run_start]
    exact Trail.nodup_completions built.consistent maxEdges _
  refine ⟨_, allPaths_eq_ok hs hg, listsPaths_sort built.consistent built.finite once ?_,
    rounds, empty, ?_⟩
  · exact fun ids => mem_run_start built.consistent
  · rw [found]
    exact (n.edges_sort_perm start _).symm

end Routes

/-- Two edges side by side, one that leads back to its source, and a one-way edge. -/
def twins : Network Float := (empty .euclidean).run [
  .addNode "a" ⟨0, 0, none⟩, .addNode "b" ⟨1, 0, none⟩, .addNode "c" ⟨2, 0, none⟩,
  .addEdge ⟨"low", "a", "b", 1, none, true⟩, .addEdge ⟨"high", "a", "b", 2, none, true⟩,
  .addEdge ⟨"loop", "b", "b", 1, none, true⟩, .addEdge ⟨"on", "b", "c", 1, none, false⟩]

theorem edges_twins : twins.edges = [⟨"low", "a", "b", 1, none, true⟩,
    ⟨"high", "a", "b", 2, none, true⟩, ⟨"loop", "b", "b", 1, none, true⟩,
    ⟨"on", "b", "c", 1, none, false⟩] := rfl

/-- Each of the two edges side by side gives a path of its own. -/
theorem allPaths_lists_simple_twins : twins.Built ∧ twins.hasNode "a" ∧ twins.hasNode "c" ∧
    ∃ routes, twins.allPaths "a" "c" 2 = .ok routes ∧ twins.ListsPaths "a" "c" 2 routes ∧
      ["low", "on"] ∈ routes.map (·.edges) ∧ ["high", "on"] ∈ routes.map (·.edges) := by
  have built : twins.Built := ⟨.euclidean, _, rfl⟩
  have first : twins.hasNode "a" := rfl
  have last : twins.hasNode "c" := rfl
  obtain ⟨routes, listed, lists, -⟩ := allPaths_lists_simple built first last 2
  have beside (e : Edge Float) (here : e ∈ twins.edges) (joins : e.Joins "a" "b") :
      [e.id, "on"] ∈ routes.map (·.edges) := by
    have on : twins.Walk "b" [⟨⟨"on", "b", "c", 1, none, false⟩, "c"⟩] "c" :=
      .single (by simp [edges_twins]) (.inl ⟨rfl, rfl⟩)
    have simple : ["a", "b", "c"].Nodup := by decide
    have path : twins.SimpleWalk "a" "c" 2
        [⟨e, "b"⟩, ⟨⟨"on", "b", "c", 1, none, false⟩, "c"⟩] :=
      ⟨.step here joins on, simple, Nat.le_refl 2⟩
    exact (lists.complete _).mpr ⟨_, path, rfl⟩
  refine ⟨built, first, last, routes, listed, lists, ?_, ?_⟩
  · exact beside ⟨"low", "a", "b", 1, none, true⟩ (by simp [edges_twins]) (.inl ⟨rfl, rfl⟩)
  · exact beside ⟨"high", "a", "b", 2, none, true⟩ (by simp [edges_twins]) (.inl ⟨rfl, rfl⟩)

end Geospatial.Network
