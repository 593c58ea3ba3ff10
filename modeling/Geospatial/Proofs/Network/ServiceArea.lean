import Mathlib
import Geospatial.Proofs.Scalar.Order
import Geospatial.Proofs.Scalar.Double
import Geospatial.Proofs.Scalar.Real
import Geospatial.Proofs.Network.Cheapest

/-! The nodes within a cost. Best-first search without a target goes on until nothing waits, so that
of each node that the limit admits it has one label, with the least cost of any walk there. A limit
that is not finite admits every node in reach. -/
namespace Geospatial.Network

variable {K : Type}

/-- No node has two labels. -/
def Label.Distinct (labels : List (Label K)) : Prop := (labels.map (·.node)).Nodup

namespace Label

theorem map_node_set (l : Label K) (labels : List (Label K)) :
    (l.set labels).map (·.node) =
      if l.node ∈ labels.map (·.node) then labels.map (·.node)
      else labels.map (·.node) ++ [l.node] := by
  induction labels with
  | nil => rfl
  | cons old rest ih =>
    rw [set]
    by_cases same : old.node = l.node
    · simp [same]
    · have other : l.node ∈ (old :: rest).map (·.node) ↔ l.node ∈ rest.map (·.node) := by
        simp [Ne.symm same]
      rw [if_neg (by simpa using same), List.map_cons, ih]
      simp only [other]
      split <;> rfl

theorem Distinct.set {labels : List (Label K)} (distinct : Distinct labels) (l : Label K) :
    Distinct (l.set labels) := by
  rw [Distinct, map_node_set]
  split
  · exact distinct
  · rename_i new
    exact List.nodup_append_comm.mp (List.nodup_cons.mpr ⟨new, distinct⟩)

theorem Distinct.find?_eq_some {labels : List (Label K)} (distinct : Distinct labels) {v : String}
    {l : Label K} : find? labels v = some l ↔ l ∈ labels ∧ l.node = v :=
  find?_eq_some_iff_of_nodup distinct

end Label

section Distinct

variable [Scalar K] {estimate : String → K} {x : Exploration estimate}

theorem distinct_sight (limit : Option K) (origin : Label K) (a : Arc K)
    (distinct : Label.Distinct x.labels) : Label.Distinct (x.sight limit origin a).labels := by
  unfold Exploration.sight
  dsimp only
  split
  · exact distinct
  · exact distinct.set _

theorem distinct_sightAll (limit : Option K) (origin : Label K) (as : List (Arc K))
    (distinct : Label.Distinct x.labels) :
    Label.Distinct (as.foldl (Exploration.sight limit origin) x).labels := by
  induction as generalizing x with
  | nil => exact distinct
  | cons a as ih => exact ih (distinct_sight limit origin a distinct)

theorem distinct_run (n : Network K) (target : Option String) (limit : Option K) (rounds : Nat)
    (distinct : Label.Distinct x.labels) :
    Label.Distinct (x.run n target limit rounds).labels := by
  induction rounds generalizing x with
  | zero => exact distinct
  | succ rounds ih =>
    rw [Exploration.run]
    split
    · exact distinct
    · split
      · exact ih distinct
      · dsimp only
        split
        · exact distinct
        · exact ih (distinct_sightAll limit _ _ distinct)

theorem distinct_bestFirst (n : Network K) (start : String) (target : Option String)
    (limit : Option K) (estimate : String → K) :
    Label.Distinct (n.bestFirst start target limit estimate) :=
  distinct_run n target limit _ (List.nodup_singleton start)

end Distinct

/-- A limit that is not a number or is negative, at a node that is known or not. -/
theorem serviceArea_refuses [Scalar K] [Scalar.LawfulOrder K] (n : Network K) (start : String)
    {limit : K} (senseless : Scalar.isNaN limit = true ∨ limit < 0) :
    Fails (n.serviceArea start limit) .invalidInput := by
  have below : ¬(0 ≤ limit) := by
    intro nonneg
    rcases senseless with missing | negative
    · exact Scalar.not_le_of_isNaN missing (Scalar.le_right nonneg)
    · exact (Scalar.lt_iff.mp negative).2 nonneg
  by_cases known : n.hasNode start
  · obtain ⟨_, _, found⟩ := requireNode_eq_ok known
    refine ⟨.input (.serviceLimit limit), ?_, rfl⟩
    rw [serviceArea, found]
    simp only [below]
    rfl
  · refine ⟨.input (.unknownNode start), ?_, rfl⟩
    rw [serviceArea, requireNode_eq_error known]
    rfl

variable [Exact K] {n : Network K} {start : String}

/-- The cost of a cheapest walk. -/
def LeastCost (n : Network K) (start v : String) (cost : K) : Prop :=
  IsLeast {c | ∃ as, n.Walk start as v ∧ costOf as = c} cost

/-- The nodes with their costs. -/
def Label.costs (labels : List (Label K)) : List (String × K) :=
  labels.map fun l => (l.node, l.cost)

/-- The labels are the least costs that the limit admits. -/
theorem Explored.mem_costs {limit : Option K} {labels : List (Label K)}
    (explored : n.Explored start none limit labels) (distinct : Label.Distinct labels) {v : String}
    {c : K} : (v, c) ∈ Label.costs labels ↔ n.LeastCost start v c ∧ Admits limit c := by
  constructor
  · intro here
    obtain ⟨l, among, same⟩ := List.mem_map.mp here
    obtain ⟨rfl, rfl⟩ := Prod.mk.inj same
    have found := distinct.find?_eq_some.mpr ⟨among, rfl⟩
    have admitted := explored.admitted _ l found
    refine ⟨⟨explored.sound.attained _ l found, ?_⟩, admitted⟩
    rintro _ ⟨as, walk, rfl⟩
    by_cases within : Admits limit (costOf as)
    · exact (Label.within_iff found).mp (explored.least _ nofun as walk within)
    · -- A walk beyond the limit costs more than any label.
      simp only [Admits, not_forall, not_le] at within
      obtain ⟨m, hm, beyond⟩ := within
      exact (admitted m hm).trans beyond.le
  · rintro ⟨least, admitted⟩
    obtain ⟨as, walk, rfl⟩ := least.1
    obtain ⟨l, found, le⟩ := explored.least v nofun as walk admitted
    obtain ⟨among, rfl⟩ := distinct.find?_eq_some.mp found
    have same : l.cost = costOf as := le_antisymm le (least.2 (explored.sound.attained _ l found))
    exact List.mem_map.mpr ⟨l, among, by rw [same]⟩

/-- A limit that is not finite is none. -/
def bounded (limit : K) : Option K := if Scalar.isFinite limit then some limit else none

section Limit

variable [Scalar.LawfulFinite K]

theorem isFinite_costOf (finite : n.FiniteCosts) {u v : String} {as : List (Arc K)}
    (walk : n.Walk u as v) : Scalar.isFinite (costOf as) = true := by
  induction walk with
  | stay v => exact Scalar.LawfulFinite.finite_zero
  | step here _ _ ih =>
    rw [costOf_cons]
    exact Scalar.LawfulFinite.finite_add (finite _ here) ih

/-- Costs are finite, so that a limit that is not finite need not be looked at. -/
theorem LeastCost.admits_iff (finite : n.FiniteCosts) {v : String} {c limit : K}
    (least : n.LeastCost start v c) (nonneg : 0 ≤ limit) : Admits (bounded limit) c ↔ c ≤ limit := by
  unfold bounded
  split
  · simp [Admits]
  · rename_i infinite
    obtain ⟨as, walk, rfl⟩ := least.1
    have le := Scalar.LawfulFinite.le_of_infinite (isFinite_costOf finite walk)
      (Bool.eq_false_iff.mpr infinite) nonneg
    exact ⟨fun _ => le, fun _ => admits_none _⟩

end Limit

/-- By cost, then by name. -/
def byCost (a b : String × K) : Ordering := (Scalar.order a.2 b.2).then (compare a.1 b.1)

theorem byCost_transOn : Order.TransOn (byCost (K := K)) fun _ => True :=
  (Scalar.order_transOn.on Prod.snd fun _ _ => le_rfl).lex
    ((Order.TransOn.of_transCmp fun _ => True).on Prod.fst fun _ _ => trivial)

theorem before_of_byCost {a b : String × K} (ordered : (byCost a b).isLE) (apart : a.1 ≠ b.1) :
    a.2 < b.2 ∨ a.2 = b.2 ∧ a.1 < b.1 := by
  have names : compare a.1 b.1 ≠ .eq := fun same => apart (Std.compare_eq_iff_eq.mp same)
  refine (Scalar.order_then_isLE le_rfl le_rfl ordered names).imp_right ?_
  exact fun ⟨same, name⟩ => ⟨(Exact.beq_iff_eq _ _).mp same, compareOfLessAndEq_eq_lt.mp name⟩

/-- What a service area is to list. -/
structure ListsWithin (n : Network K) (start : String) (limit : K) (nodes : List (String × K)) :
    Prop where
  complete : ∀ v c, (v, c) ∈ nodes ↔ n.LeastCost start v c ∧ c ≤ limit
  once : (nodes.map (·.1)).Nodup
  ordered : nodes.Pairwise fun a b => a.2 < b.2 ∨ a.2 = b.2 ∧ a.1 < b.1

theorem serviceArea_eq_ok (known : n.hasNode start) (costs : ∀ e ∈ n.edges, 0 ≤ e.cost) {limit : K}
    (nonneg : 0 ≤ limit) : ∃ area, n.serviceArea start limit = .ok area ∧ area.nodes =
      Order.sort byCost (Label.costs (n.bestFirst start none (bounded limit) fun _ => 0)) := by
  obtain ⟨_, _, found⟩ := requireNode_eq_ok known
  rw [serviceArea, found, requireCosts_eq_ok costs]
  simp only [nonneg]
  exact ⟨_, rfl, rfl⟩

theorem listsWithin_sort [Scalar.LawfulFinite K] (finite : n.FiniteCosts) {limit : K}
    (nonneg : 0 ≤ limit) {labels : List (Label K)}
    (explored : n.Explored start none (bounded limit) labels) (distinct : Label.Distinct labels) :
    n.ListsWithin start limit (Order.sort byCost (Label.costs labels)) := by
  have perm := Order.sort_perm byCost (Label.costs labels)
  have once : ((Order.sort byCost (Label.costs labels)).map (·.1)).Nodup := by
    rw [(perm.map _).nodup_iff, Label.costs, List.map_map]
    exact distinct
  refine ⟨?_, once, ?_⟩
  · intro v c
    rw [perm.mem_iff, explored.mem_costs distinct]
    exact and_congr_right fun least => least.admits_iff finite nonneg
  · have all : ∀ a ∈ Label.costs labels, True := fun _ _ => trivial
    have sorted := byCost_transOn.sort_pairwise all
    exact (sorted.and (List.pairwise_map.mp once)).imp fun both => before_of_byCost both.1 both.2

/-- A limit that is a number and not negative, infinite or not, has the nodes within it listed with
their least costs. Any other limit is refused, on doubles as well, whatever the edges cost. -/
theorem serviceArea_lists_within [Scalar.LawfulFinite K] (built : n.Built) (known : n.hasNode start)
    (costs : ∀ e ∈ n.edges, 0 ≤ e.cost) :
    (∀ limit : K, 0 ≤ limit →
      ∃ area, n.serviceArea start limit = .ok area ∧ n.ListsWithin start limit area.nodes) ∧
    ∀ {S : Type} [Scalar S] [Scalar.LawfulOrder S] (m : Network S) (place : String) (limit : S),
      Scalar.isNaN limit = true ∨ limit < 0 → Fails (m.serviceArea place limit) .invalidInput := by
  refine ⟨?_, fun m place limit => m.serviceArea_refuses place⟩
  intro limit nonneg
  obtain ⟨area, listed, nodes⟩ := serviceArea_eq_ok known costs nonneg
  have admits : Admits (bounded limit) 0 := by
    unfold bounded
    split
    · exact fun m hm => (Option.mem_some_iff.mp hm) ▸ nonneg
    · exact admits_none 0
  have explored := bestFirst_explored built.consistent costs (feasible_zero costs) start none admits
  refine ⟨area, listed, ?_⟩
  rw [nodes]
  exact listsWithin_sort built.finite nonneg explored (distinct_bestFirst ..)

/-- One edge, in an arithmetic that has infinite values. -/
noncomputable def lane : Network Hyperreal := (empty .euclidean).run [
  .addNode "a" ⟨0, 0, none⟩, .addNode "b" ⟨1, 0, none⟩,
  .addEdge ⟨"ab", "a", "b", 1, none, true⟩]

theorem lane_eq : lane = {
    nodes := [⟨"a", ⟨0, 0, none⟩⟩, ⟨"b", ⟨1, 0, none⟩⟩]
    edges := [⟨"ab", "a", "b", 1, none, true⟩]
    adjacency := [⟨"a", ["ab"]⟩, ⟨"b", ["ab"]⟩]
    metric := .euclidean } := by
  have finite : Scalar.isFinite (1 : Hyperreal) = true := Hyperreal.isFinite_iff.mpr (by simp)
  exact perform_addEdge_of_ok (addEdge_eq_ok.mpr ⟨⟨rfl, rfl, finite⟩, rfl⟩)

theorem edges_lane : lane.edges = [⟨"ab", "a", "b", 1, none, true⟩] := by rw [lane_eq]

theorem costs_lane : ∀ e ∈ lane.edges, 0 ≤ e.cost := by
  simp [edges_lane]

theorem leastCost_lane : lane.LeastCost "a" "b" 1 := by
  constructor
  · refine ⟨[⟨⟨"ab", "a", "b", 1, none, true⟩, "b"⟩], ?_, by simp⟩
    exact .single (by simp [edges_lane]) (.inl ⟨rfl, rfl⟩)
  · rintro _ ⟨as, walk, rfl⟩
    have feasible : lane.Feasible fun v => if v = "a" then 1 else 0 := by
      intro e here u v _
      rw [edges_lane, List.mem_singleton] at here
      rw [here]
      dsimp only
      split_ifs <;> simp
    simpa using feasible.le_costOf walk

/-- An infinite limit reaches the end of the lane, and a limit of zero does not. -/
theorem serviceArea_lists_within_lane :
    lane.Built ∧ lane.hasNode "a" ∧ Scalar.isFinite Hyperreal.omega = false ∧
      (∃ area, lane.serviceArea "a" Hyperreal.omega = .ok area ∧ ("b", 1) ∈ area.nodes) ∧
      (∃ area, lane.serviceArea "a" 0 = .ok area ∧ ("b", 1) ∉ area.nodes) ∧
      Fails (lane.serviceArea "a" (-1)) .invalidInput ∧
      Fails ((empty .euclidean : Network Float).serviceArea "a" (0 / 0)) .invalidInput := by
  have built : lane.Built := ⟨.euclidean, _, rfl⟩
  have known : lane.hasNode "a" := by rw [lane_eq]; rfl
  obtain ⟨lists, refuses⟩ := serviceArea_lists_within built known costs_lane
  obtain ⟨wide, found, all⟩ := lists Hyperreal.omega Hyperreal.omega_pos.le
  obtain ⟨narrow, found', near⟩ := lists 0 le_rfl
  refine ⟨built, known, Hyperreal.isFinite_omega, ⟨wide, found, ?_⟩, ⟨narrow, found', ?_⟩, ?_, ?_⟩
  · exact (all.complete "b" 1).mpr ⟨leastCost_lane, (Hyperreal.coe_lt_omega 1).le⟩
  · exact fun here => absurd ((near.complete "b" 1).mp here).2 (by simp)
  · exact refuses lane "a" (-1) (.inr (by simp))
  · exact refuses _ "a" _ (.inl (by decide +kernel))

end Geospatial.Network
