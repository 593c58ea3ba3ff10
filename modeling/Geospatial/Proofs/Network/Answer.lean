import Geospatial.Proofs.Network.Labels

/-! What a search for a route answers: a route exactly where there is a walk, along edges in
permitted directions and without repeated nodes, and no dearer than any walk. Sound labels give
such an answer when the label of the goal is as cheap as every walk there. -/
namespace Geospatial.Network

variable {K : Type} {n : Network K}

/-- Reading the direction off the current node leads to the node that the edge was taken to. -/
theorem next_passage {e : Edge K} {u v : String} (joins : e.Joins u v) :
    (n.passage u e).next = v := by
  have leads := Edge.leadsTo?_eq_some.mpr joins
  unfold Edge.leadsTo? at leads
  unfold passage
  split at leads
  · rename_i forward
    simpa [forward] using leads
  · rename_i backward
    simp only [Option.ite_none_right_eq_some, Option.some.injEq] at leads
    simpa [backward] using leads.2

theorem edge_passage (u : String) (e : Edge K) : (n.passage u e).edge = e := by
  unfold passage
  split <;> rfl

/-- The passages along a walk take its edges to its nodes. -/
theorem passages_walk (consistent : n.Consistent) {u v : String} {as : List (Arc K)}
    (walk : n.Walk u as v) :
    (n.passages u (as.map (·.edge.id))).map (·.next) = as.map (·.head) ∧
      (n.passages u (as.map (·.edge.id))).map (·.edge.cost) = as.map (·.edge.cost) := by
  induction walk with
  | stay v => exact ⟨rfl, rfl⟩
  | @step a u v as here joins walk ih =>
    have found : n.edge? a.edge.id = some a.edge := consistent.edge?_eq_some.mpr ⟨here, rfl⟩
    simpa [passages, found, next_passage joins, edge_passage] using ih

/-- The outcome is a fault of the given kind. -/
def Fails {α : Type} (o : Outcome K α) (kind : FaultKind) : Prop :=
  ∃ f, o = .error f ∧ f.kind = kind

theorem requireNode_eq_ok {id : String} (known : n.hasNode id) :
    ∃ v, n.node? id = some v ∧ n.requireNode id = .ok v := by
  have found : (n.node? id).isSome := by simpa [node?, hasNode] using known
  obtain ⟨v, found⟩ := Option.isSome_iff_exists.mp found
  exact ⟨v, found, by rw [requireNode, found]⟩

theorem requireNode_eq_error {id : String} (unknown : ¬n.hasNode id) :
    n.requireNode id = .refuse (.unknownNode id) := by
  have missing : n.node? id = none := by simpa [node?, hasNode] using unknown
  rw [requireNode, missing]

variable [Exact K]

/-- A route along a walk that visits no node twice. -/
structure IsRoute (n : Network K) (start goal : String) (r : Route K) : Prop where
  starts : r.nodes.head? = some start
  ends : r.nodes.getLast? = some goal
  simple : r.nodes.Nodup
  walk : ∃ as, n.Walk start as goal ∧ r.nodes = visited start as ∧
    r.edges = as.map (·.edge.id) ∧ r.cost = costOf as

/-- A cheapest route where there is a walk, and no route elsewhere. -/
structure Answers (n : Network K) (start goal : String) (r? : Option (Route K)) : Prop where
  reaches : r?.isSome ↔ n.Reaches start goal
  route : ∀ r ∈ r?, n.IsRoute start goal r
  cheapest : ∀ r ∈ r?, ∀ as, n.Walk start as goal → r.cost ≤ costOf as

theorem IsRoute.cost_eq {start goal : String} {r : Route K}
    (route : n.IsRoute start goal r) : ∃ as, n.Walk start as goal ∧ r.cost = costOf as := by
  obtain ⟨as, walk, _, _, cost⟩ := route.walk
  exact ⟨as, walk, cost⟩

/-- Two answers differ only in the choice among routes of the same cost. -/
theorem Answers.cost_unique {start goal : String} {r? s? : Option (Route K)}
    (first : n.Answers start goal r?) (second : n.Answers start goal s?) :
    r?.map (·.cost) = s?.map (·.cost) := by
  have both := first.reaches.trans second.reaches.symm
  cases r? with
  | none =>
    cases s? with
    | none => rfl
    | some s => exact absurd (both.mpr rfl) nofun
  | some r =>
    cases s? with
    | none => exact absurd (both.mp rfl) nofun
    | some s =>
      obtain ⟨as, walk, costR⟩ := (first.route r rfl).cost_eq
      obtain ⟨bs, walk', costS⟩ := (second.route s rfl).cost_eq
      have same : r.cost = s.cost :=
        le_antisymm (costS ▸ first.cheapest r rfl bs walk') (costR ▸ second.cheapest s rfl as walk)
      rw [Option.map_some, Option.map_some, same]

variable [Geodesy K]

theorem isRoute_route {start goal : String} (consistent : n.Consistent) {as : List (Arc K)}
    (walk : n.Walk start as goal) (simple : (visited start as).Nodup) :
    n.IsRoute start goal (n.route start (as.map (·.edge.id))) := by
  obtain ⟨nodes, costs⟩ := passages_walk consistent walk
  have path : (n.route start (as.map (·.edge.id))).nodes = visited start as := by
    simp only [route, visited, nodes]
  refine ⟨rfl, ?_, ?_, as, walk, path, rfl, ?_⟩
  · rw [path, walk.getLast?_visited]
  · rw [path]
    exact simple
  · simp only [route, costs, costOf]

namespace Sound

variable {start goal : String} {labels : List (Label K)}

theorem isRoute_routeTo? (sound : n.Sound start labels) (consistent : n.Consistent) {l : Label K}
    (found : Label.find? labels goal = some l) :
    ∃ r, n.routeTo? labels start goal = some r ∧ n.IsRoute start goal r ∧ r.cost ≤ l.cost := by
  obtain ⟨as, trace⟩ := sound.traced goal l found
  have edges := trace.edgesTo? (trace.length_lt sound.origin).le
  have route := isRoute_route consistent trace.walk trace.simple
  refine ⟨n.route start (as.map (·.edge.id)), ?_, route, ?_⟩
  · rw [routeTo?, edges, Option.map_some]
  · have cost : (n.route start (as.map (·.edge.id))).cost = costOf as := by
      simp only [Network.route, (passages_walk consistent trace.walk).2, costOf]
    exact cost.trans_le (trace.costOf_le sound.origin found)

/-- A goal without a label is not the start, and nothing leads back from it. -/
theorem routeTo?_eq_none (sound : n.Sound start labels)
    (missing : Label.find? labels goal = none) : n.routeTo? labels start goal = none := by
  have apart : goal ≠ start := by
    rintro rfl
    rw [sound.origin] at missing
    exact absurd missing nofun
  unfold routeTo?
  cases labels.length <;> simp [Label.edgesTo?, apart, missing]

theorem answers (sound : n.Sound start labels) (consistent : n.Consistent)
    (least : ∀ as, n.Walk start as goal → Label.Within labels goal (costOf as)) :
    n.Answers start goal (n.routeTo? labels start goal) := by
  cases found : Label.find? labels goal with
  | none =>
    rw [sound.routeTo?_eq_none found]
    refine ⟨⟨nofun, ?_⟩, nofun, nofun⟩
    rintro ⟨as, walk⟩
    obtain ⟨l, known, _⟩ := least as walk
    rw [found] at known
    exact absurd known nofun
  | some l =>
    obtain ⟨r, answer, route, cost⟩ := sound.isRoute_routeTo? consistent found
    obtain ⟨as, walk, _⟩ := sound.attained goal l found
    rw [answer]
    refine ⟨⟨fun _ => ⟨as, walk⟩, fun _ => rfl⟩, ?_, ?_⟩
    · intro r' same
      obtain rfl := Option.mem_some_iff.mp same
      exact route
    · intro r' same bs walk'
      obtain rfl := Option.mem_some_iff.mp same
      exact cost.trans ((Label.within_iff found).mp (least bs walk'))

end Sound
end Geospatial.Network
