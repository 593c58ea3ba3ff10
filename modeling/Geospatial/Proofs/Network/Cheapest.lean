import Mathlib.Analysis.Complex.Norm
import Geospatial.Proofs.Scalar.Real
import Geospatial.Proofs.Network.Answer
import Geospatial.Proofs.Network.BestFirst

/-! Cheapest routes by best-first search, by costs alone and with a straight-line estimate. The
estimate counts distance at the least rate of any edge, so no edge lowers it by more than its
cost, whichever way it is taken. -/
namespace Geospatial.Network

variable {K : Type} [Exact K] {n : Network K} {start goal : String}

theorem requireCosts_eq_ok (costs : ∀ e ∈ n.edges, 0 ≤ e.cost) (search : RouteSearch) :
    n.requireCosts search = .ok () := by
  have sane : n.edges.find? (fun e => e.cost < 0) = none := by simpa using costs
  simp only [requireCosts, sane]

theorem requireCosts_eq_error (negative : ∃ e ∈ n.edges, e.cost < 0) (search : RouteSearch) :
    ∃ e : Edge K,
      n.requireCosts search = .error (.topology (.negativeCost search e.cost e.id)) := by
  cases found : n.edges.find? (fun e => e.cost < 0) with
  | none =>
    obtain ⟨e, here, less⟩ := negative
    exact absurd less (by simpa using List.find?_eq_none.mp found e here)
  | some e => exact ⟨e, by simp only [requireCosts, found]⟩

variable [Geodesy K]

theorem answers_bestFirst (consistent : n.Consistent) (costs : ∀ e ∈ n.edges, 0 ≤ e.cost)
    {estimate : String → K} (feasible : n.Feasible estimate) (start goal : String) :
    n.Answers start goal
      (n.routeTo? (n.bestFirst start (some goal) none estimate) start goal) := by
  have explored := bestFirst_explored consistent costs feasible start (some goal) (admits_none 0)
  apply explored.sound.answers consistent
  intro as walk
  exact explored.least goal (fun t ht => (Option.mem_some_iff.mp ht).symm) as walk (admits_none _)

theorem dijkstra_eq_ok (consistent : n.Consistent) (costs : ∀ e ∈ n.edges, 0 ≤ e.cost)
    (hs : n.hasNode start) (hg : n.hasNode goal) :
    ∃ r?, n.dijkstra start goal = .ok r? ∧ n.Answers start goal r? := by
  obtain ⟨_, _, first⟩ := requireNode_eq_ok hs
  obtain ⟨_, _, last⟩ := requireNode_eq_ok hg
  refine ⟨_, ?_, answers_bestFirst consistent costs (feasible_zero costs) start goal⟩
  rw [dijkstra, first, last, requireCosts_eq_ok costs]
  rfl

/-- Nodes that are not there are refused first and negative costs next; everything else has an
answer. -/
theorem dijkstra_finds_cheapest (built : n.Built) (start goal : String) :
    (¬n.hasNode start ∨ ¬n.hasNode goal → Fails (n.dijkstra start goal) .invalidInput) ∧
      (n.hasNode start → n.hasNode goal →
        ((∃ e ∈ n.edges, e.cost < 0) → Fails (n.dijkstra start goal) .topology) ∧
        ((∀ e ∈ n.edges, 0 ≤ e.cost) →
          ∃ r?, n.dijkstra start goal = .ok r? ∧ n.Answers start goal r?)) := by
  refine ⟨?_, fun hs hg => ⟨?_, fun costs => dijkstra_eq_ok built.consistent costs hs hg⟩⟩
  · intro unknown
    by_cases hs : n.hasNode start
    · obtain ⟨_, _, first⟩ := requireNode_eq_ok hs
      have last := requireNode_eq_error (unknown.resolve_left (not_not.mpr hs))
      exact ⟨.input (.unknownNode goal), by rw [dijkstra, first, last]; rfl, rfl⟩
    · exact ⟨.input (.unknownNode start), by rw [dijkstra, requireNode_eq_error hs]; rfl, rfl⟩
  · intro negative
    obtain ⟨_, _, first⟩ := requireNode_eq_ok hs
    obtain ⟨_, _, last⟩ := requireNode_eq_ok hg
    obtain ⟨e, refused⟩ := requireCosts_eq_error negative .dijkstra
    exact ⟨_, by rw [dijkstra, first, last, refused]; rfl, rfl⟩

/-- Two streets that meet at a corner, and a dearer way across. -/
noncomputable def corner : Network ℝ := (empty .euclidean).run [
  .addNode "a" ⟨0, 0, none⟩, .addNode "b" ⟨3, 0, none⟩, .addNode "c" ⟨3, 4, none⟩,
  .addEdge ⟨"ab", "a", "b", 3, none, true⟩, .addEdge ⟨"bc", "b", "c", 4, none, false⟩,
  .addEdge ⟨"ac", "a", "c", 9, none, true⟩]

theorem built_corner : corner.Built := ⟨.euclidean, _, rfl⟩

theorem edges_corner : corner.edges = [⟨"ab", "a", "b", 3, none, true⟩,
    ⟨"bc", "b", "c", 4, none, false⟩, ⟨"ac", "a", "c", 9, none, true⟩] := rfl

theorem costs_corner : ∀ e ∈ corner.edges, 0 ≤ e.cost := by
  simp [edges_corner]

/-- The route goes round the corner. -/
theorem dijkstra_finds_cheapest_corner : corner.Built ∧
    ∃ r, corner.dijkstra "a" "c" = .ok (some r) ∧ corner.IsRoute "a" "c" r ∧ r.cost ≤ 7 := by
  obtain ⟨r?, found, answer⟩ :=
    ((dijkstra_finds_cheapest built_corner "a" "c").2 rfl rfl).2 costs_corner
  have round : corner.Walk "a" [⟨⟨"ab", "a", "b", 3, none, true⟩, "b"⟩,
      ⟨⟨"bc", "b", "c", 4, none, false⟩, "c"⟩] "c" :=
    .step (by simp [edges_corner]) (Or.inl ⟨rfl, rfl⟩)
      (.step (by simp [edges_corner]) (Or.inl ⟨rfl, rfl⟩) (.stay "c"))
  obtain ⟨r, rfl⟩ := Option.isSome_iff_exists.mp (answer.reaches.mpr ⟨_, round⟩)
  refine ⟨built_corner, r, found, answer.route r rfl, ?_⟩
  have cost := answer.cheapest r rfl _ round
  norm_num at cost
  exact cost

/-- The laws of a metric that the estimate rests on. Nothing is asked of places that coincide. -/
structure MetricOnNodes (n : Network K) : Prop where
  nonneg : ∀ v ∈ n.nodes, ∀ w ∈ n.nodes, 0 ≤ n.distance v.position w.position
  symm : ∀ v ∈ n.nodes, ∀ w ∈ n.nodes,
    n.distance v.position w.position = n.distance w.position v.position
  triangle : ∀ u ∈ n.nodes, ∀ v ∈ n.nodes, ∀ w ∈ n.nodes, n.distance u.position w.position ≤
    n.distance u.position v.position + n.distance v.position w.position

theorem leastRate_nonneg (n : Network K) : 0 ≤ n.leastRate := by
  unfold leastRate
  simp only
  split
  · exact le_rfl
  · split
    · exact Scalar.le_max_right le_rfl
    · exact le_rfl

theorem leastRate_le (costs : ∀ e ∈ n.edges, 0 ≤ e.cost) {e : Edge K} (here : e ∈ n.edges)
    {v w : Node K} (source : n.node? e.source = some v) (target : n.node? e.target = some w)
    (apart : 0 < n.distance v.position w.position) :
    n.leastRate ≤ e.cost / n.distance v.position w.position := by
  have positive := div_nonneg (costs e here) apart.le
  unfold leastRate
  simp only
  split
  · exact positive
  · split
    · refine Scalar.max_le (Exact.least_le ?_) positive
      exact List.mem_filterMap.mpr ⟨e, here, by simp [source, target, apart]⟩
    · exact positive

/-- At the least rate, no edge is longer than it costs. -/
theorem leastRate_mul_le (consistent : n.Consistent) (costs : ∀ e ∈ n.edges, 0 ≤ e.cost)
    (laws : n.MetricOnNodes) {e : Edge K} (here : e ∈ n.edges) {v w : Node K} (hv : v ∈ n.nodes)
    (hw : w ∈ n.nodes) (joins : e.Joins v.id w.id) :
    n.leastRate * n.distance v.position w.position ≤ e.cost := by
  have forward {v w : Node K} (hv : v ∈ n.nodes) (hw : w ∈ n.nodes) (source : e.source = v.id)
      (target : e.target = w.id) : n.leastRate * n.distance v.position w.position ≤ e.cost := by
    rcases (laws.nonneg v hv w hw).eq_or_lt with level | apart
    · rw [← level, mul_zero]
      exact costs e here
    · have found := consistent.node?_eq_some.mpr ⟨hv, source.symm⟩
      have found' := consistent.node?_eq_some.mpr ⟨hw, target.symm⟩
      exact (le_div_iff₀ apart).mp (leastRate_le costs here found found' apart)
  rcases joins with ⟨source, target⟩ | ⟨_, target, source⟩
  · exact forward hv hw source target
  · rw [laws.symm v hv w hw]
    exact forward hw hv source target

theorem straightLine_eq (consistent : n.Consistent) {rate : K} {v g : Node K}
    (here : v ∈ n.nodes) :
    n.straightLine rate g v.id = rate * n.distance v.position g.position := by
  rw [straightLine, consistent.node?_eq_some.mpr ⟨here, rfl⟩]

theorem feasible_straightLine (consistent : n.Consistent) (costs : ∀ e ∈ n.edges, 0 ≤ e.cost)
    (laws : n.MetricOnNodes) {g : Node K} (hg : g ∈ n.nodes) :
    n.Feasible (n.straightLine n.leastRate g) := by
  intro e here u v joins
  obtain ⟨p, hp, rfl⟩ := hasNode_iff.mp (consistent.hasNode_of_touches here joins.touches.1)
  obtain ⟨q, hq, rfl⟩ := hasNode_iff.mp (consistent.hasNode_of_touches here joins.touches.2)
  rw [straightLine_eq consistent hp, straightLine_eq consistent hq]
  calc
    n.leastRate * n.distance p.position g.position
      ≤ n.leastRate * (n.distance p.position q.position + n.distance q.position g.position) :=
        mul_le_mul_of_nonneg_left (laws.triangle p hp q hq g hg) n.leastRate_nonneg
    _ = n.leastRate * n.distance p.position q.position +
        n.leastRate * n.distance q.position g.position := mul_add ..
    _ ≤ e.cost + n.leastRate * n.distance q.position g.position := by
        gcongr
        exact leastRate_mul_le consistent costs laws here hp hq joins

theorem aStar_eq_ok (consistent : n.Consistent) (costs : ∀ e ∈ n.edges, 0 ≤ e.cost)
    (laws : n.MetricOnNodes) (hs : n.hasNode start) (hg : n.hasNode goal) :
    ∃ r?, n.aStar start goal = .ok r? ∧ n.Answers start goal r? := by
  obtain ⟨_, _, first⟩ := requireNode_eq_ok hs
  obtain ⟨g, found, last⟩ := requireNode_eq_ok hg
  have feasible := feasible_straightLine consistent costs laws (consistent.node?_eq_some.mp found).1
  refine ⟨_, ?_, answers_bestFirst consistent costs feasible start goal⟩
  rw [aStar, first, last, requireCosts_eq_ok costs]
  rfl

/-- Distances in the plane are those of complex numbers. -/
theorem metricOnNodes_euclidean {n : Network ℝ} (plane : n.metric = .euclidean) :
    n.MetricOnNodes := by
  have distance_eq (a b : Position ℝ) :
      n.distance a b = dist (⟨b.x, b.y⟩ : ℂ) ⟨a.x, a.y⟩ := by
    rw [distance, plane, dist_eq_norm, Complex.norm_eq_sqrt_sq_add_sq]
    rfl
  refine ⟨fun v _ w _ => ?_, fun v _ w _ => ?_, fun u _ v _ w _ => ?_⟩
  · rw [distance_eq]
    exact dist_nonneg
  · rw [distance_eq, distance_eq, dist_comm]
  · rw [distance_eq, distance_eq, distance_eq, add_comm]
    exact dist_triangle _ _ _

/-- An estimate that is never too high does not change what a cheapest route costs. -/
theorem aStar_agrees_dijkstra (built : n.Built) (costs : ∀ e ∈ n.edges, 0 ≤ e.cost)
    (laws : n.MetricOnNodes) (hs : n.hasNode start) (hg : n.hasNode goal) :
    ∃ a? d?, n.aStar start goal = .ok a? ∧ n.dijkstra start goal = .ok d? ∧
      a?.map (·.cost) = d?.map (·.cost) := by
  obtain ⟨a?, eqA, answerA⟩ := aStar_eq_ok built.consistent costs laws hs hg
  obtain ⟨d?, eqD, answerD⟩ := dijkstra_eq_ok built.consistent costs hs hg
  exact ⟨a?, d?, eqA, eqD, answerA.cost_unique answerD⟩

theorem aStar_agrees_dijkstra_corner : corner.Built ∧ corner.MetricOnNodes ∧
    ∃ a? d?, corner.aStar "a" "c" = .ok a? ∧ corner.dijkstra "a" "c" = .ok d? ∧
      a?.map (·.cost) = d?.map (·.cost) :=
  ⟨built_corner, metricOnNodes_euclidean rfl,
    aStar_agrees_dijkstra built_corner costs_corner (metricOnNodes_euclidean rfl) rfl rfl⟩

end Geospatial.Network
