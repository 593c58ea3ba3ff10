import Mathlib.Algebra.BigOperators.Group.Finset.Piecewise
import Mathlib.Algebra.Order.BigOperators.Group.Finset
import Geospatial.Proofs.Clustering.Metric
import Geospatial.Proofs.Clustering
import Geospatial.Clustering.KMeans
import Geospatial.Proofs.Outcome
import Geospatial.Proofs.Scalar.Order
import Geospatial.Proofs.Scalar.Mean

/-! Clustering around centroids. Each round puts the points at their nearest centroids and then the
centroids at the means of their points. Neither makes the sum of the squared distances greater, as
the mean is the position with the least such sum. A round that changes no point leaves each point
at a nearest centroid and each centroid at the mean of its points. -/
namespace Geospatial.Clustering

variable {K : Type}

/-- The points that carry a label. -/
def membersAt (points : List (Position K)) (labels : List ℕ) (l : ℕ) : List (Position K) :=
  ((points.zip labels).filter fun q => q.2 == l).map (·.1)

theorem mem_of_mem_membersAt {points : List (Position K)} {labels : List ℕ} {l : ℕ}
    {p : Position K} (member : p ∈ membersAt points labels l) : p ∈ points := by
  obtain ⟨q, hq, rfl⟩ := List.mem_map.mp member
  exact (List.of_mem_zip (List.mem_filter.mp hq).1).1

theorem membersAt_cons (p : Position K) (ps : List (Position K)) (m : ℕ) (labels : List ℕ) (l : ℕ) :
    membersAt (p :: ps) (m :: labels) l =
      if m = l then p :: membersAt ps labels l else membersAt ps labels l := by
  by_cases same : m = l <;> simp [membersAt, same]

section Definition

variable [Exact K]

/-- The label of the first of the centroids that are nearest to a position. -/
def FirstNearest (distance : Position K → Position K → K) (centroids : List (Position K))
    (p : Position K) (l : ℕ) : Prop :=
  ∃ c, centroids[l]? = some c ∧ ∀ j e, centroids[j]? = some e →
    distance p c ≤ distance p e ∧ (j < l → distance p c < distance p e)

structure IsCenter (ps : List (Position K)) (c : Position K) : Prop where
  x : c.x = Exact.mean (ps.map (·.x))
  y : c.y = Exact.mean (ps.map (·.y))

/-- Every point has the label of its nearest centroid, the first of several. A centroid that has
points is in the middle of them. -/
structure Settled (distance : Position K → Position K → K) (points : List (Position K))
    (labels : List ℕ) (centroids : List (Position K)) : Prop where
  nearest {i : ℕ} {p : Position K} : points[i]? = some p →
    ∃ l, labels[i]? = some l ∧ FirstNearest distance centroids p l
  centered {l : ℕ} {c : Position K} : centroids[l]? = some c → membersAt points labels l ≠ [] →
    IsCenter (membersAt points labels l) c

theorem mean?_eq_some {ps : List (Position K)} {c : Position K}
    (found : Position.mean? ps = some c) : ps ≠ [] ∧ IsCenter ps c ∧ c.z = none := by
  unfold Position.mean? at found
  split at found
  · contradiction
  · rename_i filled
    obtain rfl := Option.some.inj found
    refine ⟨by simpa using filled, ⟨?_, ?_⟩, rfl⟩
    · rw [Exact.mean, ← Exact.sum_eq, List.length_map]
    · rw [Exact.mean, ← Exact.sum_eq, List.length_map]

theorem mean?_eq_none {ps : List (Position K)} : Position.mean? ps = none ↔ ps = [] := by
  unfold Position.mean?
  split
  · rename_i empty
    simpa using empty
  · rename_i filled
    simpa using filled

theorem IsCenter.isFinite [Scalar.ConvexFinite K] {ps : List (Position K)} {c : Position K}
    (center : IsCenter ps c) (flat : c.z = none) (filled : ps ≠ [])
    (finite : ∀ p ∈ ps, p.isFinite = true) : c.isFinite = true := by
  have coordinates : ∀ p ∈ ps, Scalar.isFinite p.x = true ∧ Scalar.isFinite p.y = true := by
    intro p hp
    have all := finite p hp
    simp only [Position.isFinite, Bool.and_eq_true] at all
    exact all.1
  have x := Exact.isFinite_mean (List.map_eq_nil_iff.not.mpr filled)
    (List.forall_mem_map.mpr fun p hp => (coordinates p hp).1)
  have y := Exact.isFinite_mean (List.map_eq_nil_iff.not.mpr filled)
    (List.forall_mem_map.mpr fun p hp => (coordinates p hp).2)
  simp only [Position.isFinite, center.x, center.y, flat, x, y]
  rfl

end Definition

section Nearest

variable {distance : Position K → Position K → K} {centroids : List (Position K)}
  {p : Position K}

/-- The distances of the centroids, with their labels. -/
def ranked (distance : Position K → Position K → K) (centroids : List (Position K))
    (p : Position K) : List (K × ℕ) :=
  centroids.zipIdx.map fun (c, i) => (distance p c, i)

theorem mem_ranked {r : K × ℕ} : r ∈ ranked distance centroids p ↔
    ∃ c, centroids[r.2]? = some c ∧ distance p c = r.1 := by
  simp only [ranked, List.mem_map, Prod.exists, List.mem_zipIdx_iff_getElem?, Prod.ext_iff]
  constructor
  · rintro ⟨c, l, here, level, rfl⟩
    exact ⟨c, here, level⟩
  · rintro ⟨c, here, level⟩
    exact ⟨c, r.2, here, level, rfl⟩

theorem ranked_pairwise (distance : Position K → Position K → K) (centroids : List (Position K))
    (p : Position K) : (ranked distance centroids p).Pairwise fun r r' => r.2 < r'.2 := by
  have labels : (centroids.zipIdx.map (·.2)).Pairwise (· < ·) := by
    rw [List.zipIdx_map_snd]
    exact List.pairwise_lt_range'
  exact List.pairwise_map.mpr (List.pairwise_map.mp labels)

variable [Exact K] (finite : ∀ c ∈ centroids, Scalar.isFinite (distance p c) = true)
include finite

/-- The nearest centroid is the first one of the least distances. -/
theorem firstNearest_nearestCentroid (filled : centroids ≠ []) :
    FirstNearest distance centroids p (nearestCentroid distance centroids p) := by
  have measured : (ranked distance centroids p).filter (fun r => Scalar.isFinite r.1) =
      ranked distance centroids p := by
    apply List.filter_eq_self.mpr
    intro r hr
    obtain ⟨c, here, level⟩ := mem_ranked.mp hr
    exact level ▸ finite c (List.mem_of_getElem? here)
  have ordered : Order.TransOn (Order.on (fun r : K × ℕ => r.1) Scalar.order) fun _ => True :=
    Scalar.key_transOn fun _ => le_rfl
  have chosen : nearestCentroid distance centroids p =
      ((Order.least? (Order.on (fun r : K × ℕ => r.1) Scalar.order)
        ((ranked distance centroids p).filter fun r => Scalar.isFinite r.1)).map (·.2)).getD 0 :=
    rfl
  rw [chosen, measured]
  cases found : Order.least? (Order.on (fun r : K × ℕ => r.1) Scalar.order)
      (ranked distance centroids p) with
  | none =>
    have empty := Order.least?_eq_none.mp found
    simp only [ranked, List.map_eq_nil_iff, List.zipIdx_eq_nil_iff] at empty
    exact absurd empty filled
  | some r =>
    obtain ⟨c, here, level⟩ := mem_ranked.mp (ordered.least?_isLE (fun _ _ => trivial) found).1
    refine ⟨c, here, fun j e there => ?_⟩
    rw [level]
    rcases ordered.least?_ahead (fun _ _ => trivial) (ranked_pairwise distance centroids p) found
      (distance p e, j) (mem_ranked.mpr ⟨e, there, rfl⟩) with less | ⟨atMost, same | behind⟩
    · have strict := Scalar.order_eq_lt.mp less
      exact ⟨strict.le, fun _ => strict⟩
    · subst same
      exact ⟨le_rfl, fun below => absurd below (lt_irrefl j)⟩
    · exact ⟨(Scalar.order_isLE le_rfl le_rfl).mp atMost, fun below => absurd behind below.not_gt⟩

theorem nearestCentroid_lt (filled : centroids ≠ []) :
    nearestCentroid distance centroids p < centroids.length := by
  obtain ⟨c, here, _⟩ := firstNearest_nearestCentroid finite filled
  exact (List.getElem?_eq_some_iff.mp here).1

end Nearest

section Rounds

variable [Exact K] (distance : Position K → Position K → K) (points : List (Position K))

/-- The label of the nearest centroid of each point. -/
def nearestLabels (centroids : List (Position K)) : List ℕ :=
  points.map (nearestCentroid distance centroids)

/-- What a round makes of its centroids, if it changes a label. -/
def round (a : Assignment K) : Assignment K :=
  ⟨recenter points (assign distance points a) a.centroids, assign distance points a⟩

/-- The labels that the points have at the end. -/
def finalLabels (a : Assignment K) : List ℕ :=
  (points.zip a.labels).map fun (p, l) => l.getD (nearestCentroid distance a.centroids p)

/-- Either no round was made, or the points are labelled by centroids in their middle. -/
structure Balanced (start : List (Position K)) (a : Assignment K) : Prop where
  count : a.centroids.length = start.length
  finite : ∀ c ∈ a.centroids, c.isFinite = true
  labels : a.labels = points.map (fun _ => none) ∨ ∃ labels : List ℕ, a.labels = labels.map some ∧
    labels.length = points.length ∧ (∀ l ∈ labels, l < a.centroids.length) ∧
    ∀ {l c}, a.centroids[l]? = some c → membersAt points labels l ≠ [] →
      IsCenter (membersAt points labels l) c

variable {distance points} {start : List (Position K)} {a : Assignment K}

theorem assign_eq :
    assign distance points a = (nearestLabels distance points a.centroids).map some := by
  simp [assign, nearestLabels]

theorem length_nearestLabels (centroids : List (Position K)) :
    (nearestLabels distance points centroids).length = points.length := List.length_map _

theorem getElem?_recenter (labels : List ℕ) (centroids : List (Position K)) (l : ℕ) :
    (recenter points (labels.map some) centroids)[l]? =
      centroids[l]?.map fun c => (Position.mean? (membersAt points labels l)).getD c := by
  simp only [recenter, List.getElem?_map, List.getElem?_zipIdx]
  cases centroids[l]? with
  | none => rfl
  | some c =>
    simp [membersAt, List.zip_map_right, List.filter_map, Function.comp_def]

theorem length_recenter (labels : List (Option ℕ)) (centroids : List (Position K)) :
    (recenter points labels centroids).length = centroids.length := by
  simp [recenter]

/-- A centroid stays where it is or moves to the middle of its points. -/
theorem recentered {labels : List ℕ} {centroids : List (Position K)} {l : ℕ} {c : Position K}
    (here : (recenter points (labels.map some) centroids)[l]? = some c) :
    (membersAt points labels l = [] ∧ centroids[l]? = some c) ∨
      (membersAt points labels l ≠ [] ∧ IsCenter (membersAt points labels l) c ∧ c.z = none) := by
  rw [getElem?_recenter] at here
  obtain ⟨old, there, moved⟩ := Option.map_eq_some_iff.mp here
  cases found : Position.mean? (membersAt points labels l) with
  | none =>
    rw [found] at moved
    obtain rfl : old = c := moved
    exact .inl ⟨mean?_eq_none.mp found, there⟩
  | some mean =>
    rw [found] at moved
    obtain rfl : mean = c := moved
    exact .inr (mean?_eq_some found)

theorem Balanced.initial (finite : ∀ c ∈ start, c.isFinite = true) :
    Balanced points start ⟨start, points.map fun _ => none⟩ where
  count := rfl
  finite := finite
  labels := .inl rfl

theorem Balanced.filled (balanced : Balanced points start a) (filled : start ≠ []) :
    a.centroids ≠ [] := by
  rw [← List.length_pos_iff, balanced.count]
  exact List.length_pos_iff.mpr filled

/-- One more round changes nothing where the points have their labels already. -/
theorem settle_succ {s : Signal} (quiet : s ≠ .triggered) {rounds : ℕ} {b : Assignment K}
    {converged : Bool} (run : settle distance s points rounds a = .ok (b, converged)) :
    settle distance s points (rounds + 1) a =
      .ok (if assign distance points b = b.labels then (b, true)
        else (round distance points b, false)) := by
  -- Both runs begin with the same round, so the assignment they begin with is left general.
  induction rounds generalizing a with
  | zero =>
    obtain ⟨rfl, _⟩ := Prod.mk.inj (Except.ok.inj run)
    simp only [settle, Signal.check_eq_ok quiet]
    split <;> rfl
  | succ rounds ih =>
    simp only [settle, Signal.check_eq_ok quiet] at run
    rw [settle]
    simp only [Signal.check_eq_ok quiet]
    by_cases same : assign distance points a = a.labels
    · rw [if_pos same] at run ⊢
      obtain ⟨rfl, _⟩ := Prod.mk.inj (Except.ok.inj run)
      rw [if_pos same]
      rfl
    · rw [if_neg same] at run ⊢
      exact ih run

theorem center_of_settle {s : Signal} {rounds : ℕ} {b : Assignment K × Bool}
    (run : settle distance s points rounds ⟨start, points.map fun _ => none⟩ = .ok b) :
    center distance s points rounds start = .ok
      ⟨ofLabels points ((finalLabels distance points b.1).map some), b.1.centroids, b.2,
        inertia distance points (finalLabels distance points b.1) b.1.centroids⟩ := by
  rw [center, run]
  rfl

theorem finalLabels_eq {labels : List ℕ} (size : labels.length = points.length)
    (labelled : a.labels = labels.map some) : finalLabels distance points a = labels := by
  rw [finalLabels, labelled, List.zip_map_right, List.map_map]
  exact List.map_snd_zip size.le

theorem finalLabels_eq_nearest (unlabelled : a.labels = points.map fun _ => none) :
    finalLabels distance points a = nearestLabels distance points a.centroids := by
  rw [finalLabels, unlabelled, nearestLabels]
  exact List.ext_getElem (by simp) (by simp)

variable (measurable : FiniteDistances distance) (finite : ∀ p ∈ points, p.isFinite = true)

include measurable finite

/-- The nearest centroids have numbers. -/
theorem Balanced.nearestLabels_lt (filled : start ≠ []) (balanced : Balanced points start a) :
    ∀ l ∈ nearestLabels distance points a.centroids, l < a.centroids.length := by
  intro l hl
  obtain ⟨p, hp, rfl⟩ := List.mem_map.mp hl
  exact nearestCentroid_lt (fun c hc => measurable (finite p hp) (balanced.finite c hc))
    (balanced.filled filled)

/-- The final labels are numbers of centroids, one for each point. -/
theorem Balanced.finalLabels_lt (filled : start ≠ []) (balanced : Balanced points start a) :
    (finalLabels distance points a).length = points.length ∧
      ∀ l ∈ finalLabels distance points a, l < a.centroids.length := by
  rcases balanced.labels with unlabelled | ⟨labels, labelled, size, inside, _⟩
  · rw [finalLabels_eq_nearest unlabelled]
    exact ⟨length_nearestLabels _, balanced.nearestLabels_lt measurable finite filled⟩
  · rw [finalLabels_eq size labelled]
    exact ⟨size, inside⟩

/-- Labels that a round keeps are those of the nearest centroids. -/
theorem Balanced.settled (filled : start ≠ []) (balanced : Balanced points start a)
    (same : assign distance points a = a.labels) :
    a.labels = (finalLabels distance points a).map some ∧
      Settled distance points (finalLabels distance points a) a.centroids := by
  have labelled : a.labels = (nearestLabels distance points a.centroids).map some :=
    same.symm.trans assign_eq
  rw [finalLabels_eq (length_nearestLabels _) labelled]
  refine ⟨labelled, fun {i p} here => ?_, fun {l c} here members => ?_⟩
  · refine ⟨_, by rw [nearestLabels, List.getElem?_map, here]; rfl, ?_⟩
    have hp := finite p (List.mem_of_getElem? here)
    exact firstNearest_nearestCentroid (fun c hc => measurable hp (balanced.finite c hc))
      (balanced.filled filled)
  · rcases balanced.labels with unlabelled | ⟨labels, labelled', _, _, centered⟩
    · -- Without any round there are no labels to keep, unless there are no points.
      have unlabelled : nearestLabels distance points a.centroids = [] := by
        rw [labelled] at unlabelled
        cases points with
        | nil => rfl
        | cons p ps => simp [nearestLabels] at unlabelled
      simp [membersAt, unlabelled] at members
    · obtain rfl : labels = nearestLabels distance points a.centroids :=
        (List.map_inj_right fun _ _ => Option.some.inj).mp (labelled'.symm.trans labelled)
      exact centered here members

variable [Scalar.ConvexFinite K]

theorem Balanced.round (filled : start ≠ []) (balanced : Balanced points start a) :
    Balanced points start (round distance points a) := by
  constructor
  · exact (length_recenter _ _).trans balanced.count
  · intro c hc
    obtain ⟨l, here⟩ := List.mem_iff_getElem?.mp hc
    simp only [Clustering.round, assign_eq] at here
    rcases recentered here with ⟨_, there⟩ | ⟨members, center, flat⟩
    · exact balanced.finite c (List.mem_of_getElem? there)
    · exact center.isFinite flat members fun p hp => finite p (mem_of_mem_membersAt hp)
  · refine .inr ⟨nearestLabels distance points a.centroids, assign_eq, length_nearestLabels _,
      ?_, ?_⟩
    · rw [Clustering.round, length_recenter]
      exact balanced.nearestLabels_lt measurable finite filled
    · intro l c here members
      simp only [Clustering.round, assign_eq] at here
      rcases recentered here with ⟨memberless, _⟩ | ⟨_, center, _⟩
      · exact absurd memberless members
      · exact center

/-- The rounds end, in labels that a further round keeps if they have converged. -/
theorem settle_balanced {s : Signal} (quiet : s ≠ .triggered) (filled : start ≠ []) (rounds : ℕ)
    (balanced : Balanced points start a) : ∃ b converged,
      settle distance s points rounds a = .ok (b, converged) ∧ Balanced points start b ∧
      (converged = true → assign distance points b = b.labels) := by
  induction rounds generalizing a with
  | zero => exact ⟨a, false, rfl, balanced, nofun⟩
  | succ rounds ih =>
    simp only [settle, Signal.check_eq_ok quiet]
    by_cases same : assign distance points a = a.labels
    · exact ⟨a, true, by rw [if_pos same]; rfl, balanced, fun _ => same⟩
    · obtain ⟨b, converged, run, rest⟩ := ih (balanced.round measurable finite filled)
      refine ⟨b, converged, ?_, rest⟩
      rw [if_neg same]
      exact run

end Rounds

section Inertia

variable [Exact K] {distance : Position K → Position K → K}

theorem inertia_cons (p : Position K) (ps : List (Position K)) (l : ℕ) (labels : List ℕ)
    (centroids : List (Position K)) :
    inertia distance (p :: ps) (l :: labels) centroids =
      (centroids[l]?.map fun c => Scalar.square (distance p c)).getD 0 +
        inertia distance ps labels centroids := by
  simp only [inertia, Exact.sum_eq, List.zip_cons_cons, List.filterMap_cons]
  cases centroids[l]? <;> simp

/-- No labels give a lesser sum than those of the nearest centroids. -/
theorem inertia_nearest_le (nonneg : ∀ p q, 0 ≤ distance p q) {points centroids : List (Position K)}
    (finite : ∀ p ∈ points, ∀ c ∈ centroids, Scalar.isFinite (distance p c) = true)
    {labels : List ℕ} (size : labels.length = points.length)
    (inside : ∀ l ∈ labels, l < centroids.length) :
    inertia distance points (nearestLabels distance points centroids) centroids ≤
      inertia distance points labels centroids := by
  induction points generalizing labels with
  | nil => simp [inertia]
  | cons p ps ih =>
    cases labels with
    | nil => simp at size
    | cons l labels =>
      obtain ⟨finite₁, finite⟩ := List.forall_mem_cons.mp finite
      obtain ⟨inside₁, inside⟩ := List.forall_mem_cons.mp inside
      have there := List.getElem?_eq_getElem inside₁
      obtain ⟨c, here, least⟩ := firstNearest_nearestCentroid finite₁
        (List.ne_nil_of_mem (List.mem_of_getElem? there))
      have nearer := (least l _ there).1
      have rest := ih finite (Nat.succ.inj size) inside
      rw [nearestLabels, List.map_cons, inertia_cons, inertia_cons, here, there]
      exact add_le_add (mul_self_le_mul_self (nonneg p c) nearer) rest

/-- What the members of one cluster add to the sum. -/
def clusterInertia (distance : Position K → Position K → K) (members : List (Position K))
    (c : Position K) : K :=
  (members.map fun p => Scalar.square (distance p c)).sum

theorem inertia_eq_sum (points : List (Position K)) {labels : List ℕ}
    (size : labels.length = points.length) (centroids : List (Position K)) :
    inertia distance points labels centroids = ∑ l ∈ Finset.range centroids.length,
      (centroids[l]?.map (clusterInertia distance (membersAt points labels l))).getD 0 := by
  induction points generalizing labels with
  | nil =>
    apply (Finset.sum_eq_zero _).symm
    intro l _
    cases centroids[l]? <;> rfl
  | cons p ps ih =>
    cases labels with
    | nil => simp at size
    | cons m labels =>
      have share (l : ℕ) : (centroids[l]?.map (clusterInertia distance
          (membersAt (p :: ps) (m :: labels) l))).getD 0 =
          (if m = l then (centroids[m]?.map fun c => Scalar.square (distance p c)).getD 0 else 0) +
            (centroids[l]?.map (clusterInertia distance (membersAt ps labels l))).getD 0 := by
        rw [membersAt_cons]
        by_cases same : m = l
        · subst same
          cases centroids[m]? <;> simp [clusterInertia]
        · rw [if_neg same, if_neg same, zero_add]
      rw [inertia_cons, ih (Nat.succ.inj size), Finset.sum_congr rfl fun l _ => share l,
        Finset.sum_add_distrib, Finset.sum_ite_eq]
      split
      · rfl
      · rename_i outside
        have missing : centroids[m]? = none :=
          List.getElem?_eq_none (by simpa using outside)
        rw [missing]
        rfl

end Inertia

section Euclidean

variable [Euclidean K]

theorem clusterInertia_euclidean (members : List (Position K)) (c : Position K) :
    clusterInertia ClusterMetric.euclidean.distance members c =
      ((members.map (·.x)).map fun x => (x - c.x) ^ 2).sum +
        ((members.map (·.y)).map fun y => (y - c.y) ^ 2).sum := by
  have split (p : Position K) : Scalar.square (ClusterMetric.euclidean.distance p c) =
      (p.x - c.x) ^ 2 + (p.y - c.y) ^ 2 := by
    rw [sq, sq]
    exact Euclidean.hypot_mul_self _ _
  simp only [clusterInertia, split, List.map_map, Function.comp_def, List.sum_map_add]

theorem clusterInertia_le {members : List (Position K)} {m : Position K}
    (center : IsCenter members m) (c : Position K) :
    clusterInertia ClusterMetric.euclidean.distance members m ≤
      clusterInertia ClusterMetric.euclidean.distance members c := by
  rw [clusterInertia_euclidean, clusterInertia_euclidean, center.x, center.y]
  exact add_le_add (Exact.sum_sq_sub_mean_le _ _) (Exact.sum_sq_sub_mean_le _ _)

/-- Centroids that move to the middle of their points lower the sum. -/
theorem inertia_recenter_le (points : List (Position K)) {labels : List ℕ}
    (size : labels.length = points.length) (centroids : List (Position K)) :
    inertia ClusterMetric.euclidean.distance points labels
        (recenter points (labels.map some) centroids) ≤
      inertia ClusterMetric.euclidean.distance points labels centroids := by
  rw [inertia_eq_sum points size, inertia_eq_sum points size, length_recenter]
  apply Finset.sum_le_sum
  intro l hl
  have there := List.getElem?_eq_getElem (Finset.mem_range.mp hl)
  obtain ⟨c, here⟩ : ∃ c, (recenter points (labels.map some) centroids)[l]? = some c :=
    ⟨_, by rw [getElem?_recenter, there]; rfl⟩
  rcases recentered here with ⟨_, still⟩ | ⟨_, center, _⟩
  · rw [here, still]
  · rw [here, there]
    exact clusterInertia_le center _

/-- A round that changes a label lowers the sum, or leaves it as it is. -/
theorem inertia_round_le {points start : List (Position K)} {a : Assignment K}
    (measurable : FiniteDistances (ClusterMetric.euclidean.distance (K := K)))
    (finite : ∀ p ∈ points, p.isFinite = true) (filled : start ≠ [])
    (balanced : Balanced points start a) :
    inertia ClusterMetric.euclidean.distance points
        (finalLabels ClusterMetric.euclidean.distance points
          (round ClusterMetric.euclidean.distance points a))
        (round ClusterMetric.euclidean.distance points a).centroids ≤
      inertia ClusterMetric.euclidean.distance points
        (finalLabels ClusterMetric.euclidean.distance points a) a.centroids := by
  obtain ⟨size, inside⟩ := balanced.finalLabels_lt measurable finite filled
  rw [finalLabels_eq (length_nearestLabels _) assign_eq, round, assign_eq]
  exact (inertia_recenter_le points (length_nearestLabels _) a.centroids).trans
    (inertia_nearest_le (fun _ _ => Euclidean.hypot_nonneg _ _)
      (fun p hp c hc => measurable (finite p hp) (balanced.finite c hc)) size inside)

/-- From any centroids, with any distance: labels that have converged are settled. With the
distance of the plane one more round never gives a greater sum of squares. -/
theorem center_settles [Scalar.ConvexFinite K] {points start : List (Position K)} {s : Signal}
    (finite : ∀ p ∈ points, p.isFinite = true) (placed : ∀ c ∈ start, c.isFinite = true)
    (filled : start ≠ []) (quiet : s ≠ .triggered) (rounds : ℕ) :
    (∀ distance : Position K → Position K → K, FiniteDistances distance →
      ∃ (r : Centering K) (labels : List ℕ), center distance s points rounds start = .ok r ∧
        r.clustering = ofLabels points (labels.map some) ∧ labels.length = points.length ∧
        r.centroids.length = start.length ∧
        r.inertia = inertia distance points labels r.centroids ∧
        (r.converged = true → Settled distance points labels r.centroids ∧
          settle distance s points rounds ⟨start, points.map fun _ => none⟩ =
            .ok (⟨r.centroids, labels.map some⟩, true))) ∧
    (FiniteDistances (ClusterMetric.euclidean.distance (K := K)) → ∃ r r' : Centering K,
      center ClusterMetric.euclidean.distance s points rounds start = .ok r ∧
      center ClusterMetric.euclidean.distance s points (rounds + 1) start = .ok r' ∧
      r'.inertia ≤ r.inertia) := by
  refine ⟨fun distance measurable => ?_, fun measurable => ?_⟩
  · obtain ⟨b, converged, run, balanced, same⟩ :=
      settle_balanced measurable finite quiet filled rounds (Balanced.initial placed)
    obtain ⟨size, _⟩ := balanced.finalLabels_lt measurable finite filled
    refine ⟨_, finalLabels distance points b, center_of_settle run, rfl, size, balanced.count, rfl,
      fun done => ?_⟩
    obtain rfl : converged = true := done
    obtain ⟨labelled, settled⟩ := balanced.settled measurable finite filled (same rfl)
    exact ⟨settled, by rw [run, ← labelled]⟩
  · obtain ⟨b, converged, run, balanced, same⟩ :=
      settle_balanced measurable finite quiet filled rounds (Balanced.initial placed)
    have next := settle_succ quiet run
    refine ⟨_, _, center_of_settle run, center_of_settle next, ?_⟩
    by_cases kept : assign ClusterMetric.euclidean.distance points b = b.labels
    · simp only [if_pos kept]
      exact le_rfl
    · simp only [if_neg kept]
      exact inertia_round_le measurable finite filled balanced

end Euclidean

/-- Two points whose one centroid starts away from them. -/
noncomputable def pair : List (Position ℝ) := [⟨0, 0, none⟩, ⟨2, 0, none⟩]

/-- The second round finds nothing to change. -/
theorem settle_pair (c : Position ℝ) : ∃ b,
    settle ClusterMetric.manhattan.distance .absent pair 2 ⟨[c], pair.map fun _ => none⟩ =
      .ok (b, true) := by
  have only (c p : Position ℝ) : nearestCentroid ClusterMetric.manhattan.distance [c] p = 0 := rfl
  have one (labels : List (Option ℕ)) (c : Position ℝ) : ∃ d, recenter pair labels [c] = [d] :=
    ⟨_, rfl⟩
  obtain ⟨d, moved⟩ := one [some 0, some 0] c
  refine ⟨⟨[d], [some 0, some 0]⟩, ?_⟩
  simp only [settle, assign, pair, List.map_cons, List.map_nil, only]
  exact congrArg (fun cs => Except.ok ((⟨cs, [some 0, some 0]⟩ : Assignment ℝ), true)) moved

theorem center_settles_pair :
    ∃ (r r₁ r₂ : Centering ℝ) (labels : List ℕ),
      center ClusterMetric.manhattan.distance .absent pair 2 [⟨5, 0, none⟩] = .ok r ∧
      r.converged = true ∧ Settled ClusterMetric.manhattan.distance pair labels r.centroids ∧
      center ClusterMetric.euclidean.distance .absent pair 0 [⟨5, 0, none⟩] = .ok r₁ ∧
      center ClusterMetric.euclidean.distance .absent pair 1 [⟨5, 0, none⟩] = .ok r₂ ∧
      r₂.inertia ≤ r₁.inertia := by
  have finite : ∀ p ∈ pair, p.isFinite = true := by
    simp only [pair, List.forall_mem_cons, List.not_mem_nil, false_implies, implies_true, and_true]
    exact ⟨rfl, rfl⟩
  have placed : ∀ c ∈ [(⟨5, 0, none⟩ : Position ℝ)], c.isFinite = true :=
    fun c hc => List.mem_singleton.mp hc ▸ rfl
  have filled : [(⟨5, 0, none⟩ : Position ℝ)] ≠ [] := List.cons_ne_nil _ _
  have quiet : Signal.absent ≠ .triggered := nofun
  obtain ⟨b, settled⟩ := settle_pair ⟨5, 0, none⟩
  obtain ⟨r, labels, computed, _, _, _, _, done⟩ :=
    (center_settles finite placed filled quiet 2).1 ClusterMetric.manhattan.distance fun _ _ => rfl
  have converged : r.converged = true := by
    rw [center_of_settle settled] at computed
    rw [← Except.ok.inj computed]
  obtain ⟨r₁, r₂, first, second, lower⟩ :=
    (center_settles finite placed filled quiet 0).2 fun _ _ => rfl
  exact ⟨r, r₁, r₂, labels, computed, converged, (done converged).1, first, second, lower⟩

end Geospatial.Clustering
