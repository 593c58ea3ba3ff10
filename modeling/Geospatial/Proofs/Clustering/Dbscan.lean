import Mathlib.Analysis.SpecialFunctions.Complex.Arg
import Geospatial.Clustering.Dbscan
import Geospatial.Proofs.Outcome
import Geospatial.Proofs.Clustering
import Geospatial.Proofs.Clustering.Flood
import Geospatial.Proofs.Clustering.Metric
import Geospatial.Proofs.Scalar.Order

/-! What clusters by density are, and that they do not depend on the order of the points. A core has
the number of the cluster that was filled from it or from a core that is joined to it, and any other
point that of the nearest core within reach. Cores that a point cannot tell apart stand at one
place, so that they are linked to each other. Cores, their links and which cores are nearest are all
the same in another order, as no index takes part in them. -/
namespace Geospatial.Clustering

section

variable {K : Type} [Scalar K]

theorem Density.check_eq_ok {d : Density K} :
    d.check = .ok () ↔ (Scalar.isFinite d.reach = true ∧ 0 < d.reach) ∧ d.leastCount ≠ 0 := by
  unfold Density.check
  by_cases reach : Scalar.isFinite d.reach = true <;> by_cases positive : 0 < d.reach <;>
    by_cases count : d.leastCount = 0 <;>
    simp [reach, positive, count, Outcome.refuse, bind, Except.bind, pure, Except.pure]

variable (distance : Position K → Position K → K) (d : Density K) (points : List (Position K))

/-- Enough points, itself included, lie within reach. -/
def isCore (points : List (Position K)) (p : Position K) : Bool :=
  d.leastCount ≤ points.countP fun q => distance p q ≤ d.reach

/-- Indexed points within reach of each other. -/
def linked (p q : Position K × ℕ) : Bool := distance p.1 q.1 ≤ d.reach

/-- The cores among the points, with their indices. -/
def cores : List (Position K × ℕ) := points.zipIdx.filter fun p => isCore distance d points p.1

/-- Cores that chains of cores join. -/
abbrev Connected : Position K × ℕ → Position K × ℕ → Prop :=
  Relation.ReflTransGen fun a b =>
    a ∈ cores distance d points ∧ b ∈ cores distance d points ∧ linked distance d a b = true

/-- The points within reach of each of the points, and the cores among them. -/
def around : Surroundings := surroundings d (points.map (neighborhood distance d points))

/-- The number of the cluster that a core is in. -/
def coreNumber (c : Position K × ℕ) : Option ℕ :=
  (coreLabels (around distance d points) points.length)[c.2]?.join

/-- The labels before the clusters are numbered. -/
def densityLabels : List (Option ℕ) :=
  points.zipIdx.foldl (joinBorder distance points (around distance d points))
    (coreLabels (around distance d points) points.length)

/-- The point belongs to the cluster of the core: it is that core, or no core and none within
reach comes before that core. -/
structure Anchored (p a : Position K × ℕ) : Prop where
  core : a ∈ cores distance d points
  itself : p ∈ cores distance d points → a = p
  within : p ∉ cores distance d points → linked distance d p a = true
  nearest : p ∉ cores distance d points → ∀ c ∈ cores distance d points,
    linked distance d p c = true → (coreOrder distance p.1 a c).isLE

variable {distance d points} {p q a b c : Position K × ℕ}

theorem dbscan_eq_ok {s : Signal} (valid : d.check = .ok ())
    (finite : ∀ p ∈ points, p.isFinite = true) (quiet : s ≠ .triggered) :
    dbscan distance d s points = .ok (ofLabels points (densityLabels distance d points)) := by
  simp only [dbscan, valid, requireFinite_eq_ok.mpr finite, Signal.forEach_eq_ok quiet, bind,
    Except.bind]
  rfl

theorem mem_cores : c ∈ cores distance d points ↔
    points[c.2]? = some c.1 ∧ isCore distance d points c.1 = true := by
  rw [cores, List.mem_filter, List.mem_zipIdx_iff_getElem?]

theorem mem_neighborhood {p : Position K} {j : ℕ} : j ∈ neighborhood distance d points p ↔
    ∃ q, points[j]? = some q ∧ distance p q ≤ d.reach := by
  simp only [neighborhood, List.mem_map, List.mem_filter, List.mem_zipIdx_iff_getElem?, Prod.exists,
    decide_eq_true_eq]
  constructor
  · rintro ⟨q, j, ⟨here, near⟩, rfl⟩
    exact ⟨q, here, near⟩
  · rintro ⟨q, here, near⟩
    exact ⟨q, j, ⟨here, near⟩, rfl⟩

theorem length_neighborhood (p : Position K) : (neighborhood distance d points p).length =
    points.countP fun q => distance p q ≤ d.reach := by
  conv_rhs => rw [← List.zipIdx_map_fst 0 points, List.countP_map, List.countP_eq_length_filter]
  rw [neighborhood, List.length_map]
  rfl

theorem near_around {p : Position K} {i : ℕ} (here : points[i]? = some p) :
    (around distance d points).near i = neighborhood distance d points p := by
  rw [Surroundings.near, around, surroundings, List.getD_eq_getElem?_getD, List.getElem?_map, here]
  rfl

theorem isCore_around (i : ℕ) : (around distance d points).isCore i = true ↔
    ∃ p, (p, i) ∈ cores distance d points := by
  simp only [mem_cores]
  rw [Surroundings.isCore, around, surroundings, List.getD_eq_getElem?_getD, List.getElem?_map,
    List.getElem?_map]
  cases here : points[i]? with
  | none => simp
  | some p => simp [isCore, length_neighborhood]

variable (distance d) in
theorem isCore_around_of_here {p : Position K} {i : ℕ} (here : points[i]? = some p) :
    (around distance d points).isCore i = true ↔ (p, i) ∈ cores distance d points := by
  rw [isCore_around]
  constructor
  · rintro ⟨q, hq⟩
    obtain rfl := Option.some.inj (here.symm.trans (mem_cores.mp hq).1)
    exact hq
  · exact fun hp => ⟨p, hp⟩

theorem lt_length_of_isCore (i : ℕ) (core : (around distance d points).isCore i = true) :
    i < points.length := by
  obtain ⟨p, hp⟩ := (isCore_around i).mp core
  exact (List.getElem?_eq_some_iff.mp (mem_cores.mp hp).1).1

theorem link_iff (ha : a ∈ cores distance d points) (hb : b ∈ cores distance d points) :
    (around distance d points).Link a.2 b.2 ↔ linked distance d a b = true := by
  have core {c : Position K × ℕ} (hc : c ∈ cores distance d points) :
      (around distance d points).isCore c.2 = true := (isCore_around c.2).mpr ⟨c.1, hc⟩
  have there := (mem_cores.mp hb).1
  simp only [Surroundings.Link, core ha, core hb, true_and, near_around (mem_cores.mp ha).1,
    mem_neighborhood, there, Option.some.injEq, exists_eq_left', linked, decide_eq_true_eq]

/-- Chains of indices are chains of cores. -/
theorem joined_iff (ha : a ∈ cores distance d points) (hb : b ∈ cores distance d points) :
    (around distance d points).Joined a.2 b.2 ↔ Connected distance d points a b := by
  constructor
  · have onward {j : ℕ} (joined : (around distance d points).Joined a.2 j) :
        ∃ c ∈ cores distance d points, c.2 = j ∧ Connected distance d points a c := by
      induction joined with
      | refl => exact ⟨a, ha, rfl, .refl⟩
      | tail _ step ih =>
        obtain ⟨c, hc, rfl, chain⟩ := ih
        obtain ⟨q, hq⟩ := (isCore_around _).mp step.2.1
        exact ⟨(q, _), hq, rfl, chain.tail ⟨hc, hq, (link_iff hc hq).mp step⟩⟩
    intro joined
    obtain ⟨c, hc, same, chain⟩ := onward joined
    have place : c = b := by
      have found := (mem_cores.mp hc).1
      rw [same, (mem_cores.mp hb).1] at found
      exact Prod.ext (Option.some.inj found).symm same
    exact place ▸ chain
  · refine Relation.ReflTransGen.lift (·.2) ?_ a b
    rintro a b ⟨ha, hb, link⟩
    exact (link_iff ha hb).mpr link

/-- The cores that the search for the nearest one goes through. -/
theorem nearestCore?_eq {p : Position K} {i : ℕ} (here : points[i]? = some p) :
    nearestCore? distance points (around distance d points) (p, i) =
      Order.least? (coreOrder distance p)
        ((cores distance d points).filter (linked distance d (p, i))) := by
  have back (xs : List (Position K × ℕ)) (sub : ∀ q ∈ xs, points[q.2]? = some q.1) :
      xs.filterMap ((fun j => points[j]?.map fun q => (q, j)) ∘ Prod.snd) = xs := by
    rw [List.filterMap_congr (g := some), List.filterMap_some]
    intro q hq
    rw [Function.comp_apply, sub q hq]
    rfl
  rw [nearestCore?, near_around here, neighborhood, List.filter_map, List.filterMap_map, back,
    List.filter_filter, cores, List.filter_filter]
  · congr 1
    apply List.filter_congr
    intro q hq
    have core := isCore_around_of_here distance d
      (List.mem_zipIdx_iff_getElem?.mp hq)
    rw [mem_cores, and_iff_right (List.mem_zipIdx_iff_getElem?.mp hq), ← Bool.eq_iff_iff] at core
    rw [Function.comp_apply, core, Bool.and_comm]
    rfl
  · intro q hq
    exact List.mem_zipIdx_iff_getElem?.mp (List.mem_of_mem_filter (List.mem_of_mem_filter hq))

theorem isCore_of_nearestCore? {g : Surroundings} {p : Position K × ℕ}
    (found : nearestCore? distance points g p = some c) : g.isCore c.2 = true := by
  have candidate := Order.mem_of_least? found
  obtain ⟨j, hj, made⟩ := List.mem_filterMap.mp candidate
  obtain ⟨q, -, rfl⟩ := Option.map_eq_some_iff.mp made
  exact (List.mem_filter.mp hj).2

/-- The label of a point that is no core, as far as the cores have theirs. -/
def borderLabel (distance : Position K → Position K → K) (points : List (Position K))
    (g : Surroundings) (labels : List (Option ℕ)) (p : Position K × ℕ) : Option ℕ :=
  (nearestCore? distance points g p).bind fun c => labels[c.2]?.join

theorem borderLabel_congr {g : Surroundings} {labels labels' : List (Option ℕ)}
    (same : ∀ i, g.isCore i = true → labels'[i]? = labels[i]?) (p : Position K × ℕ) :
    borderLabel distance points g labels' p = borderLabel distance points g labels p := by
  rw [borderLabel, borderLabel]
  cases found : nearestCore? distance points g p with
  | none => rfl
  | some c => rw [Option.bind_some, Option.bind_some, same c.2 (isCore_of_nearestCore? found)]

/-- Points that are no cores get their labels one after the other. They take them from cores, whose
labels stay as they are. -/
theorem getElem?_foldl_joinBorder (g : Surroundings) (labels : List (Option ℕ))
    (xs : List (Position K)) (i : ℕ) :
    (xs.zipIdx.foldl (joinBorder distance points g) labels)[i]? =
      if g.isCore i then labels[i]? else
        match xs[i]? with
        | none => labels[i]?
        | some p => labels[i]?.map fun _ => borderLabel distance points g labels (p, i) := by
  -- from the end, as a point comes after those before it
  induction xs using List.reverseRecOn generalizing i with
  | nil => simp
  | append_singleton xs p ih =>
    have cores (j : ℕ) (core : g.isCore j = true) :
        (xs.zipIdx.foldl (joinBorder distance points g) labels)[j]? = labels[j]? := by
      rw [ih, if_pos core]
    rw [List.zipIdx_append, List.foldl_append, Nat.zero_add]
    change (joinBorder distance points g _ (p, xs.length))[i]? = _
    by_cases same : i = xs.length
    · subst same
      rw [joinBorder]
      split
      · rw [ih]
        simp [*]
      · rename_i core
        change (List.set _ xs.length (borderLabel distance points g _ (p, xs.length)))[_]? = _
        rw [borderLabel_congr cores, List.getElem?_set_self', ih]
        simp [core]
        rfl
    · have others : (xs ++ [p])[i]? = xs[i]? := by
        rcases Nat.lt_or_gt_of_ne same with early | late
        · exact List.getElem?_append_left early
        · rw [List.getElem?_eq_none (by simpa using late), List.getElem?_eq_none late.le]
      rw [others, ← ih, joinBorder]
      split
      · rfl
      · rw [List.getElem?_set_ne (Ne.symm same)]

/-- Cores within reach of a point are in order. -/
theorem coreOrder_transOn [Scalar.LawfulOrder K] (distance : Position K → Position K → K)
    (p : Position K) :
    Order.TransOn (coreOrder distance p) fun c =>
      distance p c.1 ≤ distance p c.1 ∧ c.1.x ≤ c.1.x ∧ c.1.y ≤ c.1.y :=
  have key (f : Position K × ℕ → K) (T : Position K × ℕ → Prop) (number : ∀ c, T c → f c ≤ f c) :
      Order.TransOn (Order.on f Scalar.order) T := Scalar.order_transOn.on f number
  ((key (fun c => distance p c.1) _ fun _ h => h.1).lex
    (key (fun c => c.1.x) _ fun _ h => h.2.1)).lex (key (fun c => c.1.y) _ fun _ h => h.2.2)

theorem length_foldl_joinBorder (g : Surroundings) (ps : List (Position K × ℕ))
    (labels : List (Option ℕ)) :
    (ps.foldl (joinBorder distance points g) labels).length = labels.length := by
  induction ps generalizing labels with
  | nil => rfl
  | cons p ps ih =>
    rw [List.foldl_cons, ih, joinBorder]
    split
    · rfl
    · exact List.length_set

section

variable (finite : ∀ p ∈ points, p.isFinite = true)
include finite

theorem isFinite_of_mem_cores (hc : c ∈ cores distance d points) : c.1.isFinite = true :=
  finite _ (List.mem_of_getElem? (mem_cores.mp hc).1)

section

variable (symm : ∀ {p q : Position K}, p.isFinite = true → q.isFinite = true →
  distance p q = distance q p)
include symm

theorem linked_symm : ∀ a ∈ cores distance d points, ∀ b ∈ cores distance d points,
    linked distance d a b = linked distance d b a := by
  intro a ha b hb
  rw [linked, linked, symm (isFinite_of_mem_cores finite ha) (isFinite_of_mem_cores finite hb)]

theorem connected_symm (joined : Connected distance d points a b) :
    Connected distance d points b a := by
  induction joined with
  | refl => exact .refl
  | tail _ step ih =>
    obtain ⟨ha, hb, link⟩ := step
    exact .head ⟨hb, ha, linked_symm finite symm _ ha _ hb ▸ link⟩ ih

theorem link_symm (i j : ℕ) (link : (around distance d points).Link i j) :
    (around distance d points).Link j i := by
  obtain ⟨p, hp⟩ := (isCore_around i).mp link.1
  obtain ⟨q, hq⟩ := (isCore_around j).mp link.2.1
  have here := (link_iff hp hq).mp link
  exact (link_iff hq hp).mpr (linked_symm finite symm _ hp _ hq ▸ here)

theorem label_of_mem_cores (ha : a ∈ cores distance d points) :
    ∃ l, coreNumber distance d points a = some l ∧
      (coreLabels (around distance d points) points.length)[a.2]? = some (some l) := by
  have core := (isCore_around a.2).mpr ⟨a.1, ha⟩
  obtain ⟨l, label⟩ := (coreLabels_isSome (link_symm finite symm) lt_length_of_isCore).mpr core
  refine ⟨l, ?_, label⟩
  rw [coreNumber, label]
  rfl

theorem exists_coreNumber (ha : a ∈ cores distance d points) :
    ∃ l, coreNumber distance d points a = some l := by
  obtain ⟨l, number, _⟩ := label_of_mem_cores finite symm ha
  exact ⟨l, number⟩

/-- Connected cores, and no others, have the same number. -/
theorem coreNumber_iff (ha : a ∈ cores distance d points)
    (hb : b ∈ cores distance d points) :
    (∃ l, coreNumber distance d points a = some l ∧ coreNumber distance d points b = some l) ↔
      Connected distance d points a b := by
  have core := (isCore_around a.2).mpr ⟨a.1, ha⟩
  rw [← joined_iff ha hb, ← coreLabels_eq_iff (link_symm finite symm) lt_length_of_isCore core]
  obtain ⟨l, number, label⟩ := label_of_mem_cores finite symm ha
  obtain ⟨m, number', label'⟩ := label_of_mem_cores finite symm hb
  rw [number, number', label, label']
  simp only [Option.some.injEq]

theorem length_densityLabels : (densityLabels distance d points).length = points.length := by
  rw [densityLabels, length_foldl_joinBorder,
    length_coreLabels (link_symm finite symm) lt_length_of_isCore]

/-- A core keeps its number, and any other point gets that of its nearest core. -/
theorem densityLabels_getElem? {p : Position K} {i : ℕ} (here : points[i]? = some p) :
    (densityLabels distance d points)[i]? = some
      (if (around distance d points).isCore i then coreNumber distance d points (p, i)
      else (nearestCore? distance points (around distance d points) (p, i)).bind
        (coreNumber distance d points)) := by
  have length := length_coreLabels (link_symm (d := d) finite symm) lt_length_of_isCore
  have inside := length.symm ▸ (List.getElem?_eq_some_iff.mp here).1
  rw [densityLabels, getElem?_foldl_joinBorder, here, List.getElem?_eq_getElem inside]
  split
  · rw [coreNumber, List.getElem?_eq_getElem inside]
    rfl
  · rfl

theorem exists_point_of_label {i : ℕ} {l? : Option ℕ}
    (label : (densityLabels distance d points)[i]? = some l?) : ∃ p, points[i]? = some p := by
  have inside := (List.getElem?_eq_some_iff.mp label).1
  rw [length_densityLabels finite symm] at inside
  exact ⟨points[i], List.getElem?_eq_getElem inside⟩

end

variable [Scalar.LawfulOrder K]

theorem ordered_of_linked (hc : c ∈ cores distance d points) (link : linked distance d p c = true) :
    distance p.1 c.1 ≤ distance p.1 c.1 ∧ c.1.x ≤ c.1.x ∧ c.1.y ≤ c.1.y :=
  ⟨Scalar.le_left (of_decide_eq_true link),
    Position.isNumber_of_isFinite (isFinite_of_mem_cores finite hc)⟩

/-- The first core of all within reach is one that a point may belong to. -/
theorem anchored_of_least? (other : p ∉ cores distance d points)
    (found : Order.least? (coreOrder distance p.1)
      ((cores distance d points).filter (linked distance d p)) = some a) :
    Anchored distance d points p a := by
  have numbers : ∀ c ∈ (cores distance d points).filter (linked distance d p), _ :=
    fun c hc => ordered_of_linked finite (List.mem_filter.mp hc).1 (List.mem_filter.mp hc).2
  obtain ⟨chosen, least⟩ := (coreOrder_transOn distance p.1).least?_isLE numbers found
  obtain ⟨core, link⟩ := List.mem_filter.mp chosen
  exact ⟨core, fun self => absurd self other, fun _ => link,
    fun _ c hc near => least c (List.mem_filter.mpr ⟨hc, near⟩)⟩

section

variable (symm : ∀ {p q : Position K}, p.isFinite = true → q.isFinite = true →
  distance p q = distance q p)
include symm

/-- A point has the number of a core that it belongs to, and none when there is no such core. -/
theorem densityLabels_spec {p : Position K} {i : ℕ} (here : points[i]? = some p) :
    (∃ a, Anchored distance d points (p, i) a ∧
      (densityLabels distance d points)[i]? = some (coreNumber distance d points a)) ∨
    (∀ a, ¬Anchored distance d points (p, i) a) ∧
      (densityLabels distance d points)[i]? = some none := by
  have known := isCore_around_of_here distance d here
  rw [densityLabels_getElem? finite symm here]
  by_cases core : (p, i) ∈ cores distance d points
  · rw [if_pos (known.mpr core)]
    exact .inl ⟨(p, i), ⟨core, fun _ => rfl, fun other => absurd core other,
      fun other => absurd core other⟩, rfl⟩
  · rw [if_neg (known.not.mpr core), nearestCore?_eq here]
    cases found : Order.least? (coreOrder distance p)
        ((cores distance d points).filter (linked distance d (p, i))) with
    | none =>
      refine .inr ⟨fun a anchored => ?_, rfl⟩
      have near := List.mem_filter.mpr ⟨anchored.core, anchored.within core⟩
      rw [Order.least?_eq_none.mp found] at near
      contradiction
    | some a => exact .inl ⟨a, anchored_of_least? finite core found, rfl⟩

theorem densityLabels_eq_none {i : ℕ} : (densityLabels distance d points)[i]? = some none ↔
    ∃ p, points[i]? = some p ∧ ∀ a, ¬Anchored distance d points (p, i) a := by
  constructor
  · intro unlabelled
    obtain ⟨p, here⟩ := exists_point_of_label finite symm unlabelled
    rcases densityLabels_spec (d := d) finite symm here with ⟨a, anchored, label⟩ | ⟨alone, _⟩
    · obtain ⟨l, number⟩ := exists_coreNumber finite symm anchored.core
      rw [unlabelled, number] at label
      simp at label
    · exact ⟨p, here, alone⟩
  · rintro ⟨p, here, alone⟩
    rcases densityLabels_spec (d := d) finite symm here with ⟨a, anchored, _⟩ | ⟨_, label⟩
    · exact absurd anchored (alone a)
    · exact label

theorem exists_anchored {i l : ℕ} (label : (densityLabels distance d points)[i]? = some (some l)) :
    ∃ p a, points[i]? = some p ∧ Anchored distance d points (p, i) a ∧
      coreNumber distance d points a = some l := by
  obtain ⟨p, here⟩ := exists_point_of_label finite symm label
  rcases densityLabels_spec (d := d) finite symm here with ⟨a, anchored, number⟩ | ⟨_, unlabelled⟩
  · exact ⟨p, a, here, anchored, Option.some.inj (number.symm.trans label)⟩
  · simp [label] at unlabelled

end

variable (metric : Dissimilarity distance) (valid : d.check = .ok ())
include metric valid

/-- The cores that a point may belong to are connected: those that it cannot tell apart stand at
the same place. -/
theorem Anchored.connected (pa : Anchored distance d points p a)
    (pb : Anchored distance d points p b) : Connected distance d points a b := by
  by_cases core : p ∈ cores distance d points
  · rw [pa.itself core, pb.itself core]
  · have ab := pa.nearest core b pb.core (pb.within core)
    have ba := pb.nearest core a pa.core (pa.within core)
    obtain ⟨da, xa, ya⟩ := ordered_of_linked finite pa.core (pa.within core)
    obtain ⟨db, xb, yb⟩ := ordered_of_linked finite pb.core (pb.within core)
    have tied : coreOrder distance p.1 a b = .eq := by
      have flipped := (coreOrder_transOn distance p.1).swap (a := b) (b := a)
        ⟨db, xb, yb⟩ ⟨da, xa, ya⟩
      cases h : coreOrder distance p.1 a b <;> simp_all
    simp only [coreOrder, Ordering.then_eq_eq] at tied
    obtain ⟨⟨_, column⟩, row⟩ := tied
    have place : a.1.sameXY b.1 = true := by
      rw [Position.sameXY, Scalar.beq_of_order_eq xa xb column, Scalar.beq_of_order_eq ya yb row]
      rfl
    have apart := metric.coincident (isFinite_of_mem_cores finite pa.core)
      (isFinite_of_mem_cores finite pb.core) place
    have reach := Scalar.le_of_lt (Density.check_eq_ok.mp valid).1.2
    refine .single ⟨pa.core, pb.core, ?_⟩
    rw [linked, apart]
    exact decide_eq_true reach

theorem label_of_anchored {p : Position K} {i : ℕ} (here : points[i]? = some p)
    (anchored : Anchored distance d points (p, i) a) : ∃ e, Connected distance d points a e ∧
      e ∈ cores distance d points ∧
      (densityLabels distance d points)[i]? = some (coreNumber distance d points e) := by
  rcases densityLabels_spec (d := d) finite metric.symm here with ⟨e, other, label⟩ | ⟨alone, _⟩
  · exact ⟨e, anchored.connected finite metric valid other, other.core, label⟩
  · exact absurd anchored (alone a)

/-- Points share a label when the cores that they belong to are connected. -/
theorem sameLabel_densityLabels {i j : ℕ} : SameLabel (densityLabels distance d points) i j ↔
    ∃ p q, points[i]? = some p ∧ points[j]? = some q ∧
      ∃ a b, Anchored distance d points (p, i) a ∧ Anchored distance d points (q, j) b ∧
        Connected distance d points a b := by
  constructor
  · rintro ⟨l, first, second⟩
    obtain ⟨p, a, hp, pa, na⟩ := exists_anchored finite metric.symm first
    obtain ⟨q, b, hq, qb, nb⟩ := exists_anchored finite metric.symm second
    exact ⟨p, q, hp, hq, a, b, pa, qb,
      (coreNumber_iff finite metric.symm pa.core qb.core).mp ⟨l, na, nb⟩⟩
  · rintro ⟨p, q, hp, hq, a, b, pa, qb, ab⟩
    obtain ⟨e, ae, he, first⟩ := label_of_anchored finite metric valid hp pa
    obtain ⟨f, bf, hf, second⟩ := label_of_anchored finite metric valid hq qb
    have ef := ((connected_symm finite metric.symm ae).trans ab).trans bf
    obtain ⟨l, ne, nf⟩ := (coreNumber_iff finite metric.symm he hf).mpr ef
    exact ⟨l, by rw [first, ne], by rw [second, nf]⟩

end

end

section

variable {K : Type} [Scalar K] {distance : Position K → Position K → K} {d : Density K}
  {p a b c : Position K × ℕ} {σ : Equiv.Perm ℕ} {before after : List (Position K)}

theorem mem_cores_rearranged (h : Rearranged σ before after) :
    c ∈ cores distance d after ↔ placed σ c ∈ cores distance d before := by
  rw [mem_cores, mem_cores, placed, h c.2, isCore, isCore, h.perm.countP_eq]

theorem Anchored.rearranged (h : Rearranged σ before after) (pa : Anchored distance d after p a) :
    Anchored distance d before (placed σ p) (placed σ a) where
  core := (mem_cores_rearranged h).mp pa.core
  itself core := congrArg (placed σ) (pa.itself ((mem_cores_rearranged h).mpr core))
  within other := pa.within ((mem_cores_rearranged h).not.mpr other)
  nearest other c hc near := by
    rw [← placed_placed_symm σ c] at hc
    exact pa.nearest ((mem_cores_rearranged h).not.mpr other) (placed σ.symm c)
      ((mem_cores_rearranged h).mpr hc) near

theorem Anchored.rearranged_iff (h : Rearranged σ before after) :
    Anchored distance d after p a ↔ Anchored distance d before (placed σ p) (placed σ a) := by
  refine ⟨Anchored.rearranged h, fun there => ?_⟩
  have here := there.rearranged h.symm
  rwa [← placed_placed_symm σ.symm p, ← placed_placed_symm σ.symm a]

theorem connected_rearranged (h : Rearranged σ before after)
    (joined : Connected distance d after a b) :
    Connected distance d before (placed σ a) (placed σ b) := by
  refine Relation.ReflTransGen.lift (placed σ) ?_ a b joined
  rintro a b ⟨ha, hb, link⟩
  exact ⟨(mem_cores_rearranged h).mp ha, (mem_cores_rearranged h).mp hb, link⟩

theorem connected_rearranged_iff (h : Rearranged σ before after) : Connected distance d after a b ↔
    Connected distance d before (placed σ a) (placed σ b) := by
  refine ⟨connected_rearranged h, fun there => ?_⟩
  have here := connected_rearranged h.symm there
  rwa [← placed_placed_symm σ.symm a, ← placed_placed_symm σ.symm b]

/-- In another order the points have the same labels, up to their numbers. -/
theorem alike_densityLabels [Scalar.LawfulOrder K] (h : Rearranged σ before after)
    (metric : Dissimilarity distance) (valid : d.check = .ok ())
    (finite : ∀ p ∈ before, p.isFinite = true) :
    Alike σ (densityLabels distance d before) (densityLabels distance d after) := by
  have finite' : ∀ p ∈ after, p.isFinite = true := fun p hp => finite p (h.perm.mem_iff.mp hp)
  have onto := placed_surjective (α := Position K) σ
  constructor
  · intro i
    rw [densityLabels_eq_none finite' metric.symm, densityLabels_eq_none finite metric.symm, h]
    refine exists_congr fun p => and_congr_right fun _ => ?_
    refine Iff.trans (forall_congr' fun a => ?_) onto.forall.symm
    exact not_congr (Anchored.rearranged_iff h)
  · intro i j
    rw [sameLabel_densityLabels finite' metric valid, sameLabel_densityLabels finite metric valid,
      h, h]
    refine exists_congr fun p => exists_congr fun q => and_congr_right fun _ =>
      and_congr_right fun _ => ?_
    refine Iff.trans (exists_congr fun a => ?_) onto.exists.symm
    refine Iff.trans (exists_congr fun b => ?_) onto.exists.symm
    exact and_congr (Anchored.rearranged_iff h)
      (and_congr (Anchored.rearranged_iff h) (connected_rearranged_iff h))

/-- The order of the points does not matter to clusters by density. -/
theorem dbscan_rearranged [Scalar.LawfulOrder K] {s : Signal} (metric : Dissimilarity distance)
    (valid : d.check = .ok ()) (finite : ∀ p ∈ before, p.isFinite = true) (quiet : s ≠ .triggered)
    (rearranged : Rearranged σ before after) :
    ∃ c c', dbscan distance d s before = .ok c ∧ dbscan distance d s after = .ok c' ∧
      SamePartition σ c c' := by
  have finite' : ∀ p ∈ after, p.isFinite = true :=
    fun p hp => finite p (rearranged.perm.mem_iff.mp hp)
  refine ⟨_, _, dbscan_eq_ok valid finite quiet, dbscan_eq_ok valid finite' quiet, ?_⟩
  apply samePartition_ofLabels (alike_densityLabels rearranged metric valid finite)
  · rw [length_densityLabels finite metric.symm]
  · rw [length_densityLabels finite' metric.symm]

/-- Two groups round a core each, a point half way between the cores, and one far away. -/
noncomputable def halfway : List (Position ℝ) := [⟨0, 0, none⟩, ⟨1, 0, none⟩, ⟨1, 1, none⟩,
  ⟨2, 0, none⟩, ⟨3, 0, none⟩, ⟨3, 1, none⟩, ⟨4, 0, none⟩, ⟨9, 9, none⟩]

/-- The two cores change places in the list. -/
noncomputable def halfwaySwapped : List (Position ℝ) := [⟨0, 0, none⟩, ⟨3, 0, none⟩, ⟨1, 1, none⟩,
  ⟨2, 0, none⟩, ⟨1, 0, none⟩, ⟨3, 1, none⟩, ⟨4, 0, none⟩, ⟨9, 9, none⟩]

theorem rearranged_halfway : Rearranged (Equiv.swap 1 4) halfway halfwaySwapped
  | 0 | 1 | 2 | 3 | 4 | 5 | 6 | 7 => rfl
  | i + 8 => by rw [Equiv.swap_apply_of_ne_of_ne (by omega) (by omega)]; rfl

/-- The point half way is at the same distance from both cores. -/
theorem dbscan_rearranged_halfway :
    Dissimilarity (fun p q : Position ℝ => ClusterMetric.manhattan.distance p q) ∧
    Rearranged (Equiv.swap 1 4) halfway halfwaySwapped ∧
    ∃ c c', dbscan ClusterMetric.manhattan.distance ⟨1, 4⟩ .absent halfway = .ok c ∧
      dbscan ClusterMetric.manhattan.distance ⟨1, 4⟩ .absent halfwaySwapped = .ok c' ∧
      SamePartition (Equiv.swap 1 4) c c' := by
  have metric := ClusterMetric.dissimilarity .manhattan
  have valid : (⟨1, 4⟩ : Density ℝ).check = .ok () :=
    Density.check_eq_ok.mpr ⟨⟨rfl, one_pos⟩, by decide⟩
  have finite : ∀ p ∈ halfway, p.isFinite = true := by
    rintro ⟨x, y, z⟩ _
    cases z <;> rfl
  exact ⟨metric, rearranged_halfway,
    dbscan_rearranged metric valid finite nofun rearranged_halfway⟩

end

end Geospatial.Clustering
