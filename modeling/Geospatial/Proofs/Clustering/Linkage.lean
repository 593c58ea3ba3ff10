import Geospatial.Proofs.Clustering.Metric
import Geospatial.Proofs.Clustering
import Geospatial.Proofs.Clustering.Grouping
import Geospatial.Proofs.Scalar.Order
import Geospatial.Proofs.Scalar.Mean

/-! Clustering by merging. The table is updated from the entries of the two groups that are joined,
and yet it holds the mean of all distances between the points of any two groups. So the groups that
are joined have the least mean distance of all. -/
namespace Geospatial.Clustering

variable {K : Type}

namespace Group

def positions (points : List (Position K)) (a : Group) : List (Position K) :=
  a.members.filterMap fun i => points[i]?

theorem positions_union (points : List (Position K)) (a b : Group) :
    (a.union b).positions points = a.positions points ++ b.positions points :=
  List.filterMap_append

/-- The members are places of points. -/
structure Placed (points : List (Position K)) (a : Group) : Prop where
  filled : a.members ≠ []
  inside : ∀ i ∈ a.members, i < points.length

theorem Placed.length_positions {points : List (Position K)} {a : Group}
    (placed : a.Placed points) : (a.positions points).length = a.members.length := by
  apply List.filterMap_length_eq_length.mpr
  intro i hi
  rw [List.getElem?_eq_getElem (placed.inside i hi)]
  rfl

theorem Placed.union {points : List (Position K)} {a b : Group} (ha : a.Placed points)
    (hb : b.Placed points) : (a.union b).Placed points where
  filled := List.append_ne_nil_of_left_ne_nil ha.filled _
  inside i hi := (List.mem_append.mp hi).elim (ha.inside i) (hb.inside i)

end Group

section Definition

variable [Exact K] (distance : Position K → Position K → K) (points : List (Position K))

/-- The distances of the points of one group from those of another. -/
def pairDistances (a b : Group) : List K :=
  (a.positions points).flatMap fun p => (b.positions points).map (distance p)

def averageLinkage (a b : Group) : K := Exact.mean (pairDistances distance points a b)

/-- The groups part the points, and the table has the mean distance of each two. -/
structure Averaged (g : Grouping K) : Prop where
  size : g.linkage.table.size = points.length
  distinct : g.groups.Pairwise fun a b => a.index ≠ b.index
  inside : ∀ a ∈ g.groups, a.index < points.length
  filled : ∀ a ∈ g.groups, a.members ≠ []
  parts : (g.groups.flatMap (·.members)).Perm (List.range points.length)
  linked : ∀ a ∈ g.groups, ∀ b ∈ g.groups, a.index ≠ b.index →
    g.linkage.get a.index b.index = averageLinkage distance points a b

/-- Two groups whose mean distance is the least one of all. -/
structure LeastLinked (g : Grouping K) (a b : Group) : Prop where
  left : a ∈ g.groups
  right : b ∈ g.groups
  apart : a.index ≠ b.index
  least : ∀ c ∈ g.groups, ∀ d ∈ g.groups, c.index ≠ d.index →
    averageLinkage distance points a b ≤ averageLinkage distance points c d

/-- A number of merges, each one of groups at the least mean distance. -/
inductive Merges : ℕ → Grouping K → Grouping K → Prop
  | done (g : Grouping K) : Averaged distance points g → Merges 0 g g
  | merge {times : ℕ} {g final : Grouping K} {a b : Group} : Averaged distance points g →
      g.closest? = some (a, b) → LeastLinked distance points g a b →
      Merges times (g.join a b) final → Merges (times + 1) g final

end Definition

/-- The labels before the clusters are numbered: for each point the name of its group. -/
def groupLabels (points : List (Position K)) (g : Grouping K) : List (Option ℕ) :=
  (List.range points.length).map g.groupOf?

theorem length_groupLabels {points : List (Position K)} {g : Grouping K} :
    (groupLabels points g).length = points.length := by
  simp [groupLabels]

section Average

variable {distance : Position K → Position K → K} {points : List (Position K)} {a b c : Group}

theorem pairDistances_union : pairDistances distance points (a.union b) c =
    pairDistances distance points a c ++ pairDistances distance points b c := by
  rw [pairDistances, Group.positions_union, List.flatMap_append]
  rfl

theorem length_pairDistances (ha : a.Placed points) (hb : b.Placed points) :
    (pairDistances distance points a b).length = a.members.length * b.members.length := by
  simp [pairDistances, List.length_flatMap, ha.length_positions, hb.length_positions]

theorem pairDistances_ne_nil (ha : a.Placed points) (hb : b.Placed points) :
    pairDistances distance points a b ≠ [] := by
  rw [← List.length_pos_iff, length_pairDistances ha hb]
  exact Nat.mul_pos (List.length_pos_iff.mpr ha.filled) (List.length_pos_iff.mpr hb.filled)

theorem flatMap_map_perm {α β : Type} (f : α → α → β) (xs ys : List α) :
    (xs.flatMap fun x => ys.map (f x)).Perm (ys.flatMap fun y => xs.map fun x => f x y) := by
  induction ys with
  | nil => simp
  | cons y ys ih =>
    exact (List.map_append_flatMap_perm xs (fun x => f x y) fun x => ys.map (f x)).symm.trans
      (ih.append_left _)

theorem finite_of_mem_positions [Scalar K] (finite : ∀ p ∈ points, p.isFinite = true)
    {p : Position K} (hp : p ∈ a.positions points) : p.isFinite = true := by
  obtain ⟨i, _, here⟩ := List.mem_filterMap.mp hp
  exact finite p (List.mem_of_getElem? here)

variable [Exact K] (finite : ∀ p ∈ points, p.isFinite = true)

include finite in
theorem averageLinkage_symm (symm : ∀ {p q : Position K}, p.isFinite = true → q.isFinite = true →
      distance p q = distance q p) :
    averageLinkage distance points a b = averageLinkage distance points b a := by
  have turned : pairDistances distance points b a = (b.positions points).flatMap fun q =>
      (a.positions points).map fun p => distance p q := by
    apply List.flatMap_congr
    intro q hq
    apply List.map_congr_left
    intro p hp
    exact symm (finite_of_mem_positions finite hq) (finite_of_mem_positions finite hp)
  apply Exact.mean_perm
  rw [turned]
  exact flatMap_map_perm distance _ _

include finite in
theorem isFinite_averageLinkage [Scalar.ConvexFinite K] (measurable : FiniteDistances distance)
    (ha : a.Placed points) (hb : b.Placed points) :
    Scalar.isFinite (averageLinkage distance points a b) = true := by
  apply Exact.isFinite_mean (pairDistances_ne_nil ha hb)
  intro x hx
  obtain ⟨p, hp, hx⟩ := List.mem_flatMap.mp hx
  obtain ⟨q, hq, rfl⟩ := List.mem_map.mp hx
  exact measurable (finite_of_mem_positions finite hp) (finite_of_mem_positions finite hq)

/-- The mean distance from a union, by the sizes of its parts. -/
theorem averageLinkage_union (ha : a.Placed points) (hb : b.Placed points) (hc : c.Placed points) :
    averageLinkage distance points (a.union b) c =
      ((a.members.length : K) * averageLinkage distance points a c +
        (b.members.length : K) * averageLinkage distance points b c) /
          ((a.members.length : K) + (b.members.length : K)) := by
  have size : (c.members.length : K) ≠ 0 := (Exact.length_pos hc.filled).ne'
  rw [averageLinkage, pairDistances_union,
    Exact.mean_append (pairDistances_ne_nil ha hc) (pairDistances_ne_nil hb hc),
    length_pairDistances ha hc, length_pairDistances hb hc, Nat.cast_mul, Nat.cast_mul,
    ← add_mul, mul_right_comm, mul_right_comm (b.members.length : K), ← add_mul,
    mul_div_mul_right _ _ size]
  rfl

end Average

section Join

variable [Exact K] {distance : Position K → Position K → K} {points : List (Position K)}
  {g : Grouping K} {a b : Group}

theorem Averaged.placed (averaged : Averaged distance points g) (ha : a ∈ g.groups) :
    a.Placed points where
  filled := averaged.filled a ha
  inside _ hi :=
    List.mem_range.mp (averaged.parts.mem_iff.mp (List.mem_flatMap.mpr ⟨a, ha, hi⟩))

theorem get_join {r c : ℕ} (hr : r < g.linkage.table.size) (hc : c < g.linkage.table.size) :
    (g.join a b).linkage.get r c =
      if r = a.index then g.linkage.mergedDistance a b c
      else if c = a.index then g.linkage.mergedDistance a b r
      else g.linkage.get r c := Linkage.get_ofFn _ hr hc

/-- The update of the table for a union gives the mean distance from it. -/
theorem mergedDistance_eq {rest : List Group} (averaged : Averaged distance points g)
    (joining : Joining g a b rest) {c : Group} (hc : c ∈ rest) :
    g.linkage.mergedDistance a b c.index = averageLinkage distance points (a.union b) c := by
  have here := joining.kept hc
  rw [averageLinkage_union (averaged.placed joining.left) (averaged.placed joining.right)
    (averaged.placed here), Linkage.mergedDistance,
    averaged.linked a joining.left c here (joining.notLeft c hc),
    averaged.linked b joining.right c here (joining.notRight c hc)]

theorem Averaged.index_join {rest : List Group} (averaged : Averaged distance points g)
    (joining : Joining g a b rest) {c : Group} (hc : c ∈ (g.join a b).groups) :
    c.index < points.length := by
  rcases joining.mem_join.mp hc with rfl | hc
  · exact averaged.inside a joining.left
  · exact averaged.inside c (joining.kept hc)

variable (finite : ∀ p ∈ points, p.isFinite = true)
  (symm : ∀ {p q : Position K}, p.isFinite = true → q.isFinite = true →
    distance p q = distance q p)
include finite symm

theorem Averaged.linked_join {rest : List Group} (averaged : Averaged distance points g)
    (joining : Joining g a b rest) {c d : Group} (hc : c ∈ (g.join a b).groups)
    (hd : d ∈ (g.join a b).groups) (apart : c.index ≠ d.index) :
    (g.join a b).linkage.get c.index d.index = averageLinkage distance points c d := by
  have inside {c : Group} (hc : c ∈ (g.join a b).groups) : c.index < g.linkage.table.size :=
    averaged.size ▸ averaged.index_join joining hc
  rw [get_join (inside hc) (inside hd)]
  -- The entries of the union are written to its row and to its column alike.
  rcases joining.mem_join.mp hc with rfl | hc
  · have hd := (joining.mem_join.mp hd).resolve_left fun same => apart (same ▸ rfl)
    rw [Group.union_index, if_pos rfl, mergedDistance_eq averaged joining hd]
  · rw [if_neg (joining.notLeft c hc).symm]
    rcases joining.mem_join.mp hd with rfl | hd
    · rw [Group.union_index, if_pos rfl, mergedDistance_eq averaged joining hc]
      exact averageLinkage_symm finite symm
    · rw [if_neg (joining.notLeft d hd).symm]
      exact averaged.linked c (joining.kept hc) d (joining.kept hd) apart

theorem Averaged.join {rest : List Group} (averaged : Averaged distance points g)
    (joining : Joining g a b rest) : Averaged distance points (g.join a b) where
  size := Array.size_ofFn.trans averaged.size
  distinct := (joining.after.pairwise_iff Ne.symm).mpr
    (List.pairwise_cons.mpr ⟨joining.notLeft, joining.distinct⟩)
  inside _ hc := averaged.index_join joining hc
  filled c hc := by
    rcases joining.mem_join.mp hc with rfl | hc
    · exact ((averaged.placed joining.left).union (averaged.placed joining.right)).filled
    · exact averaged.filled c (joining.kept hc)
  parts := by
    calc ((g.join a b).groups.flatMap (·.members)).Perm _ := joining.after.flatMap_right _
      _ = (a :: b :: rest).flatMap (·.members) := by simp [Group.union]
      List.Perm _ (g.groups.flatMap (·.members)) := (joining.before.flatMap_right _).symm
      List.Perm _ (List.range points.length) := averaged.parts
  linked c hc d hd apart := averaged.linked_join finite symm joining hc hd apart

end Join

section Closest

/-- The entry of the table for two groups. -/
def entry [Scalar K] (g : Grouping K) (p : Group × Group) : K :=
  g.linkage.get p.1.index p.2.index

variable [Exact K] [Scalar.ConvexFinite K] {distance : Position K → Position K → K}
  {points : List (Position K)} {g : Grouping K}
  (finite : ∀ p ∈ points, p.isFinite = true) (measurable : FiniteDistances distance)
  (symm : ∀ {p q : Position K}, p.isFinite = true → q.isFinite = true →
    distance p q = distance q p)
include finite measurable symm

/-- Among two groups or more, those that the table has nearest are at the least mean distance. -/
theorem Averaged.closest? (averaged : Averaged distance points g) (more : 1 < g.groups.length) :
    ∃ a b, g.closest? = some (a, b) ∧ LeastLinked distance points g a b := by
  have couple {p : Group × Group} (hp : p ∈ Order.couples g.groups) :=
    Order.of_mem_couples averaged.distinct hp
  have measured : (Order.couples g.groups).filter (fun p => Scalar.isFinite (entry g p)) =
      Order.couples g.groups := by
    apply List.filter_eq_self.mpr
    intro p hp
    obtain ⟨left, right, apart⟩ := couple hp
    rw [entry, averaged.linked _ left _ right apart]
    exact isFinite_averageLinkage finite measurable (averaged.placed left) (averaged.placed right)
  have closest : g.closest? = Order.least? (Order.on (entry g) Scalar.order)
      ((Order.couples g.groups).filter fun p => Scalar.isFinite (entry g p)) := rfl
  rw [measured] at closest
  rw [closest]
  cases found : Order.least? (Order.on (entry g) Scalar.order) (Order.couples g.groups) with
  | none => exact absurd (Order.least?_eq_none.mp found) (Order.couples_ne_nil more)
  | some p =>
    obtain ⟨chosen, least⟩ := Scalar.least?_by_key (fun _ => le_rfl) found
    obtain ⟨left, right, apart⟩ := couple chosen
    have below {q : Group × Group} (hq : q ∈ Order.couples g.groups) :
        averageLinkage distance points p.1 p.2 ≤ averageLinkage distance points q.1 q.2 := by
      obtain ⟨hc, hd, other⟩ := couple hq
      rw [← averaged.linked _ left _ right apart, ← averaged.linked _ hc _ hd other]
      exact least q hq
    refine ⟨p.1, p.2, rfl, left, right, apart, fun c hc d hd other => ?_⟩
    -- Only one of the two orders of a pair is among those that are compared.
    rcases Order.mem_couples hc hd fun same => other (same ▸ rfl) with here | turned
    · exact below here
    · rw [averageLinkage_symm finite symm (a := c)]
      exact below turned

/-- Merges go on as long as there are two groups. -/
theorem Averaged.reduce {s : Signal} (quiet : s ≠ .triggered) {times : ℕ}
    (averaged : Averaged distance points g) (more : times < g.groups.length) : ∃ final,
      g.reduce s times = .ok final ∧ Merges distance points times g final ∧
      Averaged distance points final ∧ final.groups.length + times = g.groups.length := by
  induction times generalizing g with
  | zero => exact ⟨g, rfl, .done g averaged, averaged, rfl⟩
  | succ times ih =>
    obtain ⟨a, b, closest, least⟩ := averaged.closest? finite measurable symm (by omega)
    obtain ⟨rest, joining⟩ := exists_joining averaged.distinct least.left least.right least.apart
    have fewer := joining.length_join
    obtain ⟨final, run, merges, kept, count⟩ := ih (averaged.join finite symm joining) (by omega)
    refine ⟨final, ?_, .merge averaged closest least merges, kept, by omega⟩
    rw [Grouping.reduce]
    simp only [Signal.check_eq_ok quiet, closest]
    exact run

end Closest

section Start

variable [Exact K] {distance : Position K → Position K → K} {points : List (Position K)}

theorem averaged_singletons : Averaged distance points (singletons distance points) where
  size := by simp [singletons]
  distinct := List.pairwise_map.mpr List.nodup_range
  inside a ha := by
    obtain ⟨i, hi, rfl⟩ := List.mem_map.mp ha
    exact List.mem_range.mp hi
  filled a ha := by
    obtain ⟨i, hi, rfl⟩ := List.mem_map.mp ha
    exact List.cons_ne_nil i []
  parts := by
    simp [singletons, List.flatMap_map]
  linked a ha b hb apart := by
    obtain ⟨i, hi, rfl⟩ := List.mem_map.mp ha
    obtain ⟨j, hj, rfl⟩ := List.mem_map.mp hb
    have hi := List.mem_range.mp hi
    have hj := List.mem_range.mp hj
    simp [singletons, Linkage.get, averageLinkage, pairDistances, Group.positions, Exact.mean,
      hi, hj]

theorem agglomerate_eq_ok {s : Signal} {k : ℕ} {m : Merging K}
    (valid : 1 ≤ k ∧ k ≤ points.length) (finite : ∀ p ∈ points, p.isFinite = true)
    (quiet : s ≠ .triggered)
    (run : (Merging.start (singletons distance points).linkage.table).reduce s
      (points.length - k) = .ok m) :
    agglomerate distance s points k = .ok (ofLabels points (m.assignment.toList.map some)) := by
  simp only [agglomerate, requireCount_eq_ok.mpr valid, requireFinite_eq_ok.mpr finite,
    Signal.forEach_eq_ok quiet, bind, Except.bind]
  rw [singletons] at run
  rw [run]
  rfl

end Start

section Partition

variable [Exact K] {distance : Position K → Position K → K} {points : List (Position K)}
  {g : Grouping K} (averaged : Averaged distance points g)

include averaged

theorem Averaged.same_group {a b : Group} (ha : a ∈ g.groups) (hb : b ∈ g.groups) {i : ℕ}
    (left : i ∈ a.members) (right : i ∈ b.members) : a = b := by
  have apart := (List.nodup_flatMap.mp (averaged.parts.nodup_iff.mpr List.nodup_range)).2
  have : Std.Symm (Function.onFun List.Disjoint fun c : Group => c.members) :=
    ⟨fun _ _ disjoint => disjoint.symm⟩
  by_contra different
  exact apart.forall ha hb different left right

theorem Averaged.same_index {a b : Group} (ha : a ∈ g.groups) (hb : b ∈ g.groups)
    (same : a.index = b.index) : a = b := by
  have : Std.Symm fun c d : Group => c.index ≠ d.index := ⟨fun _ _ => Ne.symm⟩
  by_contra different
  exact averaged.distinct.forall ha hb different same

theorem Averaged.exists_group {i : ℕ} (inside : i < points.length) :
    ∃ a ∈ g.groups, i ∈ a.members :=
  List.mem_flatMap.mp (averaged.parts.mem_iff.mpr (List.mem_range.mpr inside))

theorem Averaged.groupOf?_eq {a : Group} (ha : a ∈ g.groups) {i : ℕ} (member : i ∈ a.members) :
    g.groupOf? i = some a.index := by
  have present : (g.groups.find? fun c => c.members.contains i).isSome := by
    rw [List.find?_isSome]
    exact ⟨a, ha, List.contains_iff_mem.mpr member⟩
  obtain ⟨c, found⟩ := Option.isSome_iff_exists.mp present
  have hc := List.mem_of_find?_eq_some found
  have holds : i ∈ c.members := by simpa using List.find?_some found
  rw [Grouping.groupOf?, found, averaged.same_group hc ha holds member]
  rfl

/-- The points are assigned to the groups that they are in. -/
theorem Averaged.assignment {m : Merging K} (tracks : Tracks points.length m g) :
    m.assignment.toList.map some = groupLabels points g := by
  have sizes : m.assignment.toList.length = points.length :=
    Array.length_toList.trans tracks.assigned
  refine List.ext_getElem? fun i => ?_
  by_cases inside : i < points.length
  · obtain ⟨a, ha, member⟩ := averaged.exists_group inside
    have here := (tracks.members a ha i).mp member
    simp [groupLabels, inside, here, averaged.groupOf?_eq ha member]
  · rw [List.getElem?_eq_none (by simpa [sizes] using inside),
      List.getElem?_eq_none (by simpa [length_groupLabels] using inside)]

theorem Averaged.getElem?_groupLabels {i l : ℕ} :
    (groupLabels points g)[i]? = some (some l) ↔ ∃ a ∈ g.groups, i ∈ a.members ∧ a.index = l := by
  constructor
  · intro label
    obtain ⟨inside, here⟩ := List.getElem?_eq_some_iff.mp label
    obtain ⟨a, ha, member⟩ := averaged.exists_group (length_groupLabels.subst inside)
    simp only [groupLabels, List.getElem_map, List.getElem_range,
      averaged.groupOf?_eq ha member] at here
    exact ⟨a, ha, member, Option.some.inj here⟩
  · rintro ⟨a, ha, member, rfl⟩
    have inside := (averaged.placed ha).inside i member
    simp [groupLabels, inside, averaged.groupOf?_eq ha member]

theorem Averaged.sameLabel_iff {i j : ℕ} : SameLabel (groupLabels points g) i j ↔
    ∃ a ∈ g.groups, i ∈ a.members ∧ j ∈ a.members := by
  simp only [SameLabel, averaged.getElem?_groupLabels]
  constructor
  · rintro ⟨l, ⟨a, ha, hi, rfl⟩, b, hb, hj, same⟩
    obtain rfl := averaged.same_index hb ha same
    exact ⟨b, hb, hi, hj⟩
  · rintro ⟨a, ha, hi, hj⟩
    exact ⟨a.index, ⟨a, ha, hi, rfl⟩, a, ha, hj, rfl⟩

/-- The labels are the names of the groups. -/
theorem Averaged.names_perm : (names (groupLabels points g)).Perm (g.groups.map (·.index)) := by
  have distinct : (g.groups.map (·.index)).Nodup := List.pairwise_map.mpr averaged.distinct
  apply (List.perm_ext_iff_of_nodup (nodup_names _) distinct).mpr
  intro l
  rw [mem_names, List.mem_iff_getElem?, List.mem_map]
  simp only [averaged.getElem?_groupLabels]
  constructor
  · rintro ⟨i, a, ha, _, rfl⟩
    exact ⟨a, ha, rfl⟩
  · rintro ⟨a, ha, rfl⟩
    obtain ⟨i, hi⟩ := List.exists_mem_of_ne_nil _ (averaged.filled a ha)
    exact ⟨i, a, ha, hi, rfl⟩

theorem Averaged.labelled : ∀ l ∈ groupLabels points g, l ≠ none := by
  intro l hl
  obtain ⟨i, hi, rfl⟩ := List.mem_map.mp hl
  obtain ⟨a, ha, member⟩ := averaged.exists_group (List.mem_range.mp hi)
  rw [averaged.groupOf?_eq ha member]
  exact Option.some_ne_none _

end Partition

section Result

variable [Exact K] [Scalar.ConvexFinite K] {distance : Position K → Position K → K}
  {points : List (Position K)}

/-- Merging ends in as many clusters as asked for, which part the points. Each merge on the way
joins two groups at the least mean distance, and the table has the mean distances of all groups; it
is the table that is updated in place. -/
theorem agglomerate_merges {s : Signal} {k : ℕ} (finite : ∀ p ∈ points, p.isFinite = true)
    (measurable : FiniteDistances distance)
    (symm : ∀ {p q : Position K}, p.isFinite = true → q.isFinite = true →
      distance p q = distance q p)
    (least : 1 ≤ k) (most : k ≤ points.length) (quiet : s ≠ .triggered) :
    ∃ (final : Grouping K) (c : Clustering K),
      (singletons distance points).reduce s (points.length - k) = .ok final ∧
      Merges distance points (points.length - k) (singletons distance points) final ∧
      (∀ times ≤ points.length - k, ∃ m g,
        (Merging.start (singletons distance points).linkage.table).reduce s times = .ok m ∧
        (singletons distance points).reduce s times = .ok g ∧
        Tracks points.length m g ∧ Averaged distance points g) ∧
      agglomerate distance s points k = .ok c ∧
      c.clusters.length = k ∧ (∀ q ∈ c.clusters, q.members ≠ []) ∧
      (c.clusters.flatMap (·.members)).Perm (List.range points.length) ∧
      ∀ i j, (∃ q ∈ c.clusters, i ∈ q.members ∧ j ∈ q.members) ↔
        ∃ a ∈ final.groups, i ∈ a.members ∧ j ∈ a.members := by
  have single : (singletons distance points).groups.length = points.length := by simp [singletons]
  have runs {times : ℕ} (few : times ≤ points.length - k) :=
    averaged_singletons.reduce finite measurable symm quiet
      (show times < (singletons distance points).groups.length by omega)
  have tracks := tracks_singletons distance points
  obtain ⟨final, run, merges, averaged, count⟩ := runs le_rfl
  obtain ⟨m, inPlace, tracked⟩ := tracks.reduce run
  have covered : (groupLabels points final).length ≤ points.length := length_groupLabels.le
  have computed := agglomerate_eq_ok ⟨least, most⟩ finite quiet inPlace
  rw [averaged.assignment tracked] at computed
  have parts := clusters_perm covered averaged.labelled
  rw [length_groupLabels] at parts
  refine ⟨final, ofLabels points (groupLabels points final), run, merges, fun times few => ?_,
    computed, ?_, fun q hq => ?_, parts, fun i j => ?_⟩
  · obtain ⟨g, run, _, averaged, _⟩ := runs few
    obtain ⟨m, inPlace, tracked⟩ := tracks.reduce run
    exact ⟨m, g, inPlace, run, tracked, averaged⟩
  · have number := congrArg List.length (members_clusters covered)
    rw [List.length_map, List.length_map, averaged.names_perm.length_eq, List.length_map] at number
    omega
  · obtain ⟨l, known, members⟩ := exists_label_of_cluster hq
    obtain ⟨i, hi⟩ := List.mem_iff_getElem?.mp known
    exact members ▸ List.ne_nil_of_mem (mem_membersOf.mpr hi)
  · rw [together_ofLabels covered, averaged.sameLabel_iff]

end Result

/-- Two points near each other and one that is not. -/
noncomputable def trio : List (Position ℝ) := [⟨0, 0, none⟩, ⟨1, 0, none⟩, ⟨5, 0, none⟩]

theorem agglomerate_merges_trio : ∃ (final : Grouping ℝ) (c : Clustering ℝ),
    Merges ClusterMetric.manhattan.distance trio 1
      (singletons ClusterMetric.manhattan.distance trio) final ∧
    agglomerate ClusterMetric.manhattan.distance .absent trio 2 = .ok c ∧
    c.clusters.length = 2 ∧ (c.clusters.flatMap (·.members)).Perm (List.range 3) := by
  have finite : ∀ p ∈ trio, p.isFinite = true := by
    rintro ⟨x, y, z⟩ _
    cases z <;> rfl
  have measurable : FiniteDistances (ClusterMetric.manhattan.distance (K := ℝ)) := fun _ _ => rfl
  have quiet : Signal.absent ≠ .triggered := nofun
  obtain ⟨final, c, _, merges, _, computed, number, _, parts, _⟩ :=
    agglomerate_merges finite measurable (ClusterMetric.dissimilarity .manhattan).symm
      (show 1 ≤ 2 by decide) (show 2 ≤ trio.length by decide) quiet
  exact ⟨final, c, merges, computed, number, parts⟩

end Geospatial.Clustering
