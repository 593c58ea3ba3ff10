import Mathlib.Order.Lattice.Nat
import Geospatial.Proofs.Clustering

/-! The clusters that are made of labels, one by one. Labels are numbered in the order in which they
occur first, so that the clusters stand in the order of their smallest members, each at the place
that its number says. -/
namespace Geospatial.Clustering

section

variable {α : Type} {labels : List (Option α)} {l m : α}

/-- The first label occurs before the second one does, if that occurs at all. -/
def Leads (labels : List (Option α)) (l m : α) : Prop :=
  ∃ i : ℕ, labels[i]? = some (some l) ∧ ∀ j : ℕ, labels[j]? = some (some m) → i < j

theorem Leads.concat (leads : Leads labels l m) (next : Option α) :
    Leads (labels ++ [next]) l m := by
  obtain ⟨i, here, before⟩ := leads
  have inside := (List.getElem?_eq_some_iff.mp here).1
  refine ⟨i, by rw [List.getElem?_append_left inside, here], fun j there => ?_⟩
  by_cases early : j < labels.length
  · rw [List.getElem?_append_left early] at there
    exact before j there
  · omega

theorem leads_of_new (known : some l ∈ labels) (new : some m ∉ labels) :
    Leads (labels ++ [some m]) l m := by
  obtain ⟨i, here⟩ := List.mem_iff_getElem?.mp known
  have inside := (List.getElem?_eq_some_iff.mp here).1
  refine ⟨i, by rw [List.getElem?_append_left inside, here], fun j there => ?_⟩
  by_contra early
  rw [List.getElem?_append_left (by omega)] at there
  exact new (List.mem_of_getElem? there)

variable [BEq α] [LawfulBEq α]

/-- With each further label the names stay in the order in which they occur first. -/
theorem pairwise_names (labels : List (Option α)) : (names labels).Pairwise (Leads labels) := by
  -- from the end, as a new name is put behind the others
  induction labels using List.reverseRecOn with
  | nil => exact List.Pairwise.nil
  | append_singleton labels next ih =>
    have kept := ih.imp fun leads => leads.concat next
    cases next with
    | none => rwa [names_concat_none]
    | some l =>
      by_cases known : some l ∈ labels
      · rwa [names_concat_of_mem known]
      · rw [names_concat_of_not_mem known]
        refine List.pairwise_append.mpr ⟨kept, List.pairwise_singleton _ _, fun k hk m hm => ?_⟩
        rw [List.mem_singleton.mp hm]
        exact leads_of_new (mem_names.mp hk) known

/-- A numbered label has the places of the elements that carry it. -/
theorem label_ofLabels_iff {K : Type} [Scalar K] {points : List (Position K)} {i j : ℕ} :
    (ofLabels points labels).labels[j]? = some (some i) ↔
      ∃ l, (names labels)[i]? = some l ∧ j ∈ membersOf labels l := by
  rw [labels_ofLabels, Option.map_eq_some_iff]
  constructor
  · rintro ⟨l?, here, numbered⟩
    obtain ⟨l, rfl, numbered⟩ := Option.bind_eq_some_iff.mp numbered
    exact ⟨l, number_eq_iff.mp numbered, mem_membersOf.mpr here⟩
  · rintro ⟨l, named, member⟩
    exact ⟨some l, mem_membersOf.mp member, number_eq_iff.mpr named⟩

end

/-- Where nothing is left out, each place has what the element there gives. -/
theorem getElem?_filterMap_of_isSome {β γ : Type} {f : β → Option γ} {xs : List β}
    (all : ∀ x ∈ xs, (f x).isSome) (i : ℕ) : (xs.filterMap f)[i]? = xs[i]?.bind f := by
  induction xs generalizing i with
  | nil => simp
  | cons x xs ih =>
    obtain ⟨first, rest⟩ := List.forall_mem_cons.mp all
    obtain ⟨y, gives⟩ := Option.isSome_iff_exists.mp first
    rw [List.filterMap_cons_some gives]
    cases i with
    | zero => exact gives.symm
    | succ i => exact ih rest i

section

variable {α : Type} [BEq α] {labels : List (Option α)} {l : α} {i : ℕ}

/-- Members are listed in the order of the points. -/
theorem pairwise_membersOf (labels : List (Option α)) (l : α) :
    (membersOf labels l).Pairwise (· < ·) := by
  refine List.Pairwise.sublist (List.filter_sublist.map _) ?_
  rw [List.zipIdx_map_snd]
  exact List.pairwise_lt_range'

variable [LawfulBEq α] {K : Type} [Scalar K] {points : List (Position K)} {k : Cluster K}
  (covered : labels.length ≤ points.length)
include covered

omit [Scalar K] in
theorem isSome_of_mem_membersOf : ∀ i ∈ membersOf labels l, points[i]?.isSome := by
  intro i member
  have inside := (List.getElem?_eq_some_iff.mp (mem_membersOf.mp member)).1
  rw [List.getElem?_eq_getElem (inside.trans_le covered)]
  rfl

/-- Each name has its cluster, and that stands at the place of the name. -/
theorem clusters_getElem? (i : ℕ) : (ofLabels points labels).clusters[i]? =
    (names labels)[i]?.bind fun l => clusterOf? points i (membersOf labels l) := by
  have made : ∀ q ∈ (names labels).zipIdx,
      (clusterOf? points q.2 (membersOf labels q.1)).isSome := by
    intro q hq
    have known := List.mem_of_getElem? (List.mem_zipIdx_iff_getElem?.mp hq)
    obtain ⟨k, made, _⟩ := exists_clusterOf?_of_name covered known q.2
    exact Option.isSome_iff_exists.mpr ⟨k, made⟩
  have listed : (ofLabels points labels).clusters =
      (names labels).zipIdx.filterMap fun q => clusterOf? points q.2 (membersOf labels q.1) := by
    rw [ofLabels_eq]
  rw [listed, getElem?_filterMap_of_isSome made, List.getElem?_zipIdx, Nat.zero_add]
  cases (names labels)[i]? <;> rfl

theorem exists_name_of_cluster (here : (ofLabels points labels).clusters[i]? = some k) :
    ∃ l, (names labels)[i]? = some l ∧ k.id = i ∧ k.members = membersOf labels l ∧
      k.positions = (membersOf labels l).filterMap fun i => points[i]? := by
  rw [clusters_getElem? covered] at here
  obtain ⟨l, named, made⟩ := Option.bind_eq_some_iff.mp here
  obtain ⟨_, _, rfl⟩ := Option.map_eq_some_iff.mp made
  exact ⟨l, named, rfl, rfl, rfl⟩

theorem exists_cluster_of_name (named : (names labels)[i]? = some l) :
    ∃ k, (ofLabels points labels).clusters[i]? = some k ∧ k.members = membersOf labels l := by
  obtain ⟨k, made, members⟩ :=
    exists_clusterOf?_of_name covered (List.mem_of_getElem? named) i
  exact ⟨k, by rw [clusters_getElem? covered, named, Option.bind_some, made], members⟩

/-- The positions of a cluster are those of its members. -/
theorem map_some_positions (here : (ofLabels points labels).clusters[i]? = some k) :
    k.positions.map some = k.members.map fun j => points[j]? := by
  obtain ⟨l, -, -, members, positions⟩ := exists_name_of_cluster covered here
  have all := isSome_of_mem_membersOf (l := l) covered
  rw [members, positions]
  apply List.ext_getElem?
  intro n
  rw [List.getElem?_map, List.getElem?_map, getElem?_filterMap_of_isSome all]
  cases member : (membersOf labels l)[n]? with
  | none => rfl
  | some j =>
    obtain ⟨p, there⟩ := Option.isSome_iff_exists.mp (all j (List.mem_of_getElem? member))
    simp [there]

theorem exists_isLeast_members (here : (ofLabels points labels).clusters[i]? = some k) :
    ∃ n, IsLeast {j | j ∈ k.members} n := by
  obtain ⟨l, named, -, members, -⟩ := exists_name_of_cluster covered here
  obtain ⟨j, there⟩ := List.mem_iff_getElem?.mp (mem_names.mp (List.mem_of_getElem? named))
  exact ⟨_, isLeast_csInf ⟨j, members ▸ mem_membersOf.mpr there⟩⟩

/-- The smallest members of the clusters rise, as their names do. -/
theorem least_lt_least {i' n n' : ℕ} {k' : Cluster K} (later : i < i')
    (here : (ofLabels points labels).clusters[i]? = some k)
    (here' : (ofLabels points labels).clusters[i']? = some k')
    (least : IsLeast {j | j ∈ k.members} n) (least' : IsLeast {j | j ∈ k'.members} n') :
    n < n' := by
  obtain ⟨l, named, -, members, -⟩ := exists_name_of_cluster covered here
  obtain ⟨l', named', -, members', -⟩ := exists_name_of_cluster covered here'
  obtain ⟨inside, same⟩ := List.getElem?_eq_some_iff.mp named
  obtain ⟨inside', same'⟩ := List.getElem?_eq_some_iff.mp named'
  have leads := List.pairwise_iff_getElem.mp (pairwise_names labels) i i' inside inside' later
  rw [same, same'] at leads
  obtain ⟨j, first, before⟩ := leads
  have low : n ≤ j := least.2 (show j ∈ k.members from members ▸ mem_membersOf.mpr first)
  have member : n' ∈ k'.members := least'.1
  rw [members', mem_membersOf] at member
  exact low.trans_lt (before n' member)

theorem labelled_iff_member {j : ℕ} : (ofLabels points labels).labels[j]? = some (some i) ↔
    ∃ k, (ofLabels points labels).clusters[i]? = some k ∧ j ∈ k.members := by
  rw [label_ofLabels_iff]
  constructor
  · rintro ⟨l, named, member⟩
    obtain ⟨k, here, members⟩ := exists_cluster_of_name covered named
    exact ⟨k, here, members ▸ member⟩
  · rintro ⟨k, here, member⟩
    obtain ⟨l, named, -, members, -⟩ := exists_name_of_cluster covered here
    exact ⟨l, named, members ▸ member⟩

end

/-- Labels come out grouped as they went in, with the same points unlabelled. The clusters are
numbered by their places, in the order of their smallest members; each lists its members in the
order of the points and the positions of just these, and the points with its number are its members.
-/
theorem ofLabels_numbers {α : Type} [BEq α] [LawfulBEq α] {K : Type} [Scalar K]
    (points : List (Position K)) (labels : List (Option α))
    (paired : points.length = labels.length) :
    let c := ofLabels points labels
    (∀ i : ℕ, c.labels[i]? = some none ↔ labels[i]? = some none) ∧
      (∀ i j, SameLabel c.labels i j ↔ SameLabel labels i j) ∧
      (∀ (i : ℕ) k, c.clusters[i]? = some k → k.id = i ∧ k.members.Pairwise (· < ·) ∧
        k.positions.map some = k.members.map fun j => points[j]?) ∧
      (∀ (i : ℕ) k, c.clusters[i]? = some k → ∃ n, IsLeast {j | j ∈ k.members} n ∧
        ∀ (i' : ℕ) k' n', i < i' → c.clusters[i']? = some k' →
          IsLeast {j | j ∈ k'.members} n' → n < n') ∧
      ∀ i j : ℕ, c.labels[j]? = some (some i) ↔ ∃ k, c.clusters[i]? = some k ∧ j ∈ k.members := by
  intro c
  have covered := paired.ge
  have alike := alike_ofLabels points labels
  refine ⟨alike.unlabelled, alike.labelled, fun i k here => ?_, fun i k here => ?_,
    fun i j => labelled_iff_member covered⟩
  · obtain ⟨l, -, number, members, -⟩ := exists_name_of_cluster covered here
    exact ⟨number, members ▸ pairwise_membersOf labels l, map_some_positions covered here⟩
  · obtain ⟨n, least⟩ := exists_isLeast_members covered here
    exact ⟨n, least, fun i' k' n' later here' => least_lt_least covered later here here' least⟩

/-- Sparse labels in no order, with one point unlabelled. -/
theorem ofLabels_numbers_sparse :
    let points : List (Position Float) := [⟨0, 0, none⟩, ⟨5, 5, none⟩, ⟨9, 9, none⟩, ⟨0, 1, none⟩]
    let labels := [some 7, none, some 3, some 7]
    points.length = labels.length ∧
      (∃ k, (ofLabels points labels).clusters[0]? = some k ∧ 3 ∈ k.members ∧
        k.positions.map some = k.members.map fun j => points[j]?) ∧
      ¬SameLabel (ofLabels points labels).labels 0 2 ∧
      (ofLabels points labels).labels[1]? = some none := by
  intro points labels
  obtain ⟨unlabelled, grouped, each, -, members⟩ := ofLabels_numbers points labels rfl
  refine ⟨rfl, ?_, fun same => ?_, (unlabelled 1).mpr rfl⟩
  · obtain ⟨k, here, member⟩ := (members 0 3).mp (by decide)
    exact ⟨k, here, member, (each 0 k here).2.2⟩
  · obtain ⟨l, first, third⟩ := (grouped 0 2).mp same
    simp [labels] at first third
    omega

end Geospatial.Clustering
