import Mathlib.Data.List.Nodup
import Mathlib.Logic.Equiv.Defs
import Geospatial.Proofs.Clustering.Renumbering

/-! Clusterings made of labels: what they keep of the labels is which elements have the same one
and which have none. Lists in another order are told by a renaming of the places. -/
namespace Geospatial

section Rearranged

variable {α : Type} {σ : Equiv.Perm ℕ} {before after : List α}

/-- Each place `i` of `after` has the element at the place `σ i` of `before`. -/
def Rearranged (σ : Equiv.Perm ℕ) (before after : List α) : Prop :=
  ∀ i, after[i]? = before[σ i]?

/-- An element at its place before the list was rearranged. -/
def placed (σ : Equiv.Perm ℕ) (p : α × ℕ) : α × ℕ := (p.1, σ p.2)

@[simp]
theorem placed_placed_symm (σ : Equiv.Perm ℕ) (p : α × ℕ) : placed σ (placed σ.symm p) = p := by
  simp [placed]

theorem placed_surjective (σ : Equiv.Perm ℕ) : Function.Surjective (placed (α := α) σ) :=
  fun p => ⟨placed σ.symm p, placed_placed_symm σ p⟩

theorem placed_injective (σ : Equiv.Perm ℕ) : Function.Injective (placed (α := α) σ) := by
  rintro ⟨p, i⟩ ⟨q, j⟩ same
  simpa [placed] using same

namespace Rearranged

theorem symm (h : Rearranged σ before after) : Rearranged σ.symm after before := by
  intro i
  rw [h, σ.apply_symm_apply]

theorem perm (h : Rearranged σ before after) : after.Perm before := by
  have nodup (xs : List α) : xs.zipIdx.Nodup := by
    refine List.Nodup.of_map (·.2) ?_
    rw [List.zipIdx_map_snd]
    exact List.nodup_range'
  have places : (after.zipIdx.map (placed σ)).Perm before.zipIdx := by
    refine (List.perm_ext_iff_of_nodup ((nodup after).map (placed_injective σ)) (nodup before)).mpr
      fun p => ?_
    rw [← placed_placed_symm σ p, List.mem_map_of_injective (placed_injective σ),
      placed_placed_symm, List.mem_zipIdx_iff_getElem?, List.mem_zipIdx_iff_getElem?, placed, h,
      σ.apply_symm_apply]
  have elements := places.map Prod.fst
  rwa [List.map_map, show Prod.fst ∘ placed (α := α) σ = Prod.fst from rfl, List.zipIdx_map_fst,
    List.zipIdx_map_fst] at elements

end Rearranged
end Rearranged

namespace Clustering

variable {α β : Type}

def SameLabel (labels : List (Option α)) (i j : ℕ) : Prop :=
  ∃ l, labels[i]? = some (some l) ∧ labels[j]? = some (some l)

/-- The labels of `after` group their places as those of `before` do, when each place `i` of
`after` stands for the place `σ i` of `before`. -/
structure Alike (σ : Equiv.Perm ℕ) (before : List (Option α)) (after : List (Option β)) : Prop where
  unlabelled : ∀ i, after[i]? = some none ↔ before[σ i]? = some none
  labelled : ∀ i j, SameLabel after i j ↔ SameLabel before (σ i) (σ j)

theorem Alike.symm {σ : Equiv.Perm ℕ} {before : List (Option α)} {after : List (Option β)}
    (alike : Alike σ before after) : Alike σ.symm after before where
  unlabelled i := by rw [alike.unlabelled, σ.apply_symm_apply]
  labelled i j := by rw [alike.labelled, σ.apply_symm_apply, σ.apply_symm_apply]

/-- Indices of the elements that pass a test, each of them once. -/
theorem nodup_zipIdx_filter (p : α × ℕ → Bool) (xs : List α) :
    ((xs.zipIdx.filter p).map (·.2)).Nodup := by
  refine (List.filter_sublist.map _).nodup ?_
  rw [List.zipIdx_map_snd]
  exact List.nodup_range'

/-- A renaming of places takes one list of distinct places to another. -/
theorem map_perm_of_mem_iff {σ : Equiv.Perm ℕ} {xs ys : List ℕ} (hx : xs.Nodup) (hy : ys.Nodup)
    (same : ∀ i, i ∈ xs ↔ σ i ∈ ys) : (xs.map σ).Perm ys := by
  refine (List.perm_ext_iff_of_nodup (hx.map σ.injective) hy).mpr fun j => ?_
  rw [← σ.apply_symm_apply j, ← same, List.mem_map_of_injective σ.injective]

variable [BEq α] [LawfulBEq α] {labels : List (Option α)} {l : α} {i : ℕ}

omit [LawfulBEq α] in
theorem nodup_membersOf (labels : List (Option α)) (l : α) : (membersOf labels l).Nodup :=
  nodup_zipIdx_filter _ labels

variable {K : Type} [Scalar K] {points : List (Position K)}

omit [Scalar K] in
theorem mem_noise {c : Clustering K} : i ∈ c.noise ↔ c.labels[i]? = some none := by
  simp [noise, List.mem_zipIdx_iff_getElem?]

theorem labels_ofLabels (points : List (Position K)) (labels : List (Option α)) (i : ℕ) :
    (ofLabels points labels).labels[i]? = labels[i]?.map fun l => l.bind (numberOf? labels) := by
  rw [ofLabels_eq, List.getElem?_map]

/-- Numbering the clusters changes the labels and not what they group. -/
theorem alike_ofLabels (points : List (Position K)) (labels : List (Option α)) :
    Alike (Equiv.refl ℕ) labels (ofLabels points labels).labels where
  unlabelled i := by
    rw [labels_ofLabels, Equiv.refl_apply]
    cases found : labels[i]? with
    | none => simp
    | some l? =>
      cases l? with
      | none => simp
      | some l =>
        obtain ⟨k, number⟩ := exists_number (List.mem_of_getElem? found)
        simp [number]
  labelled i j := by
    simp only [SameLabel, labels_ofLabels, Equiv.refl_apply]
    constructor
    · rintro ⟨k, hi, hj⟩
      obtain ⟨a, ha, hi⟩ := Option.map_eq_some_iff.mp hi
      obtain ⟨b, hb, hj⟩ := Option.map_eq_some_iff.mp hj
      obtain ⟨l, rfl, first⟩ := Option.bind_eq_some_iff.mp hi
      obtain ⟨l', rfl, second⟩ := Option.bind_eq_some_iff.mp hj
      obtain rfl := number_injective first second
      exact ⟨l, ha, hb⟩
    · rintro ⟨l, hi, hj⟩
      obtain ⟨k, number⟩ := exists_number (List.mem_of_getElem? hi)
      exact ⟨k, by simp [hi, number], by simp [hj, number]⟩

theorem exists_label_of_cluster {k : Cluster K} (here : k ∈ (ofLabels points labels).clusters) :
    ∃ l, some l ∈ labels ∧ k.members = membersOf labels l := by
  rw [ofLabels_eq] at here
  obtain ⟨⟨l, n⟩, hl, made⟩ := List.mem_filterMap.mp here
  obtain ⟨_, _, rfl⟩ := Option.map_eq_some_iff.mp made
  have known : l ∈ names labels := List.mem_of_getElem? (List.mem_zipIdx_iff_getElem?.mp hl)
  exact ⟨l, mem_names.mp known, rfl⟩

omit [LawfulBEq α] [BEq α] in
/-- Members that are there have a mean, and so they are a cluster. -/
theorem exists_clusterOf? {members : List ℕ} {p : Position K} (member : i ∈ members)
    (here : points[i]? = some p) (n : ℕ) :
    ∃ k, clusterOf? points n members = some k ∧ k.members = members := by
  have filled : members.filterMap (fun i => points[i]?) ≠ [] :=
    List.ne_nil_of_mem (List.mem_filterMap.mpr ⟨i, member, here⟩)
  simp [clusterOf?, Position.mean?, filled]

theorem exists_clusterOf?_of_name (covered : labels.length ≤ points.length)
    (known : l ∈ names labels) (n : ℕ) :
    ∃ k, clusterOf? points n (membersOf labels l) = some k ∧ k.members = membersOf labels l := by
  obtain ⟨i, hi⟩ := List.mem_iff_getElem?.mp (mem_names.mp known)
  have inside : i < points.length :=
    Nat.lt_of_lt_of_le (List.getElem?_eq_some_iff.mp hi).1 covered
  exact exists_clusterOf? (mem_membersOf.mpr hi) (List.getElem?_eq_getElem inside) n

theorem exists_cluster_of_label (covered : labels.length ≤ points.length)
    (known : some l ∈ labels) :
    ∃ k ∈ (ofLabels points labels).clusters, k.members = membersOf labels l := by
  obtain ⟨n, numbered⟩ := List.mem_iff_getElem?.mp (mem_names.mpr known)
  obtain ⟨k, made, members⟩ := exists_clusterOf?_of_name covered (mem_names.mpr known) n
  rw [ofLabels_eq]
  refine ⟨k, List.mem_filterMap.mpr ⟨(l, n), ?_, made⟩, members⟩
  exact List.mem_zipIdx_iff_getElem?.mpr numbered

/-- Each label has its cluster. -/
theorem members_clusters (covered : labels.length ≤ points.length) :
    (ofLabels points labels).clusters.map (·.members) = (names labels).map (membersOf labels) := by
  have each : ∀ q ∈ (names labels).zipIdx,
      (clusterOf? points q.2 (membersOf labels q.1)).map (·.members) =
        some (membersOf labels q.1) := by
    intro q hq
    have known : q.1 ∈ names labels := List.mem_of_getElem? (List.mem_zipIdx_iff_getElem?.mp hq)
    obtain ⟨k, made, members⟩ := exists_clusterOf?_of_name covered known q.2
    rw [made, Option.map_some, members]
  calc (ofLabels points labels).clusters.map (·.members)
    _ = (names labels).zipIdx.map fun q => membersOf labels q.1 := by
      rw [ofLabels_eq, List.map_filterMap]
      exact List.filterMap_eq_map_iff_forall_eq_some.mpr each
    _ = ((names labels).zipIdx.map Prod.fst).map (membersOf labels) := by rw [List.map_map]; rfl
    _ = (names labels).map (membersOf labels) := by rw [List.zipIdx_map_fst]

/-- Labels that each place has part the places. -/
theorem clusters_perm (covered : labels.length ≤ points.length)
    (labelled : ∀ l ∈ labels, l ≠ none) :
    ((ofLabels points labels).clusters.flatMap (·.members)).Perm (List.range labels.length) := by
  rw [List.flatMap_def, members_clusters covered, ← List.flatMap_def]
  have apart : (names labels).Pairwise (Function.onFun List.Disjoint (membersOf labels)) := by
    apply (nodup_names labels).imp
    intro l m different i hl hm
    have same := (mem_membersOf.mp hl).symm.trans (mem_membersOf.mp hm)
    exact different (Option.some.inj (Option.some.inj same))
  have nodup := List.nodup_flatMap.mpr ⟨fun l _ => nodup_membersOf labels l, apart⟩
  apply (List.perm_ext_iff_of_nodup nodup List.nodup_range).mpr
  intro i
  rw [List.mem_flatMap, List.mem_range]
  constructor
  · rintro ⟨l, _, hi⟩
    exact (List.getElem?_eq_some_iff.mp (mem_membersOf.mp hi)).1
  · intro inside
    have here := List.getElem?_eq_getElem inside
    obtain ⟨l, known⟩ := Option.ne_none_iff_exists'.mp (labelled _ (List.getElem_mem inside))
    rw [known] at here
    exact ⟨l, mem_names.mpr (List.mem_of_getElem? here), mem_membersOf.mpr here⟩

/-- Places share a cluster when they have the same label. -/
theorem together_ofLabels (covered : labels.length ≤ points.length) (i j : ℕ) :
    (∃ k ∈ (ofLabels points labels).clusters, i ∈ k.members ∧ j ∈ k.members) ↔
      SameLabel labels i j := by
  constructor
  · rintro ⟨k, hk, hi, hj⟩
    obtain ⟨l, _, members⟩ := exists_label_of_cluster hk
    rw [members, mem_membersOf] at hi hj
    exact ⟨l, hi, hj⟩
  · rintro ⟨l, hi, hj⟩
    obtain ⟨k, hk, members⟩ := exists_cluster_of_label covered (List.mem_of_getElem? hi)
    rw [← mem_membersOf, ← members] at hi hj
    exact ⟨k, hk, hi, hj⟩

/-- Alike labels have the same members, up to the names of the places and of the labels. -/
theorem Alike.membersOf_perm {β : Type} [BEq β] [LawfulBEq β] {σ : Equiv.Perm ℕ}
    {before : List (Option α)} {after : List (Option β)} (alike : Alike σ before after) {l : β}
    (known : some l ∈ after) :
    ∃ m, some m ∈ before ∧ ((membersOf after l).map σ).Perm (membersOf before m) := by
  obtain ⟨i, hi⟩ := List.mem_iff_getElem?.mp known
  obtain ⟨m, hm, _⟩ := (alike.labelled i i).mp ⟨l, hi, hi⟩
  refine ⟨m, List.mem_of_getElem? hm, ?_⟩
  apply map_perm_of_mem_iff (nodup_membersOf after l) (nodup_membersOf before m)
  intro j
  have same := alike.labelled i j
  simp only [SameLabel, hi, hm, Option.some.injEq, exists_eq_left'] at same
  rw [mem_membersOf, mem_membersOf, same]

/-- The clusters and the noise of `after` are those of `before`, in any order and numbered in any
way, when each place `i` of `after` stands for the place `σ i` of `before`. -/
structure SamePartition (σ : Equiv.Perm ℕ) (before after : Clustering K) : Prop where
  noise : (after.noise.map σ).Perm before.noise
  forth : ∀ k ∈ after.clusters, ∃ m ∈ before.clusters, (k.members.map σ).Perm m.members
  back : ∀ m ∈ before.clusters, ∃ k ∈ after.clusters, (k.members.map σ).Perm m.members
  labels : Alike σ before.labels after.labels

theorem samePartition_ofLabels {β : Type} [BEq β] [LawfulBEq β] {σ : Equiv.Perm ℕ}
    {points' : List (Position K)} {before : List (Option α)} {after : List (Option β)}
    (alike : Alike σ before after) (covered : before.length ≤ points.length)
    (covered' : after.length ≤ points'.length) :
    SamePartition σ (ofLabels points before) (ofLabels points' after) := by
  have old := alike_ofLabels points before
  have new := alike_ofLabels points' after
  have labels : Alike σ (ofLabels points before).labels (ofLabels points' after).labels := {
    unlabelled := fun i => by
      rw [new.unlabelled, Equiv.refl_apply, alike.unlabelled, old.unlabelled, Equiv.refl_apply]
    labelled := fun i j => by
      rw [new.labelled, Equiv.refl_apply, Equiv.refl_apply, alike.labelled, old.labelled,
        Equiv.refl_apply, Equiv.refl_apply] }
  refine ⟨?_, ?_, ?_, labels⟩
  · apply map_perm_of_mem_iff (nodup_zipIdx_filter _ _) (nodup_zipIdx_filter _ _)
    intro i
    exact mem_noise.trans ((labels.unlabelled i).trans mem_noise.symm)
  · intro k hk
    obtain ⟨l, known, members⟩ := exists_label_of_cluster hk
    obtain ⟨m, known', perm⟩ := alike.membersOf_perm known
    obtain ⟨c, hc, members'⟩ := exists_cluster_of_label covered known'
    exact ⟨c, hc, by rwa [members, members']⟩
  · intro c hc
    obtain ⟨m, known, members⟩ := exists_label_of_cluster hc
    obtain ⟨l, known', perm⟩ := alike.symm.membersOf_perm known
    obtain ⟨k, hk, members'⟩ := exists_cluster_of_label covered' known'
    refine ⟨k, hk, ?_⟩
    have back := perm.symm.map σ
    rw [List.map_map, σ.self_comp_symm, List.map_id] at back
    rwa [members, members']

end Clustering
end Geospatial
