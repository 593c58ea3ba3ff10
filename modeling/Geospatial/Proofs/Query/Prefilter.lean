import Mathlib.Data.List.Sort
import Geospatial.Query
import Geospatial.Proofs.Index.Run
import Geospatial.Proofs.Relation.Laws

/-! An index over the features changes no answer. The features that it finds are those whose
boxes meet the box of the query, in their own order, and no relation that the index is asked
about holds for any other feature. -/
namespace Geospatial.Query

variable {K : Type}

/-- The features that have boxes, with their places. -/
def slots [Scalar K] (features : List (Feature K)) : List (Slot K) :=
  features.zipIdx.filterMap fun (f, i) => f.geometry.bounds?.map (Slot.mk i)

section

variable [Scalar K] [Scalar.LawfulOrder K] {α : Type} [Bounded K α]

theorem sound_of_foldlM {t t' : Index K α} (sound : t.Sound) {xs : List α}
    (stored : xs.foldlM Index.insert t = (.ok t' : Outcome K _)) :
    t'.Sound ∧ t'.items = t.items + xs := by
  induction xs generalizing t with
  | nil =>
    obtain rfl := Except.ok.inj stored
    exact ⟨sound, (add_zero _).symm⟩
  | cons x xs ih =>
    rw [List.foldlM_cons] at stored
    cases one : t.insert x with
    | error f =>
      rw [one] at stored
      contradiction
    | ok u =>
      rw [one] at stored
      obtain ⟨soundOne, _, added⟩ := sound.insert one
      obtain ⟨soundAll, all⟩ := ih soundOne stored
      refine ⟨soundAll, ?_⟩
      rw [all, added, Multiset.cons_add, ← Multiset.add_cons, Multiset.cons_coe]

end

variable [Scalar K]

theorem pairwise_slots (features : List (Feature K)) :
    (slots features).Pairwise fun s s' => s.index < s'.index := by
  have places : features.zipIdx.Pairwise fun x y => x.2 < y.2 := by
    rw [← List.pairwise_map (f := Prod.snd) (R := (· < ·)), List.zipIdx_map_snd]
    exact List.pairwise_lt_range'
  apply places.filterMap
  rintro ⟨f, i⟩ ⟨g, j⟩ before s hs s' hs'
  obtain ⟨b, _, rfl⟩ := Option.map_eq_some_iff.mp hs
  obtain ⟨b', _, rfl⟩ := Option.map_eq_some_iff.mp hs'
  exact before

theorem filterMap_slots (features : List (Feature K)) (p : Bounds K → Bool) :
    (((slots features).filter fun s => p s.bounds).map (·.index)).filterMap
        (fun i => features.toArray[i]?) =
      features.filter fun f => f.geometry.bounds?.any p := by
  rw [slots, List.filterMap_map, List.filterMap_filter, List.filterMap_filterMap]
  conv_rhs => rw [← List.zipIdx_map_fst 0 features, ← List.filterMap_eq_filter, List.filterMap_map]
  apply List.filterMap_congr
  rintro ⟨f, i⟩ here
  have place : features[i]? = some f := List.mem_zipIdx_iff_getElem?.mp here
  cases box : f.geometry.bounds? with
  | none => simp [box, Option.guard]
  | some b => simp [box, Option.guard, place]

/-- Sorting the places of some slots, whatever order they were found in, gives the features
back in their order. -/
theorem filterMap_sort_slots (features : List (Feature K)) (p : Bounds K → Bool)
    {found : List (Slot K)} (same : found.Perm ((slots features).filter fun s => p s.bounds)) :
    (Order.sort compare (found.map (·.index))).filterMap (fun i => features.toArray[i]?) =
      features.filter fun f => f.geometry.bounds?.any p := by
  have ascending : (((slots features).filter fun s => p s.bounds).map (·.index)).Pairwise (· ≤ ·) :=
    List.pairwise_map.mpr (((pairwise_slots features).filter _).imp Nat.le_of_lt)
  have sorted : (Order.sort compare (found.map (·.index))).Pairwise (· ≤ ·) :=
    (Order.sort_pairwise compare _).imp Nat.isLE_compare.mp
  have places : Order.sort compare (found.map (·.index)) =
      ((slots features).filter fun s => p s.bounds).map (·.index) :=
    ((Order.sort_perm compare _).trans (same.map _)).eq_of_pairwise' sorted ascending
  rw [places, filterMap_slots]

variable [Scalar.LawfulOrder K]

/-- What the index finds for a box is what a look at every feature finds. -/
theorem found_eq_filter {features : List (Feature K)} {t : Index K (Slot K)}
    (indexed : indexFeatures features = .ok t) {box : Bounds K} (finite : box.isFinite = true) :
    found features t box = features.filter fun f => f.geometry.bounds?.any (·.intersects box) := by
  obtain ⟨sound, stored⟩ := sound_of_foldlM Index.sound_empty indexed
  apply filterMap_sort_slots
  apply Multiset.coe_eq_coe.mp
  have nothing : (Index.empty : Index K (Slot K)).items = 0 := rfl
  rw [sound.coe_search finite, stored, nothing, zero_add, Multiset.filter_coe]
  simp only [Bounded.bounds?, Option.any_some, Bool.decide_eq_true]
  rfl

omit [Scalar.LawfulOrder K] in
theorem candidates_none (q : Query K) (features : List (Feature K)) :
    q.candidates features none = features := by
  unfold candidates
  split
  · rfl
  · cases q.geometry <;> rfl

/-- The features that the index leaves out fail the spatial filter. -/
theorem candidates_filter {features : List (Feature K)} {t : Index K (Slot K)}
    (indexed : indexFeatures features = .ok t) {q : Query K}
    (finite : ∀ g ∈ q.geometry, ∃ box ∈ g.bounds?, box.isFinite = true) (p : Feature K → Bool) :
    (q.candidates features (some t)).filter (fun f => q.admits f && p f) =
      features.filter fun f => q.admits f && p f := by
  unfold candidates
  split
  · rfl
  · rename_i apart
    have joint : q.relation.getD .intersects ≠ .disjoint := by
      cases relation : q.relation with
      | none => exact nofun
      | some r =>
        rintro rfl
        exact apart (by rw [relation, beq_self_eq_true])
    cases asked : q.geometry with
    | none => rfl
    | some g =>
      obtain ⟨box, has, finite⟩ := finite g asked
      rw [Option.mem_def] at has
      simp only [has]
      rw [found_eq_filter indexed finite, List.filter_filter]
      -- A feature that is admitted passes the box test, so that test drops out.
      apply List.filter_congr
      intro f _
      cases admitted : q.admits f with
      | false => rfl
      | true =>
        rw [admits, asked] at admitted
        rw [Geometry.boxes_meet_of_relate has joint admitted, Bool.and_true]

/-- A query with an index over the features has the outcome of a query without one, be it
records in their order or a fault. -/
theorem execute_indexFeatures {features : List (Feature K)} {t : Index K (Slot K)}
    (indexed : indexFeatures features = .ok t) (q : Query K)
    (finite : ∀ g ∈ q.geometry, ∃ box ∈ g.bounds?, box.isFinite = true) :
    q.execute features (some t) = q.execute features none := by
  have matching (p : Feature K → Bool) :
      (q.candidates features (some t)).filter (fun f => q.admits f && p f) =
        (q.candidates features none).filter fun f => q.admits f && p f := by
    rw [candidates_none]
    exact candidates_filter indexed finite p
  unfold execute
  simp only [matching]

/-- Two of four features lie in a square, one of them on its boundary; one has no positions. -/
theorem execute_indexFeatures_square :
    let features : List (Feature Float) := [{ geometry := .point ⟨9, 9, none⟩ },
      { geometry := .collection [] }, { geometry := .point ⟨1, 1, none⟩ },
      { geometry := .point ⟨2, 0, none⟩ }]
    let square : Path Float :=
      [⟨0, 0, none⟩, ⟨2, 0, none⟩, ⟨2, 2, none⟩, ⟨0, 2, none⟩, ⟨0, 0, none⟩]
    let q : Query Float := { geometry := some (.polygon [square]), relation := some .within }
    ∃ t, indexFeatures features = .ok t ∧ q.execute features (some t) = q.execute features none ∧
      (q.execute features none).toOption.map List.length = some 2 := by
  intro features square q
  have finite : ∀ g ∈ q.geometry, ∃ box ∈ g.bounds?, box.isFinite = true := by
    intro g hg
    obtain rfl := Option.some.inj hg
    exact ⟨_, rfl, by decide +kernel⟩
  cases indexed : indexFeatures features with
  | error f =>
    have passed : (indexFeatures features).isOk = true := by decide +kernel
    rw [indexed] at passed
    contradiction
  | ok t => exact ⟨t, rfl, execute_indexFeatures indexed q finite, by decide +kernel⟩

end Geospatial.Query
