import Mathlib.Data.Fintype.Fin
import Mathlib.Data.List.FinRange
import Mathlib.Tactic.IntervalCases
import Geospatial.Proofs.Clustering.Dbscan

/-! Clusters by density against their definition, which knows the places of the points alone. A
point is a core if enough points lie within reach of it, itself counted. Chains of cores within
reach of each other make up the clusters, and any other point goes with a core that is nearest to
it. The distance need only be symmetric. -/
namespace Geospatial.Clustering

variable {K : Type} [Scalar K]

section Definition

variable (distance : Position K → Position K → K) (d : Density K) (points : List (Position K))

abbrev Near (i j : Fin points.length) : Prop := distance points[i] points[j] ≤ d.reach

/-- Enough points are near, the point itself among them. -/
def Core (i : Fin points.length) : Prop :=
  d.leastCount ≤ (Finset.univ.filter (Near distance d points i)).card

/-- A chain of cores, each one near the next. -/
abbrev Chained : Fin points.length → Fin points.length → Prop :=
  Relation.ReflTransGen fun i j =>
    Core distance d points i ∧ Core distance d points j ∧ Near distance d points i j

/-- A near core, none of which is at a lesser distance. -/
structure NearestCore (i j : Fin points.length) : Prop where
  core : Core distance d points j
  near : Near distance d points i j
  least : ∀ k, Core distance d points k → Near distance d points i k →
    distance points[i] points[j] ≤ distance points[i] points[k]

/-- The labels, and the clusters with them, are as the definition has them. -/
structure ByDensity (c : Clustering K) : Prop where
  covers : c.labels.length = points.length
  clusters (i j : ℕ) :
    (∃ k ∈ c.clusters, i ∈ k.members ∧ j ∈ k.members) ↔ SameLabel c.labels i j
  cores {i j : Fin points.length} : Core distance d points i → Core distance d points j →
    (SameLabel c.labels i j ↔ Chained distance d points i j)
  nearest {i : Fin points.length} : ¬Core distance d points i → c.labels[i.val]? ≠ some none →
    ∃ j, NearestCore distance d points i j ∧ SameLabel c.labels i j
  noise {i : Fin points.length} : ¬Core distance d points i →
    (c.labels[i.val]? = some none ↔ ∀ j, Core distance d points j → ¬Near distance d points i j)

/-- A point with its place. -/
def placeOf (i : Fin points.length) : Position K × ℕ := (points[i], i)

end Definition

variable {distance : Position K → Position K → K} {d : Density K} {points : List (Position K)}
  {i j : Fin points.length}

omit [Scalar K] in
theorem placeOf_injective : Function.Injective (placeOf points) :=
  fun _ _ same => Fin.ext (congrArg Prod.snd same)

theorem isCore_iff : isCore distance d points points[i] = true ↔ Core distance d points i := by
  have counted := congrArg (List.countP fun q => decide (distance points[i] q ≤ d.reach))
    (List.map_getElem_finRange points)
  rw [List.countP_map, List.countP_eq_length_filter] at counted
  rw [isCore, ← counted]
  exact decide_eq_true_iff

theorem placeOf_mem_cores :
    placeOf points i ∈ cores distance d points ↔ Core distance d points i := by
  rw [mem_cores, ← isCore_iff]
  exact and_iff_right (List.getElem?_eq_getElem i.isLt)

theorem exists_place {c : Position K × ℕ} (hc : c ∈ cores distance d points) :
    ∃ i, placeOf points i = c := by
  obtain ⟨inside, here⟩ := List.getElem?_eq_some_iff.mp (mem_cores.mp hc).1
  exact ⟨⟨c.2, inside⟩, Prod.ext here rfl⟩

theorem linked_placeOf :
    linked distance d (placeOf points i) (placeOf points j) = true ↔ Near distance d points i j :=
  decide_eq_true_iff

/-- Chains of cores are chains of places. -/
theorem connected_iff_chained :
    Connected distance d points (placeOf points i) (placeOf points j) ↔
      Chained distance d points i j := by
  constructor
  · have onward {b : Position K × ℕ} (joined : Connected distance d points (placeOf points i) b) :
        ∃ j, placeOf points j = b ∧ Chained distance d points i j := by
      induction joined with
      | refl => exact ⟨i, rfl, .refl⟩
      | tail _ step ih =>
        obtain ⟨j, rfl, chain⟩ := ih
        obtain ⟨hj, hb, link⟩ := step
        obtain ⟨k, rfl⟩ := exists_place hb
        exact ⟨k, rfl, chain.tail
          ⟨placeOf_mem_cores.mp hj, placeOf_mem_cores.mp hb, linked_placeOf.mp link⟩⟩
    intro joined
    obtain ⟨k, same, chain⟩ := onward joined
    exact placeOf_injective same ▸ chain
  · refine Relation.ReflTransGen.lift (placeOf points) ?_ i j
    rintro i j ⟨hi, hj, near⟩
    exact ⟨placeOf_mem_cores.mpr hi, placeOf_mem_cores.mpr hj, linked_placeOf.mpr near⟩

variable [Scalar.LawfulOrder K]

section

variable (finite : ∀ p ∈ points, p.isFinite = true)
  (symm : ∀ {p q : Position K}, p.isFinite = true → q.isFinite = true →
    distance p q = distance q p)
include finite symm

theorem label_of_core (core : Core distance d points i) :
    (densityLabels distance d points)[i.val]? =
      some (coreNumber distance d points (placeOf points i)) := by
  have here := placeOf_mem_cores.mpr core
  rcases densityLabels_spec finite symm (List.getElem?_eq_getElem i.isLt) with
    ⟨a, anchored, label⟩ | ⟨alone, _⟩
  · rw [anchored.itself here] at label
    exact label
  · exact absurd ⟨here, fun _ => rfl, (absurd here ·), (absurd here ·)⟩ (alone (placeOf points i))

theorem sameLabel_cores (hi : Core distance d points i) (hj : Core distance d points j) :
    SameLabel (densityLabels distance d points) i j ↔ Chained distance d points i j := by
  rw [← connected_iff_chained, ← coreNumber_iff finite symm (placeOf_mem_cores.mpr hi)
    (placeOf_mem_cores.mpr hj), SameLabel, label_of_core finite symm hi, label_of_core finite symm hj]
  simp only [Option.some.injEq]

omit finite symm in
theorem nearestCore_of_anchored (other : ¬Core distance d points i)
    (anchored : Anchored distance d points (placeOf points i) (placeOf points j)) :
    NearestCore distance d points i j := by
  have other := placeOf_mem_cores.not.mpr other
  refine ⟨placeOf_mem_cores.mp anchored.core, linked_placeOf.mp (anchored.within other), ?_⟩
  intro k core near
  have hk := placeOf_mem_cores.mpr core
  have before := anchored.nearest other (placeOf points k) hk (linked_placeOf.mpr near)
  rw [coreOrder, Ordering.isLE_then_iff_and, Ordering.isLE_then_iff_and] at before
  exact (Scalar.order_isLE (Scalar.le_left (linked_placeOf.mp (anchored.within other)))
    (Scalar.le_left near)).mp before.1.1

/-- Any other point has the label of a nearest core, or none where no core is near. -/
theorem label_of_other (other : ¬Core distance d points i) :
    (∃ j, NearestCore distance d points i j ∧ SameLabel (densityLabels distance d points) i j) ∨
      (∀ j, Core distance d points j → ¬Near distance d points i j) ∧
        (densityLabels distance d points)[i.val]? = some none := by
  have unlisted := placeOf_mem_cores.not.mpr other
  rcases densityLabels_spec (d := d) finite symm (List.getElem?_eq_getElem i.isLt) with
    ⟨a, anchored, label⟩ | ⟨alone, label⟩
  · obtain ⟨j, rfl⟩ := exists_place anchored.core
    obtain ⟨l, number⟩ := exists_coreNumber finite symm anchored.core
    have nearest := nearestCore_of_anchored other anchored
    have there := label_of_core finite symm nearest.core
    exact .inl ⟨j, nearest, l, number ▸ label, number ▸ there⟩
  · refine .inr ⟨fun j core near => ?_, label⟩
    have among := List.mem_filter.mpr ⟨placeOf_mem_cores.mpr core, linked_placeOf.mpr near⟩
    cases found : Order.least? (coreOrder distance points[i])
        ((cores distance d points).filter (linked distance d (placeOf points i))) with
    | none => exact absurd (Order.least?_eq_none.mp found ▸ among) List.not_mem_nil
    | some a => exact alone a (anchored_of_least? finite unlisted found)

end

/-- Clusters by density are what their definition says, whatever the symmetric distance. -/
theorem dbscan_byDensity {s : Signal} (symm : ∀ {p q : Position K}, p.isFinite = true →
    q.isFinite = true → distance p q = distance q p) (valid : d.check = .ok ())
    (finite : ∀ p ∈ points, p.isFinite = true) (quiet : s ≠ .triggered) :
    ∃ c, dbscan distance d s points = .ok c ∧ ByDensity distance d points c := by
  refine ⟨_, dbscan_eq_ok valid finite quiet, ?_⟩
  have alike := alike_ofLabels points (densityLabels distance d points)
  have same (i j : ℕ) : SameLabel (ofLabels points (densityLabels distance d points)).labels i j ↔
      SameLabel (densityLabels distance d points) i j := alike.labelled i j
  have noise (i : ℕ) :
      (ofLabels points (densityLabels distance d points)).labels[i]? = some none ↔
        (densityLabels distance d points)[i]? = some none := alike.unlabelled i
  constructor
  · rw [ofLabels_eq, List.length_map, length_densityLabels finite symm]
  · intro i j
    rw [same, together_ofLabels (length_densityLabels finite symm).le]
  · intro i j hi hj
    rw [same, sameLabel_cores finite symm hi hj]
  · intro i other labelled
    rcases label_of_other finite symm other with ⟨j, nearest, shared⟩ | ⟨_, unlabelled⟩
    · exact ⟨j, nearest, (same i j).mpr shared⟩
    · exact absurd ((noise i).mpr unlabelled) labelled
  · intro i other
    rw [noise]
    rcases label_of_other finite symm other with ⟨j, nearest, l, label, _⟩ | ⟨lonely, unlabelled⟩
    · simp only [label, Option.some.injEq, reduceCtorEq, false_iff]
      exact fun lonely => lonely j nearest.core nearest.near
    · exact iff_of_true unlabelled lonely

/-- A core between two points that are none, and a point far away. -/
noncomputable def row : List (Position ℝ) :=
  [⟨0, 0, none⟩, ⟨1, 0, none⟩, ⟨2, 0, none⟩, ⟨9, 9, none⟩]

/-- The point far away is near itself alone. -/
theorem near_row {j : Fin row.length}
    (near : Near ClusterMetric.manhattan.distance ⟨1, 3⟩ row ⟨3, by decide⟩ j) :
    j = ⟨3, by decide⟩ := by
  obtain ⟨j, inside⟩ := j
  have inside : j < 4 := inside
  interval_cases j
  · norm_num [Near, row, ClusterMetric.manhattan_eq] at near
  · norm_num [Near, row, ClusterMetric.manhattan_eq] at near
  · norm_num [Near, row, ClusterMetric.manhattan_eq] at near
  · rfl

theorem dbscan_byDensity_row :
    (⟨1, 3⟩ : Density ℝ).check = .ok () ∧
    ∃ c, dbscan ClusterMetric.manhattan.distance ⟨1, 3⟩ .absent row = .ok c ∧
      ByDensity ClusterMetric.manhattan.distance ⟨1, 3⟩ row c ∧ c.labels[3]? = some none := by
  have valid : (⟨1, 3⟩ : Density ℝ).check = .ok () :=
    Density.check_eq_ok.mpr ⟨⟨rfl, one_pos⟩, by decide⟩
  have finite : ∀ p ∈ row, p.isFinite = true := by
    rintro ⟨x, y, z⟩ _
    cases z <;> rfl
  have quiet : Signal.absent ≠ .triggered := nofun
  obtain ⟨c, computed, byDensity⟩ :=
    dbscan_byDensity (ClusterMetric.dissimilarity .manhattan).symm valid finite quiet
  have lonely : ¬Core ClusterMetric.manhattan.distance ⟨1, 3⟩ row ⟨3, by decide⟩ := by
    have alone : Finset.univ.filter
        (Near ClusterMetric.manhattan.distance ⟨1, 3⟩ row ⟨3, by decide⟩) ⊆ {⟨3, by decide⟩} :=
      fun j hj => Finset.mem_singleton.mpr (near_row (Finset.mem_filter.mp hj).2)
    exact fun core => absurd (core.trans (Finset.card_le_card alone)) (by simp)
  refine ⟨valid, c, computed, byDensity, (byDensity.noise lonely).mpr fun j core near => ?_⟩
  exact lonely (near_row near ▸ core)

end Geospatial.Clustering
