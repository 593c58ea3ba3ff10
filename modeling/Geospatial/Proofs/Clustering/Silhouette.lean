import Mathlib
import Geospatial.Clustering
import Geospatial.Proofs.Clustering
import Geospatial.Proofs.Clustering.Metric
import Geospatial.Proofs.Scalar.Mean

/-! The score of labelled points. The indices, by which a point is left out of its own group, can
be done without: what is left out is the distance of the point from itself. So the score depends on
neither the order of the points nor the names of their labels, and it is a mean of numbers from -1
to 1. -/
namespace Geospatial.Clustering

variable {K : Type}

/-- A label that one of the points has. -/
def Carries (points : List (Position K)) (raw : List (Option ℕ)) (l : ℕ) : Prop :=
  ∃ i < points.length, raw[i]? = some (some l)

/-- The points that have a label, each with its label. -/
def carried (points : List (Position K)) (raw : List (Option ℕ)) : List (Position K × ℕ) :=
  (points.zip raw).filterMap fun q => q.2.map (q.1, ·)

/-- The positions with a label. -/
def group (cs : List (Position K × ℕ)) (l : ℕ) : List (Position K) :=
  (cs.filter (·.2 == l)).map (·.1)

/-- The labels that occur, each of them once. -/
def labelsOf (cs : List (Position K × ℕ)) : List ℕ := (cs.map (·.2)).eraseDups

variable {points : List (Position K)} {raw : List (Option ℕ)} {cs cs' : List (Position K × ℕ)}
  {p : Position K} {l m : ℕ}

theorem mem_labelsOf : l ∈ labelsOf cs ↔ ∃ p, (p, l) ∈ cs := by
  simp [labelsOf]

theorem nodup_labelsOf (cs : List (Position K × ℕ)) : (labelsOf cs).Nodup := nodup_eraseDups _

theorem carries_iff : Carries points raw l ↔ l ∈ labelsOf (carried points raw) := by
  simp only [Carries, mem_labelsOf, carried, List.mem_filterMap, Prod.exists,
    Option.map_eq_some_iff, Prod.mk.injEq]
  constructor
  · rintro ⟨i, inside, label⟩
    refine ⟨points[i], points[i], some l, ?_, l, rfl, rfl, rfl⟩
    apply List.mem_of_getElem?
    exact List.getElem?_zip_eq_some.mpr ⟨List.getElem?_eq_getElem inside, label⟩
  · rintro ⟨p, _, _, here, l, rfl, rfl, rfl⟩
    obtain ⟨i, found⟩ := List.mem_iff_getElem?.mp here
    obtain ⟨point, label⟩ := List.getElem?_zip_eq_some.mp found
    exact ⟨i, (List.getElem?_eq_some_iff.mp point).1, label⟩

theorem mem_of_carried {q : Position K × ℕ} (here : q ∈ carried points raw) : q.1 ∈ points := by
  obtain ⟨⟨p, l⟩, member, labelled⟩ := List.mem_filterMap.mp here
  obtain ⟨_, _, rfl⟩ := Option.map_eq_some_iff.mp labelled
  exact (List.of_mem_zip member).1

theorem group_perm (perm : cs.Perm cs') (l : ℕ) : (group cs l).Perm (group cs' l) :=
  (perm.filter _).map _

theorem labelsOf_perm (perm : cs.Perm cs') : (labelsOf cs).Perm (labelsOf cs') := by
  apply (List.perm_ext_iff_of_nodup (nodup_labelsOf cs) (nodup_labelsOf cs')).mpr
  intro l
  rw [mem_labelsOf, mem_labelsOf]
  exact exists_congr fun p => perm.mem_iff

/-- A point with a label is in its group. -/
theorem exists_others (here : (p, l) ∈ cs) : ∃ others, (p :: others).Perm (group cs l) := by
  have member : p ∈ group cs l :=
    List.mem_map.mpr ⟨(p, l), List.mem_filter.mpr ⟨here, beq_self_eq_true l⟩, rfl⟩
  obtain ⟨before, after, split⟩ := List.append_of_mem member
  exact ⟨before ++ after, split ▸ List.perm_middle.symm⟩

section Means

variable [Exact K] (distance : Position K → Position K → K)

theorem meanDistance_eq (p : Position K) (others : List (Position K)) :
    meanDistance distance p others = Exact.mean (others.map (distance p)) := by
  unfold meanDistance Exact.mean
  split
  · rename_i empty
    simp [List.isEmpty_iff.mp empty]
  · rw [Exact.sum_eq, List.length_map]

/-- Average distance to the others of a group, without the distance of the point from itself. -/
def ownMean (cs : List (Position K × ℕ)) (q : Position K × ℕ) : K :=
  (((group cs q.2).map (distance q.1)).sum - distance q.1 q.1) / ((group cs q.2).length - 1 : K)

/-- Average distance to the nearest other group. -/
def nextMean (cs : List (Position K × ℕ)) (q : Position K × ℕ) : K :=
  Scalar.least (((labelsOf cs).filter (· != q.2)).map fun m =>
    Exact.mean ((group cs m).map (distance q.1)))

/-- Fit of a point with its label. -/
def memberFit (cs : List (Position K × ℕ)) (q : Position K × ℕ) : K :=
  if (group cs q.2).length = 1 then 0 else fit (ownMean distance cs q) (nextMean distance cs q)

theorem ownMean_of_perm {others : List (Position K)} (perm : (p :: others).Perm (group cs l)) :
    ownMean distance cs (p, l) = Exact.mean (others.map (distance p)) := by
  have total := (perm.map (distance p)).sum_eq
  have count := perm.length_eq
  rw [List.map_cons, List.sum_cons] at total
  rw [ownMean, ← total, ← count, List.length_cons, Nat.cast_succ, add_sub_cancel_left,
    add_sub_cancel_right, Exact.mean, List.length_map]

end Means

section Labelled

/-- A labelled point without its index. -/
def unindexed (q : Position K × ℕ × ℕ) : Position K × ℕ := (q.1, q.2.2)

theorem map_labelled (points : List (Position K)) (raw : List (Option ℕ)) :
    (labelled points raw).map unindexed = carried points raw := by
  have plain : points.zip raw = (points.zipIdx.zip raw).map (Prod.map Prod.fst id) := by
    rw [← List.zip_map_left, List.zipIdx_map_fst]
  rw [carried, plain, labelled, List.map_filterMap, List.filterMap_map]
  congr 1
  funext ⟨⟨p, i⟩, l⟩
  cases l <;> rfl

theorem positionsOf_eq (ps : Labelled K) (l : ℕ) :
    positionsOf ps l = group (ps.map unindexed) l := by
  rw [positionsOf, group, List.filter_map, List.map_map]
  rfl

/-- No two labelled points have the same index. -/
theorem pairwise_labelled (points : List (Position K)) (raw : List (Option ℕ)) :
    (labelled points raw).Pairwise fun q q' => q.2.1 ≠ q'.2.1 := by
  rw [labelled, List.pairwise_filterMap, List.pairwise_iff_getElem]
  intro i j hi hj less q hq q' hq'
  simp only [List.getElem_zip, List.getElem_zipIdx, Option.map_eq_some_iff] at hq hq'
  obtain ⟨_, _, rfl⟩ := hq
  obtain ⟨_, _, rfl⟩ := hq'
  simpa using less.ne

/-- An element and all the others, where the elements are told apart. -/
theorem perm_of_pairwise {α : Type} {f : α → ℕ} {x : α} {xs : List α}
    (apart : xs.Pairwise fun y z => f y ≠ f z) (here : x ∈ xs) :
    (x :: xs.filter (f · != f x)).Perm xs := by
  induction xs with
  | nil => contradiction
  | cons y ys ih =>
    obtain ⟨first, rest⟩ := List.pairwise_cons.mp apart
    rcases List.mem_cons.mp here with rfl | later
    · have all : ys.filter (f · != f x) = ys :=
        List.filter_eq_self.mpr fun z hz => by simpa using (first z hz).symm
      rw [List.filter_cons_of_neg (by simp), all]
    · rw [List.filter_cons_of_pos (by simpa using first x later)]
      exact (List.Perm.swap y x _).trans ((ih rest later).cons y)

variable [Exact K] (distance : Position K → Position K → K)

theorem pointFit_eq {ps : Labelled K} (apart : ps.Pairwise fun q q' => q.2.1 ≠ q'.2.1) {i : ℕ}
    (here : (p, i, l) ∈ ps) : pointFit distance ps (labelsOf (ps.map unindexed)) p i l =
      memberFit distance (ps.map unindexed) (p, l) := by
  have others : (p :: (ps.filter fun q => q.2.2 == l && q.2.1 != i).map (·.1)).Perm
      (group (ps.map unindexed) l) := by
    have member : (p, i, l) ∈ ps.filter fun q => q.2.2 == l :=
      List.mem_filter.mpr ⟨here, beq_self_eq_true l⟩
    have perm := (perm_of_pairwise (apart.filter _) member).map (·.1)
    rw [List.filter_filter] at perm
    simpa only [← positionsOf_eq, positionsOf, List.map_cons, Bool.and_comm] using perm
  have count := others.length_eq
  rw [List.length_cons] at count
  rw [pointFit, memberFit, ← count]
  dsimp only
  by_cases alone : (ps.filter fun q => q.2.2 == l && q.2.1 != i).map (·.1) = []
  · rw [alone]
    rfl
  · rw [if_neg (by simpa using alone), if_neg (by simpa using alone), meanDistance_eq,
      ownMean_of_perm distance others, nextMean]
    simp only [positionsOf_eq, meanDistance_eq]

/-- The score, without indices. -/
theorem silhouette?_eq (points : List (Position K)) (raw : List (Option ℕ)) :
    silhouette? distance points raw =
      if (labelsOf (carried points raw)).length < 2 then none
      else some (Exact.mean
        ((carried points raw).map (memberFit distance (carried points raw)))) := by
  have labels : ((labelled points raw).map fun q => q.2.2).eraseDups =
      labelsOf (carried points raw) := by
    rw [labelsOf, ← map_labelled, List.map_map]
    rfl
  have fits : ((labelled points raw).map fun q =>
        pointFit distance (labelled points raw) (labelsOf (carried points raw)) q.1 q.2.1 q.2.2) =
      (carried points raw).map (memberFit distance (carried points raw)) := by
    rw [← map_labelled, List.map_map]
    exact List.map_congr_left fun q hq => pointFit_eq distance (pairwise_labelled points raw) hq
  have count : (labelled points raw).length = (carried points raw).length := by
    rw [← map_labelled, List.length_map]
  simp only [silhouette?, labels, fits, Exact.sum_eq, count, Exact.mean, List.length_map]

end Labelled

theorem length_lt_two_iff {α : Type} {xs : List α} (nodup : xs.Nodup) :
    xs.length < 2 ↔ ∀ x ∈ xs, ∀ y ∈ xs, x = y := by
  match xs, nodup with
  | [], _ => simp
  | [x], _ => simp
  | x :: y :: rest, nodup =>
    have apart : x ≠ y := by
      rintro rfl
      exact (List.nodup_cons.mp nodup).1 List.mem_cons_self
    refine iff_of_false (by simp) fun same => apart ?_
    exact same x List.mem_cons_self y (List.mem_cons_of_mem _ List.mem_cons_self)

section Score

variable [Exact K] (distance : Position K → Position K → K)

theorem fit_bounds {own next : K} (ho : 0 ≤ own) (hn : 0 ≤ next) :
    -1 ≤ fit own next ∧ fit own next ≤ 1 := by
  have left : own ≤ Scalar.max own next := Scalar.le_max_left le_rfl
  have right : next ≤ Scalar.max own next := Scalar.le_max_right le_rfl
  unfold fit
  dsimp only
  split
  · rename_i positive
    rw [le_div_iff₀ positive, div_le_iff₀ positive]
    constructor <;> linarith
  · constructor <;> linarith [zero_lt_one' K]

theorem memberFit_bounds {q : Position K × ℕ} (here : q ∈ cs) (more : 2 ≤ (labelsOf cs).length)
    (nonneg : ∀ q ∈ cs, ∀ q' ∈ cs, 0 ≤ distance q.1 q'.1) :
    -1 ≤ memberFit distance cs q ∧ memberFit distance cs q ≤ 1 := by
  obtain ⟨p, l⟩ := q
  have apart {m : ℕ} {r : Position K} (member : r ∈ group cs m) : 0 ≤ distance p r := by
    obtain ⟨q, chosen, rfl⟩ := List.mem_map.mp member
    exact nonneg _ here _ (List.mem_of_mem_filter chosen)
  have means {rs : List (Position K)} {m : ℕ} (members : rs ⊆ group cs m) :
      0 ≤ Exact.mean (rs.map (distance p)) :=
    Exact.mean_nonneg (List.forall_mem_map.mpr fun r hr => apart (members hr))
  unfold memberFit
  split
  · constructor <;> linarith [zero_lt_one' K]
  · apply fit_bounds
    · obtain ⟨others, perm⟩ := exists_others here
      rw [ownMean_of_perm distance perm]
      exact means fun r hr => perm.subset (List.mem_cons_of_mem _ hr)
    · -- there is another label, so that the least mean is the mean of a group
      have other : (labelsOf cs).filter (· != l) ≠ [] := by
        intro alone
        have all : ∀ m ∈ labelsOf cs, m = l := by simpa [List.filter_eq_nil_iff] using alone
        have few := (length_lt_two_iff (nodup_labelsOf cs)).mpr fun m hm n hn =>
          (all m hm).trans (all n hn).symm
        omega
      have least : nextMean distance cs (p, l) ∈ ((labelsOf cs).filter (· != l)).map _ :=
        Exact.least_mem (List.map_eq_nil_iff.not.mpr other)
      obtain ⟨m, _, same⟩ := List.mem_map.mp least
      rw [← same]
      exact means (List.Subset.refl _)

theorem nextMean_perm (perm : cs.Perm cs') (q : Position K × ℕ) :
    nextMean distance cs q = nextMean distance cs' q := by
  have means : (fun m => Exact.mean ((group cs m).map (distance q.1))) =
      fun m => Exact.mean ((group cs' m).map (distance q.1)) :=
    funext fun m => Exact.mean_perm ((group_perm perm m).map _)
  rw [nextMean, means]
  exact Exact.least_perm (((labelsOf_perm perm).filter _).map _)

theorem memberFit_perm (perm : cs.Perm cs') : memberFit distance cs = memberFit distance cs' := by
  funext q
  have same := group_perm perm q.2
  rw [memberFit, memberFit, ownMean, ownMean, nextMean_perm distance perm, same.length_eq,
    (same.map _).sum_eq]

end Score

section Renaming

/-- A point with its label under another name. -/
def renamed (f : ℕ → ℕ) (q : Position K × ℕ) : Position K × ℕ := (q.1, f q.2)

variable {f : ℕ → ℕ}

theorem carried_map (points : List (Position K)) (raw : List (Option ℕ)) (f : ℕ → ℕ) :
    carried points (raw.map (Option.map f)) = (carried points raw).map (renamed f) := by
  rw [carried, carried, List.zip_map_right, List.filterMap_map, List.map_filterMap]
  congr 1
  funext ⟨p, l⟩
  cases l <;> rfl

theorem labelsOf_renamed (inj : Set.InjOn f {l | l ∈ labelsOf cs}) :
    (labelsOf (cs.map (renamed f))).Perm ((labelsOf cs).map f) := by
  have nodup : ((labelsOf cs).map f).Nodup :=
    (List.nodup_map_iff_inj_on (nodup_labelsOf cs)).mpr fun l hl m hm => inj hl hm
  apply (List.perm_ext_iff_of_nodup (nodup_labelsOf _) nodup).mpr
  intro l
  simp only [mem_labelsOf, List.mem_map, renamed, Prod.exists, Prod.mk.injEq]
  constructor
  · rintro ⟨_, p, m, here, rfl, rfl⟩
    exact ⟨m, ⟨p, here⟩, rfl⟩
  · rintro ⟨m, ⟨p, here⟩, rfl⟩
    exact ⟨p, p, m, here, rfl, rfl⟩

theorem group_renamed (inj : Set.InjOn f {l | l ∈ labelsOf cs}) (known : l ∈ labelsOf cs) :
    group (cs.map (renamed f)) (f l) = group cs l := by
  have same : cs.filter ((·.2 == f l) ∘ renamed f) = cs.filter (·.2 == l) := by
    refine List.filter_congr fun q hq => ?_
    have here : q.2 ∈ labelsOf cs := mem_labelsOf.mpr ⟨q.1, hq⟩
    exact Bool.eq_iff_iff.mpr (by simpa [renamed] using inj.eq_iff here known)
  rw [group, group, List.filter_map, List.map_map, same]
  rfl

variable [Exact K] (distance : Position K → Position K → K)

theorem nextMean_renamed (inj : Set.InjOn f {l | l ∈ labelsOf cs}) {q : Position K × ℕ}
    (here : q ∈ cs) :
    nextMean distance (cs.map (renamed f)) (renamed f q) = nextMean distance cs q := by
  have known : q.2 ∈ labelsOf cs := mem_labelsOf.mpr ⟨q.1, here⟩
  have others : (labelsOf cs).filter ((· != f q.2) ∘ f) = (labelsOf cs).filter (· != q.2) := by
    refine List.filter_congr fun l hl => ?_
    exact Bool.eq_iff_iff.mpr (by simpa using (inj.eq_iff hl known).not)
  have perm : ((labelsOf (cs.map (renamed f))).filter (· != (renamed f q).2)).Perm
      (((labelsOf cs).filter (· != q.2)).map f) := by
    rw [← others, ← List.filter_map]
    exact (labelsOf_renamed inj).filter _
  rw [nextMean, Exact.least_perm (perm.map _), List.map_map, nextMean]
  refine congrArg _ (List.map_congr_left fun l hl => ?_)
  rw [Function.comp_apply, group_renamed inj (List.mem_of_mem_filter hl)]
  rfl

theorem memberFit_renamed (inj : Set.InjOn f {l | l ∈ labelsOf cs}) {q : Position K × ℕ}
    (here : q ∈ cs) :
    memberFit distance (cs.map (renamed f)) (renamed f q) = memberFit distance cs q := by
  have same := group_renamed inj (mem_labelsOf.mpr ⟨q.1, here⟩)
  rw [memberFit, memberFit, nextMean_renamed distance inj here, ownMean, ownMean, renamed, same]

end Renaming

theorem carried_perm {σ : Equiv.Perm ℕ} {points' : List (Position K)}
    {raw' : List (Option ℕ)} (moved : Rearranged σ points points') (along : Rearranged σ raw raw') :
    (carried points' raw').Perm (carried points raw) := by
  refine (Rearranged.perm (σ := σ) fun i => ?_).filterMap _
  rw [List.zip, List.getElem?_zipWith, List.getElem?_zipWith, moved, along]

variable [Exact K] (distance : Position K → Position K → K)

/-- Points have a score if and only if two labels occur. With distances that are not negative it
lies between -1 and 1. Other names of the labels that keep them apart do not change it, nor does
another order of the points and their labels. -/
theorem silhouette_bounded_invariant (points : List (Position K)) (raw : List (Option ℕ)) :
    (silhouette? distance points raw = none ↔
      ∀ l m, Carries points raw l → Carries points raw m → l = m) ∧
    ((∀ p ∈ points, ∀ q ∈ points, 0 ≤ distance p q) →
      ∀ score ∈ silhouette? distance points raw, -1 ≤ score ∧ score ≤ 1) ∧
    (∀ f : ℕ → ℕ, Set.InjOn f {l | Carries points raw l} →
      silhouette? distance points (raw.map (Option.map f)) = silhouette? distance points raw) ∧
    ∀ (σ : Equiv.Perm ℕ) points' raw', Rearranged σ points points' → Rearranged σ raw raw' →
      silhouette? distance points' raw' = silhouette? distance points raw := by
  have labels : {l | Carries points raw l} = {l | l ∈ labelsOf (carried points raw)} :=
    Set.ext fun l => carries_iff
  simp only [silhouette?_eq, labels]
  refine ⟨?_, fun nonneg score found => ?_, fun f inj => ?_, fun σ points' raw' moved along => ?_⟩
  · rw [ite_eq_left_iff]
    simp only [reduceCtorEq, imp_false, not_not, length_lt_two_iff (nodup_labelsOf _), carries_iff]
    exact ⟨fun same l m hl hm => same l hl m hm, fun same l hl m hm => same l m hl hm⟩
  · obtain ⟨more, rfl⟩ : ¬(labelsOf (carried points raw)).length < 2 ∧ _ = score := by
      simpa using found
    have filled : (carried points raw).map (memberFit distance (carried points raw)) ≠ [] := by
      intro empty
      rw [List.map_eq_nil_iff.mp empty] at more
      simp [labelsOf] at more
    have bounds : ∀ q ∈ carried points raw, -1 ≤ memberFit distance (carried points raw) q ∧
        memberFit distance (carried points raw) q ≤ 1 := fun q hq =>
      memberFit_bounds distance hq (not_lt.mp more) fun q hq q' hq' =>
        nonneg _ (mem_of_carried hq) _ (mem_of_carried hq')
    exact ⟨Exact.le_mean filled (List.forall_mem_map.mpr fun q hq => (bounds q hq).1),
      Exact.mean_le filled (List.forall_mem_map.mpr fun q hq => (bounds q hq).2)⟩
  · rw [carried_map, (labelsOf_renamed inj).length_eq, List.length_map, List.map_map]
    congr 3
    exact List.map_congr_left fun q hq => memberFit_renamed distance inj hq
  · have perm := carried_perm moved along
    rw [(labelsOf_perm perm).length_eq, memberFit_perm distance perm,
      Exact.mean_perm (perm.map _)]

/-- Four points in a row, the outer ones with one label, and a label without a point. -/
theorem silhouette_bounded_invariant_row : ∃ row : List (Position ℝ),
    row = [⟨0, 0, none⟩, ⟨1, 0, none⟩, ⟨2, 0, none⟩, ⟨3, 0, none⟩] ∧
    ∃ score ∈ silhouette? ClusterMetric.manhattan.distance row
        [some 4, none, some 7, some 4, some 9],
      (-1 ≤ score ∧ score ≤ 1) ∧
      silhouette? ClusterMetric.manhattan.distance row [some 0, none, some 1, some 0, some 0] =
        some score ∧
      silhouette? ClusterMetric.manhattan.distance
        [⟨1, 0, none⟩, ⟨0, 0, none⟩, ⟨2, 0, none⟩, ⟨3, 0, none⟩]
        [none, some 4, some 7, some 4, some 9] = some score := by
  refine ⟨_, rfl, ?_⟩
  have carries {l : ℕ} : Carries ([⟨0, 0, none⟩, ⟨1, 0, none⟩, ⟨2, 0, none⟩, ⟨3, 0, none⟩] :
      List (Position ℝ)) [some 4, none, some 7, some 4, some 9] l ↔ l = 4 ∨ l = 7 := by
    constructor
    · rintro ⟨i, inside, label⟩
      match i, inside with
      | 0, _ => exact .inl (by simpa using label.symm)
      | 1, _ => simp at label
      | 2, _ => exact .inr (by simpa using label.symm)
      | 3, _ => exact .inl (by simpa using label.symm)
    · rintro (rfl | rfl)
      · exact ⟨0, by decide, rfl⟩
      · exact ⟨2, by decide, rfl⟩
  obtain ⟨missing, bounds, names, orders⟩ := silhouette_bounded_invariant
    (ClusterMetric.manhattan.distance (K := ℝ))
    [⟨0, 0, none⟩, ⟨1, 0, none⟩, ⟨2, 0, none⟩, ⟨3, 0, none⟩] [some 4, none, some 7, some 4, some 9]
  obtain ⟨score, found⟩ := Option.ne_none_iff_exists'.mp fun unscored =>
    absurd (missing.mp unscored 4 7 (carries.mpr (.inl rfl)) (carries.mpr (.inr rfl))) (by decide)
  refine ⟨score, found, ?_, ?_, ?_⟩
  · refine bounds (fun p _ q _ => ?_) score found
    exact add_nonneg (abs_nonneg _) (abs_nonneg _)
  · rw [← found]
    refine names (fun l => if l = 7 then 1 else 0) fun l hl m hm same => ?_
    rcases carries.mp hl with rfl | rfl <;> rcases carries.mp hm with rfl | rfl
    · rfl
    · exact absurd same (by decide)
    · exact absurd same (by decide)
    · rfl
  · rw [← found]
    have swapped {α : Type} {a b : α} {rest : List α} :
        Rearranged (Equiv.swap 0 1) (a :: b :: rest) (b :: a :: rest) := by
      intro i
      match i with
      | 0 | 1 => simp
      | i + 2 => rw [Equiv.swap_apply_of_ne_of_ne (by omega) (by omega)]; rfl
    exact orders (Equiv.swap 0 1) _ _ swapped swapped

end Geospatial.Clustering
