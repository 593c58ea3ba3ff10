import Mathlib.Algebra.BigOperators.Option
import Mathlib.Algebra.Order.BigOperators.Group.Finset
import Mathlib.Data.Finset.Range
import Mathlib.Data.List.TakeDrop
import Mathlib.Dynamics.PeriodicPts.Lemmas
import Mathlib.Logic.Relation
import Geospatial.Proofs.Outcome
import Geospatial.Terrain.Flow

/-! What draining leaves. A place is passed on once everything that drains to it has been, so that
the places that are passed on, each of them once, are those that are not on a cycle. Every place has
received these of its feeders and what they received. -/
namespace Geospatial.Terrain

/-- A way leads from something back to it. -/
def OnCycle {α : Type} (r : α → α → Prop) (a : α) : Prop := Relation.TransGen r a a

/-- What is on a cycle has no end of what comes before it. -/
theorem not_onCycle_of_acc {α : Type} {r : α → α → Prop} {a : α} (grounded : Acc r a) :
    ¬OnCycle r a := by
  induction grounded with
  | intro a _ ih =>
    intro cycle
    obtain ⟨b, way, last⟩ := Relation.TransGen.tail'_iff.mp cycle
    exact ih b last (.head' last way)

namespace Flow

/-- A place drains straight to another one. -/
def Feeds (receivers : Array (Option ℕ)) (i t : ℕ) : Prop := receivers.getD i none = some t

def feeders (receivers : Array (Option ℕ)) (t : ℕ) : Finset ℕ :=
  {i ∈ Finset.range receivers.size | receivers.getD i none = some t}

/-- What a place feeds is a place. -/
def Closed (receivers : Array (Option ℕ)) : Prop :=
  ∀ i t, Feeds receivers i t → t < receivers.size

/-- Every place has received its feeders and what they received. -/
def Balanced (receivers : Array (Option ℕ)) (received : ℕ → ℕ) : Prop :=
  ∀ t < receivers.size, received t = ∑ i ∈ feeders receivers t, (received i + 1)

variable {receivers : Array (Option ℕ)} {i t : ℕ}

theorem Feeds.lt_size (feeds : Feeds receivers i t) : i < receivers.size := by
  by_contra beyond
  rw [Feeds, Array.getD_eq_getD_getElem?, Array.getElem?_eq_none (Nat.le_of_not_lt beyond)] at feeds
  contradiction

@[simp]
theorem mem_feeders : i ∈ feeders receivers t ↔ Feeds receivers i t := by
  rw [feeders, Finset.mem_filter, Finset.mem_range]
  exact and_iff_right_of_imp Feeds.lt_size

theorem notMem_feeders_of_none (ends : receivers.getD i none = none) (t : ℕ) :
    i ∉ feeders receivers t := by
  rw [mem_feeders, Feeds, ends]
  nofun

theorem Feeds.notMem_feeders (feeds : Feeds receivers i t) {j : ℕ} (other : j ≠ t) :
    i ∉ feeders receivers j := by
  rw [mem_feeders, Feeds, feeds, Option.some.injEq]
  exact Ne.symm other

/-- A place drains to one place at most. -/
theorem feeds_unique (receivers : Array (Option ℕ)) : Relator.RightUnique (Feeds receivers) :=
  fun _ _ _ feeds other => Option.some.inj (Eq.trans (Eq.symm feeds) other)

/-- Where finitely many places are all fed from among themselves, the ways up lead round. -/
theorem onCycle_of_fed {S : Finset ℕ} (fed : ∀ t ∈ S, ∃ i ∈ S, Feeds receivers i t) (t : ℕ)
    (ht : t ∈ S) : OnCycle (Feeds receivers) t := by
  choose feeder member feeds using fed
  let up (t : S) : S := ⟨feeder t t.2, member t t.2⟩
  have injective : Function.Injective up := by
    intro t u same
    have first := feeds t t.2
    rw [show feeder t t.2 = feeder u u.2 from congrArg Subtype.val same] at first
    exact Subtype.ext (feeds_unique receivers first (feeds u u.2))
  have climbs (n : ℕ) (t : S) : Relation.TransGen (Feeds receivers) (up^[n + 1] t).val t.val := by
    induction n with
    | zero => exact .single (feeds t t.2)
    | succ n ih =>
      rw [Function.iterate_succ_apply']
      exact .head (feeds _ (up^[n + 1] t).2) ih
  obtain ⟨n, positive, back⟩ := injective.mem_periodicPts ⟨t, ht⟩
  have way := climbs (n - 1) ⟨t, ht⟩
  rwa [Nat.sub_add_cancel positive, back] at way

/-- All that is received ends where nothing flows on. -/
theorem Balanced.sum_ends {received : ℕ → ℕ} (balanced : Balanced receivers received)
    (closed : Closed receivers) :
    ∑ i ∈ Finset.range receivers.size with receivers.getD i none = none, (received i + 1) =
      receivers.size := by
  have targets : ∀ i ∈ Finset.range receivers.size,
      receivers.getD i none ∈ Finset.insertNone (Finset.range receivers.size) := by
    intro i _
    rw [Finset.mem_insertNone]
    exact fun t feeds => Finset.mem_range.mpr (closed i t feeds)
  have grouped := Finset.sum_fiberwise_of_maps_to targets fun i => received i + 1
  have whole : ∑ i ∈ Finset.range receivers.size, (received i + 1) =
      ∑ i ∈ Finset.range receivers.size, received i + receivers.size := by
    simp [Finset.sum_add_distrib]
  rw [Finset.sum_insertNone, whole] at grouped
  have fed : ∑ t ∈ Finset.range receivers.size, ∑ i ∈ Finset.range receivers.size with
      receivers.getD i none = some t, (received i + 1) =
      ∑ t ∈ Finset.range receivers.size, received t :=
    Finset.sum_congr rfl fun t ht => (balanced t (Finset.mem_range.mp ht)).symm
  omega

theorem getD_modify {a : Array ℕ} (f : ℕ → ℕ) (bound : i < a.size) (t : ℕ) :
    (a.modify t f).getD i 0 = if i = t then f (a.getD i 0) else a.getD i 0 := by
  rw [Array.getD_eq_getD_getElem?, Array.getD_eq_getD_getElem?, Array.getElem?_modify,
    Array.getElem?_eq_getElem bound]
  by_cases same : t = i
  · rw [if_pos same, if_pos same.symm]
    rfl
  · rw [if_neg same, if_neg (Ne.symm same)]

theorem foldl_inflow (targets : List (Option ℕ)) (counts : Array ℕ) :
    let total := targets.foldl (fun counts r => match r with
      | some t => counts.modify t (· + 1)
      | none => counts) counts
    total.size = counts.size ∧
      ∀ t < counts.size, total.getD t 0 = counts.getD t 0 + targets.count (some t) := by
  induction targets generalizing counts with
  | nil => exact ⟨rfl, fun _ _ => rfl⟩
  | cons r targets ih =>
    cases r with
    | none =>
      obtain ⟨size, count⟩ := ih counts
      refine ⟨size, fun t ht => ?_⟩
      rw [List.count_cons_of_ne (Option.some_ne_none t).symm]
      exact count t ht
    | some t =>
      obtain ⟨size, count⟩ := ih (counts.modify t (· + 1))
      rw [Array.size_modify] at size count
      refine ⟨size, fun i hi => (count i hi).trans ?_⟩
      rw [getD_modify _ hi]
      by_cases same : i = t
      · rw [if_pos same, same, List.count_cons_self]
        omega
      · rw [if_neg same, List.count_cons_of_ne (by simpa using Ne.symm same)]

theorem getD_replicate_zero (n t : ℕ) : (Array.replicate n 0).getD t 0 = 0 := by
  rw [Array.getD_eq_getD_getElem?, Array.getElem?_replicate]
  split <;> rfl

theorem size_inflows (receivers : Array (Option ℕ)) :
    (inflows receivers).size = receivers.size :=
  (foldl_inflow receivers.toList _).1.trans Array.size_replicate

theorem getD_inflows (bound : t < receivers.size) :
    (inflows receivers).getD t 0 = receivers.toList.count (some t) := by
  have total := (foldl_inflow receivers.toList (Array.replicate receivers.size 0)).2 t (by simpa)
  rwa [getD_replicate_zero, Nat.zero_add] at total

theorem card_feeders (receivers : Array (Option ℕ)) (t : ℕ) :
    (feeders receivers t).card = receivers.toList.count (some t) := by
  have listed : receivers.toList = (List.range receivers.size).map (receivers.getD · none) := by
    refine List.ext_getElem (by simp) fun i hi _ => ?_
    rw [Array.length_toList] at hi
    simp [hi]
  rw [listed, List.count_eq_countP, List.countP_map, List.countP_eq_length_filter]
  refine congrArg List.length (List.filter_congr fun i _ => ?_)
  rw [Function.comp_apply, beq_eq_decide]

end Flow

namespace Draining

open Terrain.Flow

variable {receivers : Array (Option ℕ)} {d : Draining} {i t : ℕ}

/-- The places that have been passed on. -/
def done (d : Draining) : Finset ℕ := (d.order.toList.take d.passed).toFinset

/-- Draining under way: the order holds each place into which nothing is left to flow once, and
every place has received those of its feeders that were passed on. -/
structure Underway (receivers : Array (Option ℕ)) (d : Draining) : Prop where
  pendingSize : d.flow.pending.size = receivers.size
  receivedSize : d.flow.received.size = receivers.size
  place : ∀ i ∈ d.order, i < receivers.size
  once : d.order.toList.Nodup
  early : d.passed ≤ d.order.size
  free : ∀ i < receivers.size, i ∈ d.order ↔ feeders receivers i ⊆ d.done
  grounded : ∀ i ∈ d.order, Acc (Feeds receivers) i
  pending : ∀ t < receivers.size, d.flow.pending.getD t 0 = (feeders receivers t \ d.done).card
  received : ∀ t < receivers.size, d.flow.received.getD t 0 =
    ∑ i ∈ feeders receivers t ∩ d.done, (d.flow.received.getD i 0 + 1)

theorem mem_order_of_done (member : i ∈ d.done) : i ∈ d.order :=
  Array.mem_toList_iff.mp (List.mem_of_mem_take (List.mem_toFinset.mp member))

theorem mem_order_of_next (next : d.next? = some i) : i ∈ d.order :=
  Array.mem_of_getElem? next

theorem getElem?_of_next (next : d.next? = some i) : d.order.toList[d.passed]? = some i :=
  Array.getElem?_toList.trans next

theorem passed_lt (next : d.next? = some i) : d.passed < d.order.size :=
  (Array.getElem?_eq_some_iff.mp next).1

theorem underway_start (receivers : Array (Option ℕ)) : Underway receivers (start receivers) := by
  have sources (i : ℕ) : i ∈ (start receivers).order ↔
      i < receivers.size ∧ (inflows receivers).getD i 0 = 0 := by
    simp [start, Flow.sources, Flow.start, size_inflows]
  have untouched : (start receivers).done = ∅ := rfl
  have free (i : ℕ) (hi : i < receivers.size) :
      i ∈ (start receivers).order ↔ feeders receivers i ⊆ ∅ := by
    rw [sources, getD_inflows hi, ← card_feeders, Finset.card_eq_zero, Finset.subset_empty]
    exact and_iff_right hi
  constructor
  case pendingSize => exact size_inflows receivers
  case receivedSize => exact Array.size_replicate
  case place => exact fun i hi => ((sources i).mp hi).1
  case once => exact List.nodup_range.filter _
  case early => exact Nat.zero_le _
  case free => exact free
  case grounded =>
    refine fun i hi => .intro i fun j feeds => ?_
    have fed := (free i ((sources i).mp hi).1).mp hi
    exact absurd (fed (mem_feeders.mpr feeds)) (Finset.notMem_empty j)
  case pending =>
    intro t ht
    rw [untouched, Finset.sdiff_empty, card_feeders]
    exact getD_inflows ht
  case received =>
    intro t _
    rw [untouched, Finset.inter_empty, Finset.sum_empty]
    exact getD_replicate_zero _ _

section

variable (next : d.next? = some i)

include next

theorem step_of_ends (ends : receivers.getD i none = none) :
    d.step receivers = ⟨d.order, d.passed + 1, d.flow⟩ := by
  rw [step, next]
  dsimp only
  rw [ends]

theorem step_of_feeds (feeds : Feeds receivers i t) :
    d.step receivers = ⟨if (d.flow.pass i t).pending.getD t 0 = 0 then d.order.push t else d.order,
      d.passed + 1, d.flow.pass i t⟩ := by
  rw [step, next]
  dsimp only
  rw [feeds]

/-- The order only grows at its end, so that a step does not touch what was passed on. -/
theorem done_eq_insert {e : Draining} (grows : d.order.toList <+: e.order.toList)
    (passed : e.passed = d.passed + 1) : e.done = insert i d.done := by
  obtain ⟨more, whole⟩ := grows
  have inside : d.passed + 1 ≤ d.order.toList.length := passed_lt next
  rw [done, passed, ← whole, List.take_append_of_le_length inside, List.take_add_one,
    getElem?_of_next next, List.toFinset_append, Finset.union_comm]
  rfl

theorem done_step (receivers : Array (Option ℕ)) :
    (d.step receivers).done = insert i d.done := by
  cases target : receivers.getD i none with
  | none =>
    rw [step_of_ends next target]
    exact done_eq_insert next (List.prefix_refl _) rfl
  | some t =>
    rw [step_of_feeds next target]
    refine done_eq_insert next ?_ rfl
    dsimp only
    split
    · rw [Array.toList_push]
      exact List.prefix_append _ _
    · exact List.prefix_refl _

end

namespace Underway

variable (u : Underway receivers d)

include u

section

variable (next : d.next? = some i)

include next

theorem fresh : i < receivers.size ∧ i ∉ d.done := by
  refine ⟨u.place i (mem_order_of_next next), fun member => ?_⟩
  obtain ⟨inside, here⟩ := List.getElem?_eq_some_iff.mp (getElem?_of_next next)
  have later : i ∈ d.order.toList.drop d.passed := by
    rw [List.drop_eq_getElem_cons inside, here]
    exact List.mem_cons_self
  exact List.disjoint_take_drop u.once le_rfl (List.mem_toFinset.mp member) later

theorem stay (ends : receivers.getD i none = none) : Underway receivers (d.step receivers) := by
  have apart := notMem_feeders_of_none ends
  have done := done_step next receivers
  rw [step_of_ends next ends] at done ⊢
  refine ⟨u.pendingSize, u.receivedSize, u.place, u.once, passed_lt next, fun j hj => ?_,
    u.grounded, fun t ht => ?_, fun t ht => ?_⟩ <;> rw [done]
  · rw [Finset.subset_insert_iff_of_notMem (apart j)]
    exact u.free j hj
  · rw [Finset.sdiff_insert_of_notMem (apart t)]
    exact u.pending t ht
  · rw [Finset.inter_insert_of_notMem (apart t)]
    exact u.received t ht

variable (feeds : Feeds receivers i t)

include feeds

/-- What the next place feeds is still waiting for it. -/
theorem waits (target : t < receivers.size) : t ∉ d.order := by
  rw [u.free t target]
  exact fun all => (u.fresh next).2 (all (mem_feeders.mpr feeds))

theorem pending_pass {j : ℕ} (bound : j < receivers.size) :
    (d.flow.pass i t).pending.getD j 0 = (feeders receivers j \ insert i d.done).card := by
  rw [Flow.pass, getD_modify _ (u.pendingSize ▸ bound), u.pending j bound]
  split_ifs with same
  · subst same
    have waited : i ∈ feeders receivers j \ d.done :=
      Finset.mem_sdiff.mpr ⟨mem_feeders.mpr feeds, (u.fresh next).2⟩
    rw [Finset.sdiff_insert, Finset.card_erase_of_mem waited]
  · rw [Finset.sdiff_insert_of_notMem (feeds.notMem_feeders same)]

theorem emptied_iff (target : t < receivers.size) :
    (d.flow.pass i t).pending.getD t 0 = 0 ↔ feeders receivers t ⊆ insert i d.done := by
  rw [u.pending_pass next feeds target, Finset.card_eq_zero, Finset.sdiff_eq_empty_iff_subset]

theorem received_pass (target : t < receivers.size) {j : ℕ} (bound : j < receivers.size) :
    (d.flow.pass i t).received.getD j 0 =
      ∑ k ∈ feeders receivers j ∩ insert i d.done, ((d.flow.pass i t).received.getD k 0 + 1) := by
  have waits := u.waits next feeds target
  have known : ∀ k ∈ insert i d.done, k ∈ d.order :=
    Finset.forall_mem_insert .. |>.mpr ⟨mem_order_of_next next, fun _ => mem_order_of_done⟩
  -- what has been passed on does not change any more
  have kept : ∀ k ∈ insert i d.done,
      (d.flow.pass i t).received.getD k 0 = d.flow.received.getD k 0 := by
    intro k hk
    have other : k ≠ t := fun same => waits (same ▸ known k hk)
    rw [Flow.pass, getD_modify _ (u.receivedSize ▸ u.place k (known k hk)), if_neg other]
  rw [Finset.sum_congr rfl fun k hk => by rw [kept k (Finset.mem_inter.mp hk).2], Flow.pass,
    getD_modify _ (u.receivedSize ▸ bound), u.received j bound]
  split_ifs with same
  · subst same
    have new : i ∉ feeders receivers j ∩ d.done := fun old =>
      (u.fresh next).2 (Finset.mem_inter.mp old).2
    rw [Finset.inter_insert_of_mem (mem_feeders.mpr feeds), Finset.sum_insert new]
    omega
  · rw [Finset.inter_insert_of_notMem (feeds.notMem_feeders same)]

theorem pass (target : t < receivers.size) : Underway receivers (d.step receivers) := by
  have waits := u.waits next feeds target
  have done := done_step next receivers
  rw [step_of_feeds next feeds] at done ⊢
  have joined (j : ℕ) :
      j ∈ (if (d.flow.pass i t).pending.getD t 0 = 0 then d.order.push t else d.order) ↔
        j ∈ d.order ∨ j = t ∧ feeders receivers t ⊆ insert i d.done := by
    rw [← u.emptied_iff next feeds target]
    split_ifs with empty
    · rw [Array.mem_push, and_iff_left empty]
    · rw [iff_false_intro empty, and_false, or_false]
  constructor
  case pendingSize => exact (Array.size_modify ..).trans u.pendingSize
  case receivedSize => exact (Array.size_modify ..).trans u.receivedSize
  case place =>
    intro j hj
    rcases (joined j).mp hj with old | ⟨rfl, -⟩
    · exact u.place j old
    · exact target
  case once =>
    dsimp only
    split_ifs
    · rw [Array.toList_push, List.nodup_append]
      refine ⟨u.once, List.nodup_singleton t, fun j hj k hk same => waits ?_⟩
      rwa [← List.mem_singleton.mp hk, ← same, ← Array.mem_toList_iff]
    · exact u.once
  case early =>
    have bound := passed_lt next
    dsimp only
    split_ifs
    · rw [Array.size_push]
      omega
    · exact bound
  case free =>
    intro j hj
    rw [done, joined]
    by_cases same : j = t
    · subst same
      simp [waits]
    · rw [Finset.subset_insert_iff_of_notMem (feeds.notMem_feeders same), ← u.free j hj]
      simp [same]
  case grounded =>
    intro j hj
    rcases (joined j).mp hj with old | ⟨rfl, fed⟩
    · exact u.grounded j old
    · refine .intro j fun k feeds => ?_
      rcases Finset.mem_insert.mp (fed (mem_feeders.mpr feeds)) with rfl | passed
      · exact u.grounded k (mem_order_of_next next)
      · exact u.grounded k (mem_order_of_done passed)
  case pending =>
    intro j hj
    rw [done]
    exact u.pending_pass next feeds hj
  case received =>
    intro j hj
    rw [done]
    exact u.received_pass next feeds target hj

end

/-- A step keeps all this. -/
theorem step (closed : Closed receivers) : Underway receivers (d.step receivers) := by
  cases next : d.next? with
  | none =>
    rw [Draining.step, next]
    exact u
  | some i =>
    cases target : receivers.getD i none with
    | none => exact u.stay next target
    | some t => exact u.pass next target (closed i t target)

theorem iterate (closed : Closed receivers) (n : ℕ) :
    Underway receivers ((Draining.step receivers)^[n] d) := by
  induction n generalizing d with
  | zero => exact u
  | succ n ih => exact ih (u.step closed)

end Underway

theorem step_of_ended (receivers : Array (Option ℕ)) (ended : d.next? = none) :
    d.step receivers = d := by
  rw [step, ended]

theorem mem_done_iff_mem_order (ended : d.next? = none) : i ∈ d.done ↔ i ∈ d.order := by
  have whole : d.order.toList.length ≤ d.passed := Array.getElem?_eq_none_iff.mp ended
  rw [done, List.take_of_length_le whole, List.mem_toFinset, Array.mem_toList_iff]

theorem passed_step (receivers : Array (Option ℕ)) (next : d.next? = some i) :
    (d.step receivers).passed = d.passed + 1 := by
  cases target : receivers.getD i none with
  | none => rw [step_of_ends next target]
  | some t => rw [step_of_feeds next target]

theorem done_subset_iterate (receivers : Array (Option ℕ)) (d : Draining) (n : ℕ) :
    d.done ⊆ ((step receivers)^[n] d).done := by
  induction n generalizing d with
  | zero => exact Finset.Subset.refl _
  | succ n ih =>
    refine Finset.Subset.trans ?_ (ih (d.step receivers))
    cases next : d.next? with
    | none => rw [step_of_ended receivers next]
    | some i =>
      rw [done_step next receivers]
      exact Finset.subset_insert i d.done

theorem run_of_ends {n : ℕ} (ends : ((step receivers)^[n] d).next? = none) :
    d.run receivers = (step receivers)^[n] d := by
  apply repeatM_eq_iterate (fun _ => rfl)
  · exact fun d ended => step_of_ended receivers (Option.isNone_iff_eq_none.mp ended)
  · exact Option.isNone_iff_eq_none.mpr ends

namespace Underway

variable (u : Underway receivers d)

include u

theorem size_order_le : d.order.size ≤ receivers.size := by
  have inside : d.order.toList.toFinset ⊆ Finset.range receivers.size := by
    intro i hi
    rw [List.mem_toFinset, Array.mem_toList_iff] at hi
    exact Finset.mem_range.mpr (u.place i hi)
  have counted := Finset.card_le_card inside
  rwa [List.toFinset_card_of_nodup u.once, Finset.card_range] at counted

/-- Draining ends after one step for each place that is passed on, and not before. -/
theorem ends (closed : Closed receivers) : ∃ n ≤ receivers.size - d.passed,
    ∀ k, ((Draining.step receivers)^[k] d).next? = none ↔ n ≤ k := by
  induction left : receivers.size - d.passed generalizing d with
  | zero =>
    have ended : d.next? = none := by
      have whole := u.size_order_le
      exact Array.getElem?_eq_none (by omega)
    refine ⟨0, le_rfl, fun k => iff_of_true ?_ k.zero_le⟩
    rwa [Function.iterate_fixed (step_of_ended receivers ended)]
  | succ left ih =>
    cases next : d.next? with
    | none =>
      refine ⟨0, Nat.zero_le _, fun k => iff_of_true ?_ k.zero_le⟩
      rwa [Function.iterate_fixed (step_of_ended receivers next)]
    | some i =>
      have passed := passed_step receivers next
      obtain ⟨n, few, ends⟩ := ih (u.step closed) (by omega)
      refine ⟨n + 1, Nat.succ_le_succ few, fun k => ?_⟩
      cases k with
      | zero => simp [next]
      | succ k => exact (ends k).trans Nat.succ_le_succ_iff.symm

/-- What has been passed on does not come up again. -/
theorem once_next (closed : Closed receivers) {j k : ℕ} (early : j < k)
    (next : ((Draining.step receivers)^[j] d).next? = some i) :
    ((Draining.step receivers)^[k] d).next? ≠ some i := by
  intro again
  have passed : i ∈ ((Draining.step receivers)^[j + 1] d).done := by
    rw [Function.iterate_succ_apply', done_step next receivers]
    exact Finset.mem_insert_self _ _
  have later := done_subset_iterate receivers
    ((Draining.step receivers)^[j + 1] d) (k - (j + 1)) passed
  rw [← Function.iterate_add_apply, Nat.sub_add_cancel early] at later
  exact ((u.iterate closed k).fresh again).2 later

variable (ended : d.next? = none)

include ended

/-- In the end the places that are on no cycle have been passed on. -/
theorem mem_done_iff (bound : i < receivers.size) : i ∈ d.done ↔ ¬OnCycle (Feeds receivers) i := by
  constructor
  · exact fun passed => not_onCycle_of_acc (u.grounded i (mem_order_of_done passed))
  · contrapose!
    intro left
    have waiting {j : ℕ} :
        j ∈ Finset.range receivers.size \ d.done ↔ j < receivers.size ∧ j ∉ d.done := by
      rw [Finset.mem_sdiff, Finset.mem_range]
    apply onCycle_of_fed _ i (waiting.mpr ⟨bound, left⟩)
    intro t ht
    obtain ⟨inside, held⟩ := waiting.mp ht
    rw [mem_done_iff_mem_order ended, u.free t inside, Finset.not_subset] at held
    obtain ⟨j, feeder, more⟩ := held
    have feeds := mem_feeders.mp feeder
    exact ⟨j, waiting.mpr ⟨feeds.lt_size, more⟩, feeds⟩

end Underway

theorem underway_run (closed : Closed receivers) :
    Underway receivers ((start receivers).run receivers) ∧
      ((start receivers).run receivers).next? = none := by
  have u := underway_start receivers
  obtain ⟨n, _, ends⟩ := u.ends closed
  have ended := (ends n).mpr le_rfl
  rw [run_of_ends ended]
  exact ⟨u.iterate closed n, ended⟩

/-- What a place has received in the end. -/
def received (receivers : Array (Option ℕ)) (t : ℕ) : ℕ :=
  ((start receivers).run receivers).flow.received.getD t 0

theorem acc_of_not_onCycle (closed : Closed receivers) (bound : i < receivers.size)
    (off : ¬OnCycle (Feeds receivers) i) : Acc (Feeds receivers) i := by
  obtain ⟨u, ended⟩ := underway_run closed
  exact u.grounded i (mem_order_of_done ((u.mem_done_iff ended bound).mpr off))

open Classical in
/-- Every place receives its feeders that are not on a cycle, and what they received. -/
theorem received_eq_sum (closed : Closed receivers) (bound : t < receivers.size) :
    received receivers t =
      ∑ i ∈ feeders receivers t with ¬OnCycle (Feeds receivers) i, (received receivers i + 1) := by
  obtain ⟨u, ended⟩ := underway_run closed
  refine (u.received t bound).trans (Finset.sum_congr ?_ fun _ _ => rfl)
  rw [← Finset.filter_mem_eq_inter]
  exact Finset.filter_congr fun i hi => u.mem_done_iff ended (mem_feeders.mp hi).lt_size

theorem balanced_received (closed : Closed receivers)
    (acyclic : ∀ i, ¬OnCycle (Feeds receivers) i) : Balanced receivers (received receivers) := by
  intro t ht
  classical
  rw [received_eq_sum closed ht, Finset.filter_true_of_mem fun i _ => acyclic i]

end Draining

end Geospatial.Terrain
