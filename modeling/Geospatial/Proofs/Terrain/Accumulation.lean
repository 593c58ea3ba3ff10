import Mathlib.Data.Set.Card
import Geospatial.Proofs.Terrain.Conservation

/-! What accumulates on a grid of directions of any kind. From each place one way leads on at most,
so that the places with ways to a place are told apart by the last step of their ways. A place that
is on no cycle receives all of these, and a place on a cycle those whose ways come to the cycle
there. -/
namespace Geospatial.Terrain

section

variable {α : Type} {r : α → α → Prop} {a b c d : α}

/-- A step from what is on no cycle. -/
def Leads (r : α → α → Prop) (a b : α) : Prop := r a b ∧ ¬OnCycle r a

theorem leads_le : Leads r ≤ r := fun _ _ => And.left

theorem way_of_leads (way : Relation.TransGen (Leads r) a b) : Relation.TransGen r a b :=
  Relation.TransGen.mono leads_le a b way

variable (unique : Relator.RightUnique r)

include unique

theorem OnCycle.next (cycle : OnCycle r a) (step : r a b) : OnCycle r b := by
  obtain ⟨c, first, back⟩ := Relation.TransGen.head'_iff.mp cycle
  obtain rfl := unique first step
  exact .tail' back first

/-- No way to what is on no cycle meets one. -/
theorem transGen_leads_iff (off : ¬OnCycle r b) :
    Relation.TransGen (Leads r) a b ↔ Relation.TransGen r a b := by
  refine ⟨way_of_leads, fun way => ?_⟩
  induction way with
  | single step => exact .single ⟨step, fun cycle => off (cycle.next unique step)⟩
  | tail _ step ih =>
    have before := fun cycle => off (OnCycle.next unique cycle step)
    exact (ih before).tail ⟨step, before⟩

/-- What comes before on no cycle does not come before once more. -/
theorem Leads.eq_of_way (first : Leads r a c) (second : Leads r b c)
    (way : Relation.ReflTransGen (Leads r) a b) : a = b := by
  rcases Relation.reflTransGen_iff_eq_or_transGen.mp way with same | further
  · exact same.symm
  · obtain ⟨d, step, rest⟩ := Relation.TransGen.head'_iff.mp further
    obtain rfl := unique first.1 step.1
    exact absurd (.head' second.1 (Relation.ReflTransGen.mono leads_le _ _ rest)) second.2

/-- Ways from one place to another one have the last step in common. -/
theorem Leads.eq_of_ways (first : Leads r a c) (second : Leads r b c)
    (left : Relation.ReflTransGen (Leads r) d a) (right : Relation.ReflTransGen (Leads r) d b) :
    a = b := by
  have functional : Relator.RightUnique (Leads r) := fun _ _ _ h h' => unique h.1 h'.1
  rcases Relation.ReflTransGen.total_of_right_unique functional left right with way | way
  · exact first.eq_of_way unique second way
  · exact (second.eq_of_way unique first way).symm

end

namespace Flow

variable {receivers : Array (Option ℕ)} {i t : ℕ}

open Classical in
/-- The places from which a way leads to a place without meeting a cycle before. -/
noncomputable def origins (receivers : Array (Option ℕ)) (t : ℕ) : Finset ℕ :=
  {i ∈ Finset.range receivers.size | Relation.TransGen (Leads (Feeds receivers)) i t}

theorem mem_origins :
    i ∈ origins receivers t ↔ Relation.TransGen (Leads (Feeds receivers)) i t := by
  classical
  rw [origins, Finset.mem_filter, Finset.mem_range]
  refine and_iff_right_of_imp fun way => ?_
  obtain ⟨_, ⟨feeds, _⟩, _⟩ := Relation.TransGen.head'_iff.mp way
  exact feeds.lt_size

theorem mem_insert_origins :
    i ∈ insert t (origins receivers t) ↔ Relation.ReflTransGen (Leads (Feeds receivers)) i t := by
  rw [Finset.mem_insert, mem_origins, Relation.reflTransGen_iff_eq_or_transGen, eq_comm]

open Classical in
/-- The origins of a place are its feeders that are on no cycle, and the origins of these. -/
theorem card_origins (receivers : Array (Option ℕ)) (t : ℕ) : (origins receivers t).card =
    ∑ i ∈ feeders receivers t with ¬OnCycle (Feeds receivers) i,
      ((origins receivers i).card + 1) := by
  have last {i : ℕ} : i ∈ {i ∈ feeders receivers t | ¬OnCycle (Feeds receivers) i} ↔
      Leads (Feeds receivers) i t := by
    rw [Finset.mem_filter, mem_feeders, Leads]
  have parts : origins receivers t =
      {i ∈ feeders receivers t | ¬OnCycle (Feeds receivers) i}.biUnion
        fun i => insert i (origins receivers i) := by
    ext q
    rw [mem_origins, Relation.TransGen.tail'_iff, Finset.mem_biUnion]
    exact exists_congr fun i => by rw [mem_insert_origins, last, and_comm]
  rw [parts, Finset.card_biUnion]
  · refine Finset.sum_congr rfl fun i hi => Finset.card_insert_of_notMem fun way => ?_
    exact (last.mp hi).2 (way_of_leads (mem_origins.mp way))
  · intro i hi j hj apart
    refine Finset.disjoint_left.mpr fun q left right => apart ?_
    apply Leads.eq_of_ways (feeds_unique receivers) (last.mp hi) (last.mp hj)
    · exact mem_insert_origins.mp left
    · exact mem_insert_origins.mp right

theorem wellFounded_leads (closed : Closed receivers) : WellFounded (Leads (Feeds receivers)) := by
  refine ⟨fun t => .intro t fun i leads => ?_⟩
  have grounded := Draining.acc_of_not_onCycle closed leads.1.lt_size leads.2
  exact Subrelation.accessible (leads_le _ _) grounded

/-- Every place receives its origins. -/
theorem received_eq_card (closed : Closed receivers) (bound : t < receivers.size) :
    Draining.received receivers t = (origins receivers t).card := by
  classical
  induction t using (wellFounded_leads closed).induction with
  | _ t ih =>
    rw [Draining.received_eq_sum closed bound, card_origins]
    refine Finset.sum_congr rfl fun i hi => ?_
    obtain ⟨feeder, off⟩ := Finset.mem_filter.mp hi
    have feeds := mem_feeders.mp feeder
    rw [ih i ⟨feeds, off⟩ feeds.lt_size]

end Flow

open Grid

variable {K : Type} [Scalar K] {g : Grid K} {p q : ℕ × ℕ}

theorem drains_unique (g : Grid K) : Relator.RightUnique g.Drains :=
  fun _ _ _ drains other => Option.some.inj (Eq.trans (Eq.symm drains) other)

theorem mem_area_of_drains (drains : g.Drains p q) : p ∈ g.area :=
  Finset.filter_subset _ _ drains.mem_valid

theorem feeds_of_drains (drains : g.Drains p q) :
    Flow.Feeds (receivers g) (g.place p) (g.place q) :=
  (feeds_place_iff (mem_area_of_drains drains) drains.mem_area).mpr drains

theorem leads_of_feeds {i t : ℕ} (leads : Leads (Flow.Feeds (receivers g)) i t) :
    Leads g.Drains (g.cellAt i) (g.cellAt t) := by
  refine ⟨drains_of_feeds leads.1, fun cycle => leads.2 ?_⟩
  have way : OnCycle _ (g.place (g.cellAt i)) := cycle.lift g.place fun _ _ => feeds_of_drains
  rwa [place_cellAt] at way

theorem leads_of_drains (leads : Leads g.Drains p q) :
    Leads (Flow.Feeds (receivers g)) (g.place p) (g.place q) := by
  refine ⟨feeds_of_drains leads.1, fun cycle => leads.2 ?_⟩
  have way := drains_of_way cycle
  rwa [cellAt_place (mem_area_of_drains leads.1)] at way

/-- The origins of a cell, counted as cells. -/
theorem encard_origins (inside : p ∈ g.area) : {q | Relation.TransGen (Leads g.Drains) q p}.encard =
    (Flow.origins (receivers g) (g.place p)).card := by
  have image : {q | Relation.TransGen (Leads g.Drains) q p} =
      g.cellAt '' (Flow.origins (receivers g) (g.place p)) := by
    ext q
    constructor
    · intro way
      obtain ⟨_, first, _⟩ := Relation.TransGen.head'_iff.mp way
      have below := way.lift g.place fun _ _ => leads_of_drains
      exact ⟨g.place q, Flow.mem_origins.mpr below, cellAt_place (mem_area_of_drains first.1)⟩
    · rintro ⟨i, hi, rfl⟩
      have way : Relation.TransGen (Leads g.Drains) (g.cellAt i) (g.cellAt (g.place p)) :=
        (Flow.mem_origins.mp hi).lift g.cellAt fun _ _ => leads_of_feeds
      rwa [cellAt_place inside] at way
  rw [image, (Function.LeftInverse.injective g.place_cellAt).encard_image,
    Set.encard_coe_eq_coe_finsetCard]

theorem encard_origins_eq_upstream (inside : p ∈ g.area) :
    {q | Relation.TransGen (Leads g.Drains) q p}.encard = upstream g p := by
  have bound := place_lt inside
  rw [← size_receivers] at bound
  rw [encard_origins inside, upstream, Flow.received_eq_card (closed_receivers g) bound]

/-- Whatever the directions are, accumulation ends after one step for each of some of the cells,
and takes no cell twice. A cell with a value that is on no cycle of directions accumulates the
other cells from which the directions lead to it. One on a cycle accumulates the cells off the
cycle from which they lead to it and to no cell of the cycle before. -/
theorem flow_counted {signal : Signal} (quiet : signal ≠ .triggered) (g : Grid K) :
    let start := Draining.start (receivers g)
    let step := Draining.step (receivers g)
    (∃ n ≤ g.height * g.width, start.run (receivers g) = step^[n] start ∧
      ∀ k, (step^[k] start).next? = none ↔ n ≤ k) ∧
    (∀ i j k, (step^[j] start).next? = some i → (step^[k] start).next? = some i → j = k) ∧
    ∃ accumulation, flowAccumulation g signal = .ok accumulation ∧ accumulation.frame = g.frame ∧
      (∀ p ∈ g.area \ g.valid, accumulation.cells[g.place p]? = some none) ∧
      ∀ p ∈ g.valid, ∃ count : ℕ, accumulation.cells[g.place p]? = some (some (count : K)) ∧
        (¬OnCycle g.Drains p → {q | q ≠ p ∧ Relation.TransGen g.Drains q p}.encard = count) ∧
        (OnCycle g.Drains p → {q | Relation.TransGen (Leads g.Drains) q p}.encard = count) := by
  have closed := closed_receivers g
  have u := Draining.underway_start (receivers g)
  refine ⟨?_, fun i j k first second => ?_, accumulated g, flowAccumulation_eq_ok quiet g, rfl,
    fun p hp => ?_, fun p hp => ?_⟩
  · obtain ⟨n, few, ends⟩ := u.ends closed
    refine ⟨n, ?_, Draining.run_of_ends ((ends n).mpr le_rfl), ends⟩
    rwa [← size_receivers]
  · rcases Nat.lt_trichotomy j k with early | same | late
    · exact absurd second (u.once_next closed early first)
    · exact same
    · exact absurd first (u.once_next closed late second)
  · obtain ⟨inside, void⟩ := Finset.mem_sdiff.mp hp
    have missing : g.value? p.1 p.2 = none :=
      Option.eq_none_iff_forall_ne_some.mpr fun v here => void (mem_valid.mpr ⟨v, here⟩)
    rw [cells_accumulated inside, missing]
    rfl
  · have inside : p ∈ g.area := Finset.filter_subset _ _ hp
    obtain ⟨v, here⟩ := mem_valid.mp hp
    refine ⟨upstream g p, ?_, fun off => ?_, fun _ => encard_origins_eq_upstream inside⟩
    · rw [cells_accumulated inside, here]
      rfl
    · rw [← encard_origins_eq_upstream inside]
      refine congrArg Set.encard (Set.ext fun q => ?_)
      rw [Set.mem_ofPred, Set.mem_ofPred, transGen_leads_iff (drains_unique g) off]
      refine and_iff_right_of_imp fun way same => off ?_
      rwa [same] at way

/-- Two cells that drain to each other, and one on either side that drains to them. -/
theorem flow_counted_whirl :
    let g : Grid Float := ⟨⟨4, 1, ⟨0, 1, none⟩, 1⟩, #[some 1, some 1, some 16, some 16], none⟩
    OnCycle g.Drains (0, 1) ∧ {q | Relation.TransGen (Leads g.Drains) q (0, 1)}.encard = 1 ∧
      ∃ accumulation, flowAccumulation g .absent = .ok accumulation ∧
        accumulation.cells[1]? = some (some 1) := by
  intro g
  have quiet : Signal.absent ≠ .triggered := nofun
  have east : g.Drains (0, 1) (0, 2) := by
    rw [Drains]
    decide +kernel
  have west : g.Drains (0, 2) (0, 1) := by
    rw [Drains]
    decide +kernel
  have cycle : OnCycle g.Drains (0, 1) := .tail (.single east) west
  have ends : ((Draining.step (receivers g))^[2] (.start (receivers g))).next? = none := by
    decide +kernel
  have one : upstream g (0, 1) = 1 := by
    rw [upstream, Draining.received, Draining.run_of_ends ends]
    decide +kernel
  have counted := encard_origins_eq_upstream west.mem_area
  rw [one] at counted
  obtain ⟨_, _, accumulation, flows, _, _, counts⟩ := flow_counted quiet g
  obtain ⟨count, here, _, whirl⟩ := counts (0, 1) east.mem_valid
  have same : (count : ℕ∞) = (1 : ℕ) := (whirl cycle).symm.trans counted
  rw [Nat.cast_inj.mp same] at here
  exact ⟨cycle, counted, accumulation, flows, here⟩

end Geospatial.Terrain
