import Geospatial.Proofs.Scalar.DoubleOrder
import Geospatial.Proofs.Scalar.Real
import Geospatial.Proofs.Terrain.Descent
import Geospatial.Proofs.Terrain.Drain

/-! Flow is conserved. On directions without a cycle, each cell receives the cells that drain to
it and what these received; so the cells that drain nowhere receive all the others. -/
namespace Geospatial.Terrain

open Grid

variable {K : Type} [Scalar K] {g : Grid K} {p q : ℕ × ℕ}

theorem size_receivers (g : Grid K) : (receivers g).size = g.height * g.width :=
  Array.size_ofFn

theorem getD_receivers {i : ℕ} (bound : i < g.height * g.width) :
    (receivers g).getD i none = (g.downstream? (g.cellAt i)).map g.place := by
  rw [Array.getD_eq_getD_getElem?, receivers, Array.getElem?_ofFn, dif_pos bound, Option.getD_some,
    Grid.downstream?, Option.map_bind]
  rfl

theorem feeds_place_iff (hp : p ∈ g.area) (hq : q ∈ g.area) :
    Flow.Feeds (receivers g) (g.place p) (g.place q) ↔ g.Drains p q := by
  rw [Flow.Feeds, getD_receivers (place_lt hp), cellAt_place hp, Option.map_eq_some_iff]
  constructor
  · rintro ⟨q', drains, same⟩
    have target : g.cellAt (g.place q') = q' := cellAt_place (Drains.mem_area drains)
    rw [same, cellAt_place hq] at target
    rwa [← target] at drains
  · exact fun drains => ⟨q, drains, rfl⟩

theorem ends_place_iff (hp : p ∈ g.area) :
    (receivers g).getD (g.place p) none = none ↔ g.downstream? p = none := by
  rw [getD_receivers (place_lt hp), cellAt_place hp, Option.map_eq_none_iff]

theorem drains_of_feeds {i t : ℕ} (feeds : Flow.Feeds (receivers g) i t) :
    g.Drains (g.cellAt i) (g.cellAt t) := by
  have bound := feeds.lt_size
  rw [size_receivers] at bound
  rw [Flow.Feeds, getD_receivers bound] at feeds
  obtain ⟨q, drains, rfl⟩ := Option.map_eq_some_iff.mp feeds
  rwa [cellAt_place (Drains.mem_area drains)]

theorem closed_receivers (g : Grid K) : Flow.Closed (receivers g) := by
  intro i t feeds
  rw [← g.place_cellAt t, size_receivers]
  exact place_lt (drains_of_feeds feeds).mem_area

/-- A way from place to place is a way from cell to cell. -/
theorem drains_of_way {i t : ℕ} (way : Relation.TransGen (Flow.Feeds (receivers g)) i t) :
    Relation.TransGen g.Drains (g.cellAt i) (g.cellAt t) :=
  way.lift g.cellAt fun _ _ => drains_of_feeds

/-- The number of cells that drain to a cell, directly or through others. -/
def upstream (g : Grid K) (p : ℕ × ℕ) : ℕ := Draining.received (receivers g) (g.place p)

section

variable (acyclic : ∀ p, ¬Relation.TransGen g.Drains p p)

include acyclic

theorem balanced_upstream : Flow.Balanced (receivers g) fun i => upstream g (g.cellAt i) := by
  simpa only [upstream, place_cellAt] using Draining.balanced_received (closed_receivers g)
    fun i way => acyclic (g.cellAt i) (drains_of_way way)

/-- Each cell receives those that drain to it, and what they received. -/
theorem upstream_eq (inside : p ∈ g.area) :
    upstream g p = ∑ q ∈ g.valid with g.downstream? q = some p, (upstream g q + 1) := by
  have bound := place_lt inside
  rw [← size_receivers] at bound
  have received := balanced_upstream acyclic (g.place p) bound
  rw [Flow.feeders, Finset.sum_filter, size_receivers, sum_places] at received
  dsimp only at received
  rw [cellAt_place inside] at received
  rw [received, valid, Finset.filter_filter, Finset.sum_filter]
  refine Finset.sum_congr rfl fun q hq => ?_
  have same : (receivers g).getD (g.place q) none = some (g.place p) ↔
      (g.value? q.1 q.2).isSome ∧ g.downstream? q = some p := by
    rw [← Flow.Feeds, feeds_place_iff hq inside, Drains, iff_and_self]
    exact fun drains => (Finset.mem_filter.mp (Drains.mem_valid drains)).2
  rw [cellAt_place hq]
  exact if_congr same rfl rfl

theorem sum_upstream_area :
    ∑ p ∈ g.area with g.downstream? p = none, (upstream g p + 1) = g.area.card := by
  have ends := (balanced_upstream acyclic).sum_ends (closed_receivers g)
  rw [Finset.sum_filter, size_receivers, sum_places] at ends
  rw [Finset.sum_filter, area, Finset.card_product, Finset.card_range, Finset.card_range, ← ends]
  refine Finset.sum_congr rfl fun p hp => ?_
  rw [cellAt_place hp]
  exact if_congr (ends_place_iff hp).symm rfl rfl

/-- Where no cell drains to an empty one, the empty cells have no part in this. -/
theorem sum_upstream_valid (sound : ∀ p q, g.Drains p q → q ∈ g.valid) :
    ∑ p ∈ g.valid with g.downstream? p = none, (upstream g p + 1) = g.valid.card := by
  have whole := sum_upstream_area acyclic
  -- an empty cell neither drains nor receives, so that it accounts for itself alone
  have void : ∀ p ∈ g.area \ g.valid,
      (if g.downstream? p = none then upstream g p + 1 else 0) = 1 := by
    intro p hp
    obtain ⟨inside, empty⟩ := Finset.mem_sdiff.mp hp
    have ends : g.downstream? p = none :=
      Option.eq_none_iff_forall_ne_some.mpr fun q drains => empty (Drains.mem_valid drains)
    have nothing : upstream g p = 0 := by
      rw [upstream_eq acyclic inside, Finset.filter_false_of_mem, Finset.sum_empty]
      exact fun q _ drains => empty (sound q p drains)
    rw [if_pos ends, nothing]
  have part : g.valid ⊆ g.area := Finset.filter_subset _ _
  rw [Finset.sum_filter, ← Finset.sum_sdiff part, Finset.sum_congr rfl void,
    ← Finset.card_eq_sum_ones, ← Finset.card_sdiff_add_card_eq_card part] at whole
  rw [Finset.sum_filter]
  exact Nat.add_left_cancel whole

end

def accumulated (g : Grid K) : Grid K :=
  ⟨g.frame, Array.ofFn fun i : Fin (g.height * g.width) =>
    (g.value? (g.cellAt i).1 (g.cellAt i).2).map fun _ => ((upstream g (g.cellAt i) : ℕ) : K), none⟩

theorem flowAccumulation_eq_ok {signal : Signal} (quiet : signal ≠ .triggered) (g : Grid K) :
    flowAccumulation g signal = .ok (accumulated g) := by
  simp only [flowAccumulation, Signal.check_eq_ok quiet, accumulated, upstream,
    Draining.received, place_cellAt]
  split <;> rfl

theorem cells_accumulated (inside : p ∈ g.area) : (accumulated g).cells[g.place p]? =
    some ((g.value? p.1 p.2).map fun _ => ((upstream g p : ℕ) : K)) := by
  rw [accumulated, Array.getElem?_ofFn, dif_pos (place_lt inside)]
  dsimp only
  rw [cellAt_place inside]

theorem get?_accumulated (fits : g.frame.Addressable) (inside : p ∈ g.area) :
    (accumulated g).get? p.1 p.2 =
      some ((g.value? p.1 p.2).map fun _ => ((upstream g p : ℕ) : K)) := by
  obtain ⟨hr, hc⟩ := mem_area.mp inside
  rw [get?, if_pos ⟨hr, hc⟩]
  change (accumulated g).cells[g.frame.offset p.1 p.2]? = _
  rw [fits.offset_eq hr hc]
  exact cells_accumulated inside

variable [Scalar.LawfulSign K] {dem : Grid K}

/-- The cells with code zero are those that drain nowhere. -/
theorem code_beq_zero_iff (fits : dem.frame.Addressable) (here : p ∈ dem.valid) :
    ((flowGrid dem).value? p.1 p.2).any (· == 0) = true ↔ (flowGrid dem).downstream? p = none := by
  obtain ⟨z, here⟩ := mem_valid.mp here
  rcases downstream?_flowGrid fits here with ⟨zero, ends⟩ | ⟨d, code, q, _, _, drains, _⟩
  · have number := Scalar.le_left (Scalar.le_of_lt (Direction.code_pos (K := K) .east))
    have same : ((0 : K) == 0) = true := Scalar.beq_iff.mpr ⟨number, number⟩
    simp [zero, ends, same]
  · simp [code, drains, Direction.code_beq_zero]

/-- On an elevation grid, every code is zero or that of a direction to a cell of the grid that has
an elevation; no way along the directions leads back; the empty cells of both results are those
of the elevation grid. Each cell accumulates the cells that drain to it and what these
accumulated, and the cells with code zero account for all that have an elevation. -/
theorem flow_conserved {signal : Signal} (quiet : signal ≠ .triggered)
    (fits : dem.frame.Addressable) :
    ∃ directions accumulation : Grid K,
      flowDirection dem signal = .ok directions ∧
      flowAccumulation directions signal = .ok accumulation ∧
      (∀ p ∈ dem.valid, directions.value? p.1 p.2 = some 0 ∨
        ∃ (d : Direction) (q : ℕ × ℕ), directions.value? p.1 p.2 = some (d.code : K) ∧
          d.neighbor? dem.height dem.width p.1 p.2 = some q ∧ q ∈ dem.valid) ∧
      (∀ p, ¬Relation.TransGen directions.Drains p p) ∧
      (∀ p ∈ dem.area, (directions.get? p.1 p.2 = some none ↔ dem.value? p.1 p.2 = none) ∧
        (accumulation.get? p.1 p.2 = some none ↔ dem.value? p.1 p.2 = none)) ∧
      ∃ count : ℕ × ℕ → ℕ,
        (∀ p ∈ dem.valid, accumulation.value? p.1 p.2 = some (count p : K) ∧
          count p = ∑ q ∈ dem.valid with directions.downstream? q = some p, (count q + 1)) ∧
        ∑ p ∈ dem.valid with (directions.value? p.1 p.2).any (· == 0), (count p + 1) =
          dem.valid.card := by
  have acyclic := acyclic_flowGrid fits
  have framed : (flowGrid dem).frame.Addressable := fits
  have sound : ∀ p q, (flowGrid dem).Drains p q → q ∈ (flowGrid dem).valid := by
    intro p q drains
    obtain ⟨_, below, _, there, _⟩ := steep_of_drains fits drains
    rw [valid_flowGrid fits]
    exact mem_valid.mpr ⟨below, there⟩
  refine ⟨flowGrid dem, accumulated (flowGrid dem), flowDirection_eq_ok quiet dem,
    flowAccumulation_eq_ok quiet _, fun p hp => ?_, acyclic, fun p hp => ?_,
    upstream (flowGrid dem), fun p hp => ?_, ?_⟩
  · obtain ⟨z, here⟩ := mem_valid.mp hp
    rcases downstream?_flowGrid fits here with ⟨zero, _⟩ | ⟨d, code, q, below, next, _, there, _⟩
    · exact Or.inl zero
    · exact Or.inr ⟨d, q, code, next, mem_valid.mpr ⟨below, there⟩⟩
  · obtain ⟨hr, hc⟩ := mem_area.mp hp
    have coded : flowCode dem p.1 p.2 = none ↔ dem.value? p.1 p.2 = none := Option.map_eq_none_iff
    have inside : p ∈ (flowGrid dem).area := hp
    rw [get?_accumulated framed inside, value?_flowGrid fits hr hc, get?_flowGrid fits hr hc,
      Option.some_inj, Option.some_inj, Option.map_eq_none_iff, coded]
    exact ⟨Iff.rfl, Iff.rfl⟩
  · have inside : p ∈ (flowGrid dem).area := Finset.filter_subset _ _ hp
    rw [← valid_flowGrid fits] at hp ⊢
    obtain ⟨v, code⟩ := mem_valid.mp hp
    refine ⟨?_, upstream_eq acyclic inside⟩
    rw [value?_eq_join rfl, get?_accumulated framed inside, code]
    rfl
  · have whole := sum_upstream_valid acyclic sound
    rw [valid_flowGrid fits] at whole
    rw [← whole]
    exact Finset.sum_congr (Finset.filter_congr fun p hp => code_beq_zero_iff fits hp)
      fun _ _ => rfl

/-- A valley in doubles with an empty cell and a marked one, and a slope in real numbers. -/
theorem flow_conserved_valley :
    (let dem : Grid Float := ⟨⟨3, 2, ⟨0, 2, none⟩, 1⟩,
      #[some 5, some 4, some (-1), some 4, some 3, none], some (-1)⟩
    dem.frame.Addressable ∧ dem.valid.card = 4 ∧
      ∃ directions, flowDirection dem .absent = .ok directions ∧ ∃ count : ℕ × ℕ → ℕ,
        ∑ p ∈ dem.valid with (directions.value? p.1 p.2).any (· == 0), (count p + 1) = 4) ∧
    let slope : Grid ℝ := ⟨⟨2, 1, ⟨0, 1, none⟩, 1⟩, #[some 2, some 1], none⟩
    ∃ directions, flowDirection slope .absent = .ok directions ∧
      ∀ p, ¬Relation.TransGen directions.Drains p p := by
  have quiet : Signal.absent ≠ .triggered := nofun
  constructor
  · intro dem
    have fits : dem.frame.Addressable := by decide
    have four : dem.valid.card = 4 := by decide +kernel
    obtain ⟨directions, _, flows, _, _, _, _, count, _, conserved⟩ :=
      flow_conserved quiet fits
    exact ⟨fits, four, directions, flows, count, conserved.trans four⟩
  · intro slope
    have fits : slope.frame.Addressable := by decide
    obtain ⟨directions, _, flows, _, _, acyclic, _⟩ :=
      flow_conserved quiet fits
    exact ⟨directions, flows, acyclic⟩

end Geospatial.Terrain
