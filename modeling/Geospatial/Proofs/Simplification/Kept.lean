import Mathlib.Data.List.Nodup
import Mathlib.Data.Nat.Find
import Geospatial.Proofs.Simplification.Ending
import Geospatial.Simplification.ChordSearch

/-! Which vertices the search of a line keeps, apart from the order in which it finds them: the
ends, and those at which the whole line or a part of it is cut. Between two neighbors among them
lies a stretch that is not cut, and so no vertex that is farther than the tolerance from its chord.
The vertices of a line at some of its places are in their order, each comes from one place, and the
ends of the line are among them if their places are. -/
namespace Geospatial.Path

section Places

variable {K : Type} {points : Path K} {stays : ℕ → Bool} {i j : ℕ}

/-- The places that are selected, in rising order. -/
def places (points : Path K) (stays : ℕ → Bool) : List ℕ :=
  (points.zipIdx.filter fun q => stays q.2).map (·.2)

theorem mem_places : i ∈ points.places stays ↔ i < points.length ∧ stays i = true := by
  simp only [places, List.mem_map, List.mem_filter, Prod.exists, List.mem_zipIdx_iff_getElem?]
  constructor
  · rintro ⟨p, _, ⟨here, stay⟩, rfl⟩
    exact ⟨(List.getElem?_eq_some_iff.mp here).1, stay⟩
  · rintro ⟨inside, stay⟩
    exact ⟨_, i, ⟨List.getElem?_eq_getElem inside, stay⟩, rfl⟩

theorem pairwise_places (points : Path K) (stays : ℕ → Bool) :
    (points.places stays).Pairwise (· < ·) := by
  have sorted : (points.zipIdx.map (·.2)).Pairwise (· < ·) := by
    rw [List.zipIdx_map_snd]
    exact List.pairwise_lt_range'
  exact sorted.sublist (List.filter_sublist.map _)

theorem select_sublist (points : Path K) (stays : ℕ → Bool) :
    (points.select stays).Sublist points := by
  have kept : (points.select stays).Sublist (points.zipIdx.map (·.1)) := List.filter_sublist.map _
  rwa [List.zipIdx_map_fst] at kept

theorem select_eq_self (all : ∀ i < points.length, stays i = true) :
    points.select stays = points := by
  rw [select, List.filter_eq_self.mpr, List.zipIdx_map_fst]
  intro q hq
  exact all q.2 (List.getElem?_eq_some_iff.mp (List.mem_zipIdx_iff_getElem?.mp hq)).1

theorem length_select (points : Path K) (stays : ℕ → Bool) :
    (points.select stays).length = (points.places stays).length := by
  rw [select, places, List.length_map, List.length_map]

/-- Each vertex that is selected is the one at its place. -/
theorem getElem?_select (here : (points.places stays)[j]? = some i) :
    (points.select stays)[j]? = points[i]? := by
  rw [places, List.getElem?_map, Option.map_eq_some_iff] at here
  obtain ⟨q, found, rfl⟩ := here
  have chosen := List.mem_of_mem_filter (List.mem_of_getElem? found)
  rw [select, List.getElem?_map, found, Option.map_some, List.mem_zipIdx_iff_getElem?.mp chosen]

/-- The place that a selected vertex had in the line. -/
def place (points : Path K) (stays : ℕ → Bool) (j : ℕ) : ℕ := (points.places stays).getD j 0

theorem getElem?_places (inside : j < (points.select stays).length) :
    (points.places stays)[j]? = some (points.place stays j) := by
  rw [length_select] at inside
  rw [place, List.getD_eq_getElem?_getD, List.getElem?_eq_getElem inside, Option.getD_some]

theorem place_mem (inside : j < (points.select stays).length) :
    points.place stays j ∈ points.places stays := List.mem_of_getElem? (getElem?_places inside)

theorem exists_place (inside : i < points.length) (stay : stays i = true) :
    ∃ j < (points.select stays).length, points.place stays j = i := by
  obtain ⟨j, here⟩ := List.mem_iff_getElem?.mp (mem_places.mpr ⟨inside, stay⟩)
  have inside := (List.getElem?_eq_some_iff.mp here).1
  rw [← length_select] at inside
  exact ⟨j, inside, Option.some.inj ((getElem?_places inside).symm.trans here)⟩

/-- The first place is the first one selected, if it is selected at all. -/
theorem places_first (here : 0 ∈ points.places stays) : (points.places stays)[0]? = some 0 := by
  have sorted := pairwise_places points stays
  cases cons : points.places stays with
  | nil => simp [cons] at here
  | cons i is =>
    rw [cons] at here sorted
    rcases List.mem_cons.mp here with rfl | later
    · rfl
    · exact absurd ((List.pairwise_cons.mp sorted).1 0 later) (Nat.not_lt_zero i)

theorem places_last (here : points.length - 1 ∈ points.places stays) :
    (points.places stays)[(points.places stays).length - 1]? = some (points.length - 1) := by
  have sorted := pairwise_places points stays
  obtain ⟨is, i, split⟩ : ∃ is i, points.places stays = is ++ [i] :=
    (List.eq_nil_or_concat' _).resolve_left (List.ne_nil_of_mem here)
  have chosen : i ∈ points.places stays := by simp [split]
  have inside : i < points.length := (mem_places.mp chosen).1
  rw [split] at here sorted ⊢
  have last : i = points.length - 1 := by
    rcases List.mem_append.mp here with before | same
    · have less := (List.pairwise_append.mp sorted).2.2 _ before i List.mem_cons_self
      omega
    · exact (List.mem_singleton.mp same).symm
  simp [last]

theorem place_zero (filled : 0 < points.length) (first : stays 0 = true) :
    points.place stays 0 = 0 := by
  rw [place, List.getD_eq_getElem?_getD, places_first (mem_places.mpr ⟨filled, first⟩),
    Option.getD_some]

theorem place_last (filled : 0 < points.length) (last : stays (points.length - 1) = true) :
    points.place stays ((points.select stays).length - 1) = points.length - 1 := by
  rw [place, List.getD_eq_getElem?_getD, length_select,
    places_last (mem_places.mpr ⟨Nat.sub_lt filled Nat.one_pos, last⟩), Option.getD_some]

theorem head?_select (filled : 0 < points.length) (first : stays 0 = true) :
    (points.select stays).head? = points.head? := by
  rw [List.head?_eq_getElem?, List.head?_eq_getElem?]
  exact getElem?_select (places_first (mem_places.mpr ⟨filled, first⟩))

theorem getLast?_select (filled : 0 < points.length) (last : stays (points.length - 1) = true) :
    (points.select stays).getLast? = points.getLast? := by
  rw [List.getLast?_eq_getElem?, List.getLast?_eq_getElem?, length_select]
  exact getElem?_select (places_last (mem_places.mpr ⟨Nat.sub_lt filled Nat.one_pos, last⟩))

end Places

variable {K : Type} [Scalar K] {vertex : ℕ → Position K} {tolerance : K}

namespace Stretch

variable {r : Stretch} {i j k : ℕ}

/-- The stretch or what comes of it is cut at a place. -/
def Keeps (vertex : ℕ → Position K) (tolerance : K) (r : Stretch) (j : ℕ) : Prop :=
  ∃ q, Relation.ReflTransGen (HasPart vertex tolerance) r q ∧ q.cut? vertex tolerance = some j

theorem not_keeps_of_uncut (uncut : r.cut? vertex tolerance = none) :
    ¬r.Keeps vertex tolerance j := by
  rintro ⟨q, reached, cut⟩
  rw [eq_of_uncut uncut reached, uncut] at cut
  contradiction

theorem keeps_of_cut (cut : r.cut? vertex tolerance = some i) : r.Keeps vertex tolerance j ↔
    j = i ∨ Keeps vertex tolerance ⟨i, r.last⟩ j ∨ Keeps vertex tolerance ⟨r.first, i⟩ j := by
  simp only [Keeps, reaches_of_cut cut, or_and_right, exists_or, exists_eq_left, cut,
    Option.some.injEq]
  rw [eq_comm]

variable [Scalar.LawfulOrder K]

theorem Keeps.between (keeps : r.Keeps vertex tolerance j) (parted : r.Parted vertex tolerance) :
    r.first < j ∧ j < r.last := by
  obtain ⟨q, reached, cut⟩ := keeps
  induction reached using Relation.ReflTransGen.head_induction_on with
  | refl => exact parted.between cut
  | head part _ ih =>
    obtain ⟨i, found, part⟩ := part
    have inside := parted.between found
    obtain ⟨right, left⟩ := (parted_of_cut found).mp parted
    rcases part with rfl | rfl
    · exact ⟨(ih left).1, (ih left).2.trans inside.2⟩
    · exact ⟨inside.1.trans (ih right).1, (ih right).2⟩

/-- A place is an end of a stretch, or the search of the stretch cuts there. -/
def Holds (vertex : ℕ → Position K) (tolerance : K) (r : Stretch) (j : ℕ) : Prop :=
  j = r.first ∨ j = r.last ∨ r.Keeps vertex tolerance j

theorem Holds.bounds (holds : r.Holds vertex tolerance j) (parted : r.Parted vertex tolerance)
    (ordered : r.first ≤ r.last) : r.first ≤ j ∧ j ≤ r.last := by
  rcases holds with rfl | rfl | keeps
  · exact ⟨le_rfl, ordered⟩
  · exact ⟨ordered, le_rfl⟩
  · have inside := keeps.between parted
    exact ⟨inside.1.le, inside.2.le⟩

omit [Scalar.LawfulOrder K] in
theorem holds_of_uncut (uncut : r.cut? vertex tolerance = none) :
    r.Holds vertex tolerance j ↔ j = r.first ∨ j = r.last := by
  rw [Holds, or_iff_left (not_keeps_of_uncut uncut)]

omit [Scalar.LawfulOrder K] in
/-- What a stretch that is cut holds is what its parts hold. -/
theorem holds_of_cut (cut : r.cut? vertex tolerance = some i) : r.Holds vertex tolerance j ↔
    Holds vertex tolerance ⟨r.first, i⟩ j ∨ Holds vertex tolerance ⟨i, r.last⟩ j := by
  simp only [Holds, keeps_of_cut cut]
  tauto

/-- From one place that is held to the next one lies a stretch that is not cut. -/
theorem uncut_of_neighbors (parted : r.Parted vertex tolerance) (ordered : r.first < r.last)
    (hi : r.Holds vertex tolerance i) (hk : r.Holds vertex tolerance k) (less : i < k)
    (apart : ∀ m, i < m → m < k → ¬r.Holds vertex tolerance m) :
    cut? vertex tolerance ⟨i, k⟩ = none := by
  induction size : r.length using Nat.strong_induction_on generalizing r with
  | _ n ih =>
    cases cut : r.cut? vertex tolerance with
    | none =>
      rw [holds_of_uncut cut] at hi hk
      obtain rfl : i = r.first := hi.resolve_right (by omega)
      obtain rfl : k = r.last := hk.resolve_left (by omega)
      exact cut
    | some c =>
      have between := parted.between cut
      have shorter := length_parts_lt between
      obtain ⟨right, left⟩ := (parted_of_cut cut).mp parted
      have here : r.Holds vertex tolerance c := .inr (.inr ⟨r, .refl, cut⟩)
      rw [holds_of_cut cut] at hi hk
      -- the cut is not between the neighbors, so that both are held by one of the parts
      rcases le_or_gt k c with before | beyond
      · have hi : Holds vertex tolerance ⟨r.first, c⟩ i := by
          refine hi.resolve_right fun back => ?_
          exact ((back.bounds right between.2.le).1.trans_lt less).not_ge before
        have hk : Holds vertex tolerance ⟨r.first, c⟩ k := by
          refine hk.elim id fun back => ?_
          exact .inr (.inl (before.antisymm (back.bounds right between.2.le).1))
        refine ih _ (size ▸ shorter.2) left between.1 hi hk (fun m low high holds => ?_) rfl
        exact apart m low high ((holds_of_cut cut).mpr (.inl holds))
      · have after : c ≤ i := not_lt.mp fun ahead => apart c ahead beyond here
        have hk : Holds vertex tolerance ⟨c, r.last⟩ k := by
          refine hk.resolve_left fun back => ?_
          exact (back.bounds left between.1.le).2.not_gt beyond
        have hi : Holds vertex tolerance ⟨c, r.last⟩ i := by
          refine hi.elim (fun back => ?_) id
          exact .inl ((back.bounds left between.1.le).2.antisymm after)
        refine ih _ (size ▸ shorter.1) right between.2 hi hk (fun m low high holds => ?_) rfl
        exact apart m low high ((holds_of_cut cut).mpr (.inr holds))

end Stretch

namespace ChordSearch

variable {s : ChordSearch} {r : Stretch} {rest : List Stretch} {i j rounds : ℕ}

theorem stays_setIfInBounds {kept : Array Bool} {waiting : List Stretch} (inside : i < kept.size) :
    (ChordSearch.mk (kept.setIfInBounds i true) waiting).stays j = true ↔
      j = i ∨ (ChordSearch.mk kept waiting).stays j = true := by
  simp only [stays, Array.getD_eq_getD_getElem?, Array.getElem?_setIfInBounds, inside, if_true]
  by_cases same : i = j
  · simp [same]
  · simp [same, Ne.symm same]

/-- A vertex stays already, or the search of a stretch that waits will cut at it. -/
def WillStay (vertex : ℕ → Position K) (tolerance : K) (s : ChordSearch) (j : ℕ) : Prop :=
  s.stays j = true ∨ ∃ r ∈ s.waiting, r.Keeps vertex tolerance j

/-- A search within its line, in which all cuts are between the ends. -/
structure Sound (vertex : ℕ → Position K) (tolerance : K) (n : ℕ) (s : ChordSearch) : Prop where
  parted : s.Parted vertex tolerance
  size : s.kept.size = n
  inside : ∀ r ∈ s.waiting, r.last < n

variable {n : ℕ}

theorem stays_start (n j : ℕ) :
    (start n).stays j = true ↔ j < n ∧ (j = 0 ∨ j = n - 1) := by
  simp only [start, stays, Array.getD_eq_getD_getElem?, Array.getElem?_setIfInBounds,
    Array.size_setIfInBounds, Array.size_replicate, Array.getElem?_replicate]
  split_ifs <;> simp <;> omega

theorem sound_start (parted : (Stretch.mk 0 (n - 1)).Parted vertex tolerance) (filled : 0 < n) :
    (start n).Sound vertex tolerance n where
  parted := parted_start.mpr parted
  size := by simp [start]
  inside := List.forall_mem_singleton.mpr (Nat.sub_lt filled Nat.one_pos)

variable [Scalar.LawfulOrder K]

theorem Sound.step (sound : s.Sound vertex tolerance n) :
    (s.step vertex tolerance).Sound vertex tolerance n := by
  have parted := parted_step.mpr sound.parted
  cases waiting : s.waiting with
  | nil => rwa [step_of_empty waiting]
  | cons r rest =>
    have first : r.Parted vertex tolerance := sound.parted r (waiting ▸ List.mem_cons_self)
    have inside := sound.inside
    rw [waiting] at inside
    obtain ⟨last, others⟩ := List.forall_mem_cons.mp inside
    cases cut : r.cut? vertex tolerance with
    | none =>
      rw [step_of_uncut waiting cut] at parted ⊢
      exact ⟨parted, sound.size, others⟩
    | some i =>
      have less := (first.between cut).2.trans last
      rw [step_of_cut waiting cut] at parted ⊢
      refine ⟨parted, Array.size_setIfInBounds.trans sound.size, ?_⟩
      exact List.forall_mem_cons.mpr ⟨last, List.forall_mem_cons.mpr ⟨less, others⟩⟩

/-- A cut puts a vertex among those that stay, and leaves the others to the parts. -/
theorem willStay_step (sound : s.Sound vertex tolerance n) :
    (s.step vertex tolerance).WillStay vertex tolerance j ↔ s.WillStay vertex tolerance j := by
  cases waiting : s.waiting with
  | nil => rw [step_of_empty waiting]
  | cons r rest =>
    have here : r ∈ s.waiting := waiting ▸ List.mem_cons_self
    cases cut : r.cut? vertex tolerance with
    | none =>
      have same : (ChordSearch.mk s.kept rest).stays j = s.stays j := rfl
      simp only [step_of_uncut waiting cut, WillStay, waiting, List.mem_cons, exists_eq_or_imp,
        Stretch.not_keeps_of_uncut cut, false_or, same]
    | some i =>
      have inside : i < s.kept.size :=
        sound.size ▸ ((sound.parted r here).between cut).2.trans (sound.inside r here)
      have same : (ChordSearch.mk s.kept (⟨i, r.last⟩ :: ⟨r.first, i⟩ :: rest)).stays j =
          s.stays j := rfl
      simp only [step_of_cut waiting cut, WillStay, waiting, List.mem_cons, exists_eq_or_imp,
        stays_setIfInBounds inside, Stretch.keeps_of_cut cut, same]
      tauto

theorem willStay_iterate (sound : s.Sound vertex tolerance n) (rounds : ℕ) :
    ((ChordSearch.step vertex tolerance)^[rounds] s).WillStay vertex tolerance j ↔
      s.WillStay vertex tolerance j := by
  induction rounds generalizing s with
  | zero => exact Iff.rfl
  | succ rounds ih => exact (ih sound.step).trans (willStay_step sound)

/-- In the end those vertices stay at which the search was to cut. -/
theorem stays_run (sound : s.Sound vertex tolerance n) :
    (s.run vertex tolerance).stays j = true ↔ s.WillStay vertex tolerance j := by
  have ends := ends_of_parted sound.parted le_rfl
  rw [run_of_ends ends, ← willStay_iterate sound s.effort, WillStay, ends]
  simp

end ChordSearch

variable {points : Path K} {i j k : ℕ}

theorem getElem?_eq_vertexAt (inside : i < points.length) :
    points[i]? = some (vertexAt points.toArray i) := by
  rw [vertexAt, Array.getD_eq_getD_getElem?, List.getElem?_toArray, List.getElem?_eq_getElem inside]
  rfl

variable [Scalar.LawfulOrder K]

/-- The vertices that stay are those that the whole line holds. -/
theorem stays_chordSearch (valid : ¬tolerance < 0) (filled : 0 < points.length) :
    (points.chordSearch tolerance).stays j = true ↔ j < points.length ∧
      (Stretch.mk 0 (points.length - 1)).Holds (vertexAt points.toArray) tolerance j := by
  have parted : (Stretch.mk 0 (points.length - 1)).Parted (vertexAt points.toArray) tolerance :=
    Stretch.parted_of_not_negative valid _
  have inside : (Stretch.mk 0 (points.length - 1)).Keeps (vertexAt points.toArray) tolerance j →
      j < points.length := by
    intro keeps
    have := (keeps.between parted).2
    dsimp only at this
    omega
  rw [chordSearch, ChordSearch.stays_run (ChordSearch.sound_start parted filled),
    ChordSearch.WillStay, ChordSearch.stays_start, Stretch.Holds]
  simp only [ChordSearch.start, List.mem_singleton, exists_eq_left]
  tauto

theorem stays_of_short (valid : ¬tolerance < 0) (short : points.length < 3)
    (inside : j < points.length) : (points.chordSearch tolerance).stays j = true := by
  refine (stays_chordSearch valid (Nat.zero_lt_of_lt inside)).mpr ⟨inside, ?_⟩
  have ends : j = 0 ∨ j = points.length - 1 := by omega
  exact ends.imp_right Or.inl

theorem simplifyByChord_eq_select (points : Path K) (valid : ¬tolerance < 0) :
    points.simplifyByChord tolerance = points.select (points.chordSearch tolerance).stays := by
  rw [simplifyByChord]
  split
  · rename_i short
    exact (select_eq_self fun i inside => stays_of_short valid short inside).symm
  · rfl

/-- Two vertices that stay, with none between them that does. -/
structure Neighbors (stays : ℕ → Bool) (i k : ℕ) : Prop where
  first : stays i = true
  last : stays k = true
  apart : ∀ m, i < m → m < k → stays m = false

/-- What does not stay lies between two neighbors that do. -/
theorem exists_stays_around {stays : ℕ → Bool} {n : ℕ} (first : stays 0 = true)
    (last : stays n = true) (inside : j ≤ n) (dropped : stays j = false) :
    ∃ i k, i < j ∧ j < k ∧ k ≤ n ∧ Neighbors stays i k := by
  have apart {m : ℕ} (stay : stays m = true) : m ≠ j := by
    rintro rfl
    exact absurd stay (by simp [dropped])
  have ahead : ∃ k, j < k ∧ stays k = true := ⟨n, inside.lt_of_ne (apart last).symm, last⟩
  obtain ⟨beyond, stay⟩ := Nat.find_spec ahead
  have before : stays (Nat.findGreatest (fun m => stays m = true) j) = true :=
    Nat.findGreatest_spec (P := fun m => stays m = true) (Nat.zero_le j) first
  refine ⟨_, _, (Nat.findGreatest_le j).lt_of_ne (apart before), beyond,
    Nat.find_min' ahead ⟨inside.lt_of_ne (apart last).symm, last⟩, before, stay, ?_⟩
  intro m low high
  rcases lt_or_ge j m with more | less
  · simpa [more] using Nat.find_min ahead high
  · simpa using Nat.findGreatest_is_greatest low less

/-- A vertex that is dropped lies between two neighbors that stay, and is not farther than the
tolerance from the segment between them. -/
theorem not_lt_of_dropped (nonneg : 0 ≤ tolerance) (inside : j < points.length)
    (dropped : (points.chordSearch tolerance).stays j = false) :
    ∃ i k, i < j ∧ j < k ∧ k < points.length ∧
      Neighbors (points.chordSearch tolerance).stays i k ∧
      ¬tolerance < Segment.distance (vertexAt points.toArray j) (vertexAt points.toArray i)
        (vertexAt points.toArray k) := by
  have valid : ¬tolerance < 0 := Scalar.not_lt_of_le nonneg
  have filled := Nat.zero_lt_of_lt inside
  have stays_iff {m : ℕ} := stays_chordSearch (j := m) valid filled
  obtain ⟨i, k, before, after, within, neighbors⟩ := exists_stays_around
    (stays_iff.mpr ⟨filled, .inl rfl⟩)
    (stays_iff.mpr ⟨Nat.sub_lt filled Nat.one_pos, .inr (.inl rfl)⟩) (by omega) dropped
  refine ⟨i, k, before, after, by omega, neighbors, ?_⟩
  have uncut := Stretch.uncut_of_neighbors (Stretch.parted_of_not_negative valid _)
    (show 0 < points.length - 1 by omega) (stays_iff.mp neighbors.first).2
    (stays_iff.mp neighbors.last).2 (before.trans after) (fun m low high holds => ?_)
  · exact (Stretch.cut?_eq_none nonneg).mp uncut j before after
  · have stay := stays_iff.mpr ⟨by omega, holds⟩
    simp [neighbors.apart m low high] at stay

end Geospatial.Path
