import Geospatial.Proofs.Scalar.DoubleReach
import Geospatial.Proofs.Simplification.Kept
import Geospatial.Proofs.Scalar.Double

/-! How far a vertex that is dropped lies from the line that is left: not farther than the tolerance
from the segment between the two vertices that stayed around it, where that distance is a number.
Between positions of moderate size it is one. Simplifying a line a second time, the vertices that
stayed are searched under other places, but each stretch between two of them has the same chord, and
the vertex at which it was cut is still the first of the farthest: it stayed, and whatever was
dropped is one competitor less. -/
namespace Geospatial

open Double (Within powerOfTwo)

/-- Both coordinates are at most `2 ^ 500` in size. -/
def Position.Moderate (p : Position Float) : Prop :=
  (-powerOfTwo 500 ≤ p.x ∧ p.x ≤ powerOfTwo 500) ∧ -powerOfTwo 500 ≤ p.y ∧ p.y ≤ powerOfTwo 500

instance (p : Position Float) : Decidable p.Moderate :=
  inferInstanceAs (Decidable ((_ ∧ _) ∧ _ ∧ _))

namespace Segment

theorem within_unit : Within 0 1 := Double.IsPower.within rfl

theorem clamp_within {q : Float} (number : q ≤ q) : Within 0 (Scalar.clamp 0 1 q) := by
  have zero : Within 0 0 := within_unit.of_le (by decide +kernel) (by decide +kernel)
  unfold Scalar.clamp
  split
  · exact zero
  · rename_i above
    split
    · exact within_unit
    · rename_i below
      exact within_unit.of_le (Scalar.le_of_not_lt zero.number number above)
        (Scalar.le_of_not_lt number within_unit.number below)

/-- The distance of a position from a segment is a number, if they are not too far out. -/
theorem distance_number {p a b : Position Float} (hp : p.Moderate) (ha : a.Moderate)
    (hb : b.Moderate) : distance p a b ≤ distance p a b := by
  have within {c : Float} (bounds : -powerOfTwo 500 ≤ c ∧ c ≤ powerOfTwo 500) : Within 500 c :=
    Double.within_of_between bounds.1 bounds.2 rfl rfl
  have px := within hp.1
  have py := within hp.2
  have ax := within ha.1
  have ay := within ha.2
  have dx := (within hb.1).sub ax (by decide)
  have dy := (within hb.2).sub ay (by decide)
  unfold distance
  dsimp only
  split
  · exact Double.hypot_number ((ax.sub px (by decide)).mono (by decide))
      ((ay.sub py (by decide)).mono (by decide))
  · rename_i apart
    have product := ((px.sub ax (by decide)).mul dx (by decide)).add
      ((py.sub ay (by decide)).mul dy (by decide)) (by decide)
    have square := (dx.mul dx (by decide)).add (dy.mul dy (by decide)) (by decide)
    have t := clamp_within
      (Double.div_number product.number (Bool.eq_false_iff.mpr apart) square)
    exact Double.hypot_number
      ((px.sub (ax.add (t.mul dx (by decide)) (by decide)) (by decide)).mono (by decide))
      ((py.sub (ay.add (t.mul dy (by decide)) (by decide)) (by decide)).mono (by decide))

end Segment

namespace Path

/-- A vertex that is dropped lies within the tolerance of the segment between the two vertices
around it that stayed, unless that distance overflows, which takes a coordinate beyond `2 ^ 500`.
-/
theorem simplifyByChord_within (points : Path Float) {tolerance : Float} (nonneg : 0 ≤ tolerance) :
    points.simplifyByChord tolerance = points.select (points.chordSearch tolerance).stays ∧
    ∀ j p, points[j]? = some p → (points.chordSearch tolerance).stays j = false →
      ∃ i k a b, i < j ∧ j < k ∧ Neighbors (points.chordSearch tolerance).stays i k ∧
        points[i]? = some a ∧ points[k]? = some b ∧
        (Segment.distance p a b ≤ tolerance ∨
          Scalar.isNaN (Segment.distance p a b) = true ∧
            ¬(p.Moderate ∧ a.Moderate ∧ b.Moderate)) := by
  have valid : ¬tolerance < 0 := Scalar.not_lt_of_le nonneg
  refine ⟨simplifyByChord_eq_select points valid, fun j p here dropped => ?_⟩
  have inside := (List.getElem?_eq_some_iff.mp here).1
  obtain ⟨i, k, before, after, last, neighbors, near⟩ := not_lt_of_dropped nonneg inside dropped
  obtain rfl := Option.some.inj ((getElem?_eq_vertexAt inside).symm.trans here)
  refine ⟨i, k, _, _, before, after, neighbors, getElem?_eq_vertexAt (by omega),
    getElem?_eq_vertexAt last, ?_⟩
  generalize vertexAt points.toArray j = p, vertexAt points.toArray i = a,
    vertexAt points.toArray k = b at near
  by_cases number : Segment.distance p a b ≤ Segment.distance p a b
  · exact .inl (Scalar.le_of_not_lt number (Scalar.le_right nonneg) near)
  · refine .inr ⟨?_, fun ⟨hp, ha, hb⟩ => number (Segment.distance_number hp ha hb)⟩
    have differs := Scalar.beq_iff.not.mpr fun both => number both.1
    rw [Scalar.isNaN, Bool.eq_false_iff.mpr differs]
    rfl

/-- A tip that is dropped, half as far from its chord as the tolerance allows. -/
theorem simplifyByChord_within_tip :
    ∃ line : Path Float, line = [⟨0, 0, none⟩, ⟨2, 0.5, none⟩, ⟨4, 0, none⟩] ∧ (0 : Float) ≤ 1 ∧
      (line.chordSearch 1).stays 1 = false ∧
      Segment.distance ⟨2, 0.5, none⟩ ⟨0, 0, none⟩ ⟨4, 0, none⟩ ≤ (1 : Float) := by
  refine ⟨_, rfl, ?_⟩
  have nonneg : (0 : Float) ≤ 1 := by decide +kernel
  have dropped : (chordSearch [⟨0, 0, none⟩, ⟨2, 0.5, none⟩, ⟨4, 0, none⟩] (1 : Float)).stays 1 =
      false := by
    have ends : ((ChordSearch.step (vertexAt #[⟨0, 0, none⟩, ⟨2, 0.5, none⟩, ⟨4, 0, none⟩])
        (1 : Float))^[1] (.start 3)).waiting = [] := by decide +kernel
    have search := ChordSearch.run_of_ends ends
    exact (congrArg (ChordSearch.stays · 1) search).trans (by decide +kernel)
  obtain ⟨i, k, a, b, before, after, -, first, last, near⟩ :=
    (simplifyByChord_within [⟨0, 0, none⟩, ⟨2, 0.5, none⟩, ⟨4, 0, none⟩] nonneg).2 1 _ rfl dropped
  obtain rfl : i = 0 := by omega
  obtain rfl : k = 2 := by
    have : k < 3 := (List.getElem?_eq_some_iff.mp last).1
    omega
  obtain rfl := Option.some.inj first
  obtain rfl := Option.some.inj last
  refine ⟨nonneg, dropped, near.resolve_right fun far => far.2 ?_⟩
  decide +kernel

/-- A tip that is dropped although it is far from its chord: its distance overflows. -/
theorem simplifyByChord_overflow :
    ∃ line : Path Float, line = [⟨-1e155, 0, none⟩, ⟨0, 1e160, none⟩, ⟨1e155, 0, none⟩] ∧
      (∀ p ∈ line, p.isFinite = true) ∧ (0 : Float) ≤ 1 ∧
      line.simplifyByChord 1 = [⟨-1e155, 0, none⟩, ⟨1e155, 0, none⟩] ∧
      ¬Segment.distance ⟨0, 1e160, none⟩ ⟨-1e155, 0, none⟩ ⟨1e155, 0, none⟩ ≤ (1 : Float) := by
  refine ⟨_, rfl, by decide +kernel, by decide +kernel, ?_, by decide +kernel⟩
  have ends : ((ChordSearch.step (vertexAt #[⟨-1e155, 0, none⟩, ⟨0, 1e160, none⟩, ⟨1e155, 0, none⟩])
      (1 : Float))^[1] (.start 3)).waiting = [] := by decide +kernel
  have stays : ((ChordSearch.start 3).run
      (vertexAt #[⟨-1e155, 0, none⟩, ⟨0, 1e160, none⟩, ⟨1e155, 0, none⟩]) (1 : Float)).kept =
        #[true, false, true] := by
    rw [ChordSearch.run_of_ends ends]
    decide +kernel
  rw [simplifyByChord, if_neg (by decide), select, chordSearch]
  simp [ChordSearch.stays, stays]

section Again

variable {K : Type} [Scalar K] {vertex vertex' : ℕ → Position K} {tolerance : K} {former : ℕ → ℕ}
  {i j k n : ℕ}

/-- The vertices of a line at some of its places, of which there are `n`. -/
structure Thins (vertex vertex' : ℕ → Position K) (former : ℕ → ℕ) (n : ℕ) : Prop where
  same : ∀ j < n, vertex' j = vertex (former j)
  rising : StrictMonoOn former (Set.Iio n)

namespace Stretch

variable {r : Stretch}

/-- The stretch with the places that its ends had before. -/
def before (former : ℕ → ℕ) (r : Stretch) : Stretch := ⟨former r.first, former r.last⟩

/-- Every vertex at which the search will cut has its place among the others. -/
def Finds (vertex : ℕ → Position K) (tolerance : K) (former : ℕ → ℕ) (n : ℕ) (r : Stretch) : Prop :=
  ∀ i, r.Keeps vertex tolerance i → ∃ j < n, former j = i

theorem Finds.part {q : Stretch} (finds : r.Finds vertex tolerance former n)
    (part : HasPart vertex tolerance r q) : q.Finds vertex tolerance former n := by
  rintro i ⟨p, reached, cut⟩
  exact finds i ⟨p, .head part reached, cut⟩

theorem offChord_before (thins : Thins vertex vertex' former n) (hr : r.first < n) (hl : r.last < n)
    (hj : j < n) : (r.before former).offChord vertex (former j) = r.offChord vertex' j := by
  rw [offChord, offChord, thins.same _ hr, thins.same _ hl, thins.same _ hj]
  rfl

theorem isFarthest_of_before (thins : Thins vertex vertex' former n) (hl : r.last < n)
    (low : r.first < j) (high : j < r.last)
    (far : (r.before former).IsFarthest vertex (former j)) : r.IsFarthest vertex' j := by
  have off {k : ℕ} (inside : k < r.last) :=
    offChord_before thins (low.trans (high.trans hl)) hl (inside.trans hl)
  have rising {k m : ℕ} (less : k < m) (inside : m ≤ r.last) : former k < former m :=
    thins.rising (less.trans_le inside |>.trans hl) (inside.trans_lt hl) less
  refine ⟨low, high, off high ▸ far.off, fun after inside => ?_, fun after less => ?_⟩
  · rw [← off high, ← off inside]
    exact far.greatest (rising after inside.le) (rising inside le_rfl)
  · rw [← off high, ← off (less.trans high)]
    exact far.earliest (rising after (less.trans high).le) (rising less high.le)

variable [Scalar.LawfulOrder K]

/-- A stretch whose cut is among the vertices that stayed is cut there again. -/
theorem cut?_of_before (thins : Thins vertex vertex' former n) (valid : ¬tolerance < 0)
    (hl : r.last < n) (hf : r.first < n) (hj : j < n)
    (cut : (r.before former).cut? vertex tolerance = some (former j)) :
    (r.first < j ∧ j < r.last) ∧ r.cut? vertex' tolerance = some j := by
  rcases cut?_eq_some.mp cut with ⟨far, beyond⟩ | ⟨-, -, negative, -⟩
  · have low : r.first < j := (thins.rising.lt_iff_lt hf hj).mp far.after
    have high : j < r.last := (thins.rising.lt_iff_lt hj hl).mp far.before
    rw [offChord_before thins hf hl hj] at beyond
    have far := isFarthest_of_before thins hl low high far
    exact ⟨⟨low, high⟩, cut?_eq_some.mpr (.inl ⟨far, beyond⟩)⟩
  · exact absurd negative valid

/-- What was kept of a stretch is kept of it again. -/
theorem keeps_of_before (thins : Thins vertex vertex' former n) (valid : ¬tolerance < 0)
    (hf : r.first < n) (hl : r.last < n) (hj : j < n)
    (finds : (r.before former).Finds vertex tolerance former n)
    (keeps : (r.before former).Keeps vertex tolerance (former j)) :
    r.Keeps vertex' tolerance j := by
  obtain ⟨q, reached, cut⟩ := keeps
  generalize whole : r.before former = p at reached finds
  -- along the search of the whole line, each part of a stretch is what its part was before
  induction reached using Relation.ReflTransGen.head_induction_on generalizing r with
  | refl =>
    subst whole
    exact ⟨r, .refl, (cut?_of_before thins valid hl hf hj cut).2⟩
  | head part reached ih =>
    subst whole
    have rest := finds.part part
    obtain ⟨c, found, half⟩ := part
    obtain ⟨k, hk, rfl⟩ := finds c ⟨_, .refl, found⟩
    obtain ⟨-, again⟩ := cut?_of_before thins valid hl hf hk found
    refine (keeps_of_cut again).mpr (.inr ?_)
    rcases half with rfl | rfl
    · exact .inr (ih hf hk rfl rest)
    · exact .inl (ih hk hl rfl rest)

end Stretch

variable {points : Path K} {stays : ℕ → Bool}

theorem thins_select (points : Path K) (stays : ℕ → Bool) :
    Thins (vertexAt points.toArray) (vertexAt (points.select stays).toArray) (points.place stays)
      (points.select stays).length where
  same j inside := by
    have had := (mem_places.mp (place_mem inside)).1
    have same := getElem?_select (getElem?_places inside)
    rw [getElem?_eq_vertexAt inside, getElem?_eq_vertexAt had] at same
    exact Option.some.inj same
  rising i hi j hj less := by
    have sorted := pairwise_places points stays
    have first := (List.getElem?_eq_some_iff.mp (getElem?_places hi))
    have second := (List.getElem?_eq_some_iff.mp (getElem?_places hj))
    rw [← first.2, ← second.2]
    exact List.pairwise_iff_getElem.mp sorted i j first.1 second.1 less

variable [Scalar.LawfulOrder K]

/-- All that stayed in the first search stays in the second one. -/
theorem stays_again (valid : ¬tolerance < 0)
    (inside : j < (points.select (points.chordSearch tolerance).stays).length) :
    ((points.select (points.chordSearch tolerance).stays).chordSearch tolerance).stays j =
      true := by
  have filled : 0 < points.length := Nat.zero_lt_of_lt (mem_places.mp (place_mem inside)).1
  have stays_iff {m : ℕ} := stays_chordSearch (j := m) valid filled
  generalize (points.chordSearch tolerance).stays = stays at *
  have again : 0 < (points.select stays).length := Nat.zero_lt_of_lt inside
  have final := Nat.sub_lt again Nat.one_pos
  have thins := thins_select points stays
  have first := place_zero filled (stays_iff.mpr ⟨filled, .inl rfl⟩)
  have last := place_last filled
    (stays_iff.mpr ⟨Nat.sub_lt filled Nat.one_pos, .inr (.inl rfl)⟩)
  refine (stays_chordSearch valid again).mpr ⟨inside, ?_⟩
  rcases (stays_iff.mp (mem_places.mp (place_mem inside)).2).2 with same | same | keeps
  · exact .inl (thins.rising.injOn inside again (same.trans first.symm))
  · exact .inr (.inl (thins.rising.injOn inside final (same.trans last.symm)))
  · have whole : (Stretch.mk 0 ((points.select stays).length - 1)).before (points.place stays) =
        ⟨0, points.length - 1⟩ := by rw [Stretch.before, first, last]
    rw [← whole] at keeps
    refine .inr (.inr (Stretch.keeps_of_before thins valid again final inside ?_ keeps))
    intro i kept
    rw [whole] at kept
    have less : i < points.length - 1 := (kept.between (Stretch.parted_of_not_negative valid _)).2
    exact exists_place (by omega) (stays_iff.mpr ⟨by omega, .inr (.inr kept)⟩)

/-- Simplifying a line again with the same tolerance changes nothing. What is left of the line are
some of its vertices in their order, the first and the last one included. -/
theorem simplifyByChord_idempotent (points : Path K) (nonneg : 0 ≤ tolerance) :
    (points.simplifyByChord tolerance).simplifyByChord tolerance =
      points.simplifyByChord tolerance ∧
    (points.simplifyByChord tolerance).Sublist points ∧
    (points.simplifyByChord tolerance).head? = points.head? ∧
    (points.simplifyByChord tolerance).getLast? = points.getLast? := by
  have valid : ¬tolerance < 0 := Scalar.not_lt_of_le nonneg
  rw [simplifyByChord_eq_select points valid]
  refine ⟨?_, select_sublist _ _, ?_⟩
  · rw [simplifyByChord_eq_select _ valid]
    exact select_eq_self fun j inside => stays_again valid inside
  · cases points with
    | nil => exact ⟨rfl, rfl⟩
    | cons p rest =>
      have filled : 0 < (p :: rest).length := Nat.succ_pos _
      have stays_iff {m : ℕ} := stays_chordSearch (j := m) valid filled
      exact ⟨head?_select filled (stays_iff.mpr ⟨filled, .inl rfl⟩),
        getLast?_select filled (stays_iff.mpr ⟨Nat.sub_lt filled Nat.one_pos, .inr (.inl rfl)⟩)⟩

/-- A closed ring with two vertices that are equally far from its point-like first chord. -/
theorem simplifyByChord_idempotent_ring :
    ∃ ring : Path Float, ring = [⟨0, 0, none⟩, ⟨2, 0, none⟩, ⟨2, 2, none⟩, ⟨1, 3, none⟩,
        ⟨0, 2, none⟩, ⟨0, 0, none⟩] ∧ (0 : Float) ≤ 1 ∧
      (ring.simplifyByChord 1).simplifyByChord 1 = ring.simplifyByChord 1 ∧
      (ring.simplifyByChord 1).Sublist ring ∧
      (ring.simplifyByChord 1).head? = ring.head? ∧
      (ring.simplifyByChord 1).getLast? = ring.getLast? :=
  have nonneg : (0 : Float) ≤ 1 := by decide +kernel
  ⟨_, rfl, nonneg, simplifyByChord_idempotent _ nonneg⟩

end Again

end Path

end Geospatial
