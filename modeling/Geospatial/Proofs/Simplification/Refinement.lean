import Mathlib.Algebra.BigOperators.Group.List.Basic
import Geospatial.Proofs.Ring.Cycle
import Geospatial.Proofs.Scalar.Real
import Geospatial.Proofs.Segment.Between
import Geospatial.Proofs.Simplification.Structure

/-! Densified lines. The pieces of a segment have one length, so that the lengths of all pieces are
known, and with them the longest piece and the length of the line. -/
namespace Geospatial.Path

section

variable {K : Type} [Scalar K] {points : Path K}

/-- The place at a share of the way from one position to another. -/
def along (a b : Position K) (t : K) : Position K :=
  ⟨a.x + t * (b.x - a.x), a.y + t * (b.y - a.y), none⟩

/-- Planar lengths of the segments. -/
def lengths (path : Path K) : List K := (pairs path).map fun s => s.1.distance s.2

/-- A line with each segment cut into as many equal pieces as are asked for. -/
def divided (pieces : Position K → Position K → ℕ) (points : Path K) : Path K :=
  points.head?.toList ++ (pairs points).flatMap fun s =>
    subdivision s.1 s.2 (pieces s.1 s.2) ++ [s.2]

theorem exists_divided_cons (pieces : Position K → Position K → ℕ) (a : Position K)
    (rest : Path K) : ∃ more, divided pieces (a :: rest) = a :: more := ⟨_, rfl⟩

theorem divided_cons_cons (pieces : Position K → Position K → ℕ) (a b : Position K)
    (rest : Path K) : divided pieces (a :: b :: rest) =
      a :: subdivision a b (pieces a b) ++ divided pieces (b :: rest) := by
  simp [divided, pairs]

theorem lengths_append_cons (path rest : Path K) (b : Position K) :
    lengths (path ++ b :: rest) = lengths (path ++ [b]) ++ lengths (b :: rest) := by
  rw [lengths, pairs_append_cons, List.map_append]
  rfl

/-- Heights have no part in lengths. -/
theorem lengths_map_planar (path : Path K) : lengths (path.map Position.planar) = lengths path := by
  rw [lengths, pairs_map, List.map_map]
  rfl

theorem pairs_range (n : ℕ) :
    pairs (List.range (n + 1)) = (List.range n).map fun i => (i, i + 1) := by
  induction n with
  | zero => rfl
  | succ n ih =>
    rw [List.range_succ, List.range_succ, pairs_concat_concat, ← List.range_succ, ih,
      List.range_succ, List.map_append]
    rfl

end

section

variable {K : Type} [Euclidean K] {points out : Path K} {a b p : Position K} {n : ℕ}

theorem distance_along (a b : Position K) (s t : K) :
    (along a b s).distance (along a b t) = |t - s| * a.distance b := by
  have hx : (along a b t).x - (along a b s).x = (t - s) * (b.x - a.x) := by
    rw [along, along]
    ring
  have hy : (along a b t).y - (along a b s).y = (t - s) * (b.y - a.y) := by
    rw [along, along]
    ring
  rw [Position.distance, Position.distance, hx, hy, Euclidean.hypot_mul_left]

theorem on_along {t : K} (low : 0 ≤ t) (high : t ≤ 1) : Segment.On (along a b t) a b :=
  ⟨t, low, high, rfl, rfl⟩

theorem on_of_mem_subdivision (mem : p ∈ subdivision a b n) : Segment.On p a b := by
  obtain ⟨i, inside, rfl⟩ := List.mem_map.mp mem
  have before := List.mem_range.mp inside
  have positive : (0 : K) < (n : K) := Nat.cast_pos.mpr (by omega)
  apply on_along
  · exact div_nonneg (Nat.cast_nonneg _) positive.le
  · exact (div_le_one positive).mpr (Nat.cast_le.mpr (by omega))

/-- The ends of the pieces are spread evenly. -/
theorem map_planar_subdivision (a b : Position K) (positive : 0 < n) :
    (a :: subdivision a b n ++ [b]).map Position.planar =
      (List.range (n + 1)).map fun i : ℕ => along a b ((i : K) / n) := by
  obtain ⟨m, rfl⟩ := Nat.exists_eq_succ_of_ne_zero positive.ne'
  have start : a.planar = along a b (((0 : ℕ) : K) / ((m + 1 : ℕ) : K)) := by
    simp [along, Position.planar]
  have stop : b.planar = along a b (((m + 1 : ℕ) : K) / ((m + 1 : ℕ) : K)) := by
    rw [div_self (Nat.cast_ne_zero.mpr m.succ_ne_zero)]
    simp [along, Position.planar]
  rw [List.range_succ, List.range_succ_eq_map, List.map_append, List.map_append, List.map_cons,
    List.map_singleton, start, stop, subdivision, List.map_map, List.map_cons, List.map_map]
  rfl

theorem lengths_subdivision (a b : Position K) (positive : 0 < n) :
    lengths (a :: subdivision a b n ++ [b]) = List.replicate n (a.distance b / n) := by
  rw [← lengths_map_planar, map_planar_subdivision a b positive, lengths, pairs_map, pairs_range,
    List.map_map, List.map_map, List.eq_replicate_iff]
  refine ⟨by simp, fun d mem => ?_⟩
  obtain ⟨i, -, rfl⟩ := List.mem_map.mp mem
  have positive : (0 : K) < n := Nat.cast_pos.mpr positive
  have share : ((i + 1 : ℕ) : K) / n - i / n = 1 / n := by
    rw [← sub_div, Nat.cast_succ, add_sub_cancel_left]
  calc (along a b (i / n)).distance (along a b ((i + 1 : ℕ) / n))
      = |1 / (n : K)| * a.distance b := by rw [distance_along, share]
    _ = a.distance b / n := by rw [abs_of_pos (one_div_pos.mpr positive), one_div_mul_eq_div]

section

variable {pieces : Position K → Position K → ℕ}

/-- What the pieces of a divided line measure, segment by segment. -/
theorem lengths_divided (positive : ∀ a b, 0 < pieces a b) (points : Path K) :
    lengths (divided pieces points) = (pairs points).flatMap fun s =>
      List.replicate (pieces s.1 s.2) (s.1.distance s.2 / (pieces s.1 s.2 : K)) := by
  induction points with
  | nil => rfl
  | cons a rest ih =>
    cases rest with
    | nil => rfl
    | cons b rest =>
      -- the rest starts at `b`, where the pieces of the first segment end
      obtain ⟨more, split⟩ := exists_divided_cons pieces b rest
      rw [divided_cons_cons, split, lengths_append_cons, lengths_subdivision a b (positive a b),
        ← split, ih]
      rfl

theorem planarLength_divided (positive : ∀ a b, 0 < pieces a b) (points : Path K) :
    (divided pieces points).planarLength = points.planarLength := by
  have whole (s : Position K × Position K) :
      (List.replicate (pieces s.1 s.2) (s.1.distance s.2 / (pieces s.1 s.2 : K))).sum =
        s.1.distance s.2 := by
    rw [List.sum_replicate, nsmul_eq_mul, mul_div_cancel₀]
    exact Nat.cast_ne_zero.mpr (positive s.1 s.2).ne'
  calc (divided pieces points).planarLength = (lengths (divided pieces points)).sum :=
        Exact.sum_eq _
    _ = (lengths points).sum := by
        rw [lengths_divided positive, List.flatMap_def, List.sum_flatten, List.map_map]
        exact congrArg List.sum (List.map_congr_left fun s _ => whole s)
    _ = points.planarLength := (Exact.sum_eq _).symm

end

/-- One line has the vertices of the other, and between them vertices on its segments. -/
inductive Refined : Path K → Path K → Prop
  | nil : Refined [] []
  | single (a : Position K) : Refined [a] [a]
  | segment {a b : Position K} {inner points out : Path K} :
      (∀ p ∈ inner, Segment.On p a b) → Refined (b :: points) (b :: out) →
      Refined (a :: b :: points) (a :: inner ++ b :: out)

theorem Refined.sublist (refined : Refined points out) : points.Sublist out := by
  induction refined with
  | nil => exact .refl []
  | single a => exact .refl [a]
  | segment _ _ ih => exact (ih.trans (List.sublist_append_right _ _)).cons_cons _

theorem refined_divided (pieces : Position K → Position K → ℕ) (points : Path K) :
    Refined points (divided pieces points) := by
  induction points with
  | nil => exact .nil
  | cons a rest ih =>
    cases rest with
    | nil => exact .single a
    | cons b rest =>
      obtain ⟨more, split⟩ := exists_divided_cons pieces b rest
      rw [split] at ih
      rw [divided_cons_cons, split]
      exact .segment (fun p => on_of_mem_subdivision) ih

variable [FloorRing K] [Scalar.LawfulFloor K] {maxLength : K}

theorem densify_eq_ok (positive : 0 < maxLength) (points : Path K) :
    points.densify maxLength = .ok (divided (pieceCount maxLength) points) := by
  rw [densify, if_neg]
  · rfl
  · simp [Scalar.LawfulFloor.isFinite_eq, positive]

variable [Scalar.LawfulCeil K]

theorem pieceCount_eq (maxLength : K) (a b : Position K) :
    pieceCount maxLength a b = max ⌈a.distance b / maxLength⌉₊ 1 := by
  have whole := floor_ceil (a.distance b / maxLength)
  rw [pieceCount, Scalar.LawfulFloor.toNat_eq, Scalar.LawfulCeil.ceil_eq]
  rcases le_total (⌈a.distance b / maxLength⌉ : K) 1 with few | many
  · have one : ⌈a.distance b / maxLength⌉₊ ≤ 1 := by
      rw [Nat.ceil_le, Nat.cast_one]
      exact (Int.le_ceil _).trans few
    rw [Exact.max_eq_right few, Nat.floor_one, max_eq_right one]
  · have positive : 1 ≤ ⌈a.distance b / maxLength⌉₊ := by
      rw [← whole, Nat.one_le_floor_iff]
      exact many
    rw [Exact.max_eq_left many, whole, max_eq_left positive]

theorem pieceCount_pos (maxLength : K) (a b : Position K) : 0 < pieceCount maxLength a b := by
  rw [pieceCount_eq]
  exact lt_max_of_lt_right one_pos

theorem distance_le_pieces (positive : 0 < maxLength) (a b : Position K) :
    a.distance b / pieceCount maxLength a b ≤ maxLength := by
  rw [div_le_iff₀ (Nat.cast_pos.mpr (pieceCount_pos maxLength a b)), ← div_le_iff₀' positive,
    pieceCount_eq]
  exact (Nat.le_ceil _).trans (Nat.cast_le.mpr (le_max_left _ _))

end

/-- A positive length has the line cut up: it keeps its vertices in their order and its length, has
other vertices on its segments only, and no segment is longer than that. For a length that is not
positive or not finite it is refused as invalid input, whatever the arithmetic. -/
theorem densify_spaces :
    (∀ {K : Type} [Euclidean K] [FloorRing K] [Scalar.LawfulFloor K] [Scalar.LawfulCeil K]
      (points : Path K) (maxLength : K), 0 < maxLength →
        ∃ out, points.densify maxLength = .ok out ∧ Refined points out ∧ points.Sublist out ∧
          (∀ s ∈ pairs out, s.1.distance s.2 ≤ maxLength) ∧
          out.planarLength = points.planarLength) ∧
    ∀ {K : Type} [Scalar K] (points : Path K) (maxLength : K),
      ¬(Scalar.isFinite maxLength = true ∧ 0 < maxLength) →
        ∃ f, points.densify maxLength = .error f ∧ f.kind = .invalidInput := by
  constructor
  · intro K _ _ _ _ points maxLength positive
    have refined := refined_divided (pieceCount maxLength) points
    have counted := pieceCount_pos maxLength
    refine ⟨_, densify_eq_ok positive points, refined, refined.sublist, ?_,
      planarLength_divided counted points⟩
    intro s mem
    have measured : s.1.distance s.2 ∈ lengths (divided (pieceCount maxLength) points) :=
      List.mem_map_of_mem mem
    rw [lengths_divided counted] at measured
    obtain ⟨t, -, piece⟩ := List.mem_flatMap.mp measured
    rw [(List.mem_replicate.mp piece).2]
    exact distance_le_pieces positive t.1 t.2
  · intro K _ points maxLength invalid
    refine ⟨.input (.densifyLength maxLength), ?_, rfl⟩
    rw [densify, if_pos (by simpa [-not_lt] using not_and_or.mp invalid)]
    rfl

/-- A segment that is four times as long as the pieces, one without length, and a length that is not
a number. -/
theorem densify_spaces_multiple :
    (∃ out, densify ([⟨0, 0, none⟩, ⟨10, 0, none⟩, ⟨10, 0, none⟩] : Path ℝ) (5 / 2) = .ok out ∧
      (∀ s ∈ pairs out, s.1.distance s.2 ≤ 5 / 2) ∧ out.planarLength = 10) ∧
    ∃ f, densify ([] : Path Float) (0 / 0) = .error f ∧ f.kind = .invalidInput := by
  constructor
  · obtain ⟨out, result, -, -, spaced, size⟩ := densify_spaces.1
      ([⟨0, 0, none⟩, ⟨10, 0, none⟩, ⟨10, 0, none⟩] : Path ℝ) (5 / 2) (by norm_num)
    refine ⟨out, result, spaced, size.trans ?_⟩
    norm_num [planarLength, Exact.sum_eq, pairs, Position.distance, Euclidean.hypot_zero_right]
  · exact densify_spaces.2 [] (0 / 0) (by decide +kernel)

end Geospatial.Path
