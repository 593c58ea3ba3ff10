import Mathlib.Algebra.Order.Floor.Ring
import Mathlib.Algebra.Order.Floor.Semiring
import Mathlib.Tactic.Linarith
import Geospatial.Grid
import Geospatial.Proofs.Bounds.Containment
import Geospatial.Proofs.Outcome
import Geospatial.Proofs.Scalar.Real

/-! Places in a frame of cells, in exact arithmetic. The rows of a frame are lanes side by side, and
so are its columns. Each lane has its first edge and not its last, so that a position is in one cell
at most, and one on the last edge of the frame is in none. A box is covered by the least number of
lanes that reach over it. Lanes are counted by numbers that may have a limit. -/
namespace Geospatial

namespace GridFrame

section

variable {K : Type} [Scalar K]

theorem checkCellSize_eq_ok {size : K} :
    checkCellSize size = .ok () ↔ Scalar.isFinite size = true ∧ 0 < size := by
  rw [checkCellSize]
  split
  · rename_i passed
    simpa using passed
  · rename_i refused
    simpa [Outcome.refuse] using refused

theorem make_eq_ok {width height : ℕ} {origin : Position K} {size : K} {f : GridFrame K} :
    make width height origin size = .ok f ↔ ¬(width = 0 ∨ height = 0) ∧
      checkCellSize size = .ok () ∧ origin.isFinite = true ∧ ⟨width, height, origin, size⟩ = f := by
  refine Outcome.refuse_unless_eq_ok.trans (and_congr_right fun _ => bind_eq_ok.trans ?_)
  constructor
  · rintro ⟨⟨⟩, passed, rest⟩
    obtain ⟨finite, made⟩ := Outcome.refuse_unless_eq_ok.mp rest
    exact ⟨passed, by simpa using finite, Except.ok.inj made⟩
  · rintro ⟨passed, finite, rfl⟩
    exact ⟨(), passed, Outcome.refuse_unless_eq_ok.mpr ⟨by simp [finite], rfl⟩⟩

/-- The lane that a number is in, of `n` lanes of unit width side by side from zero on. -/
def lane? (n : ℕ) (a : K) : Option ℕ :=
  if Scalar.floor a < 0 || !Scalar.isFinite (Scalar.floor a) then none
  else if Scalar.toNat (Scalar.floor a) < n then some (Scalar.toNat (Scalar.floor a)) else none

def rowAt? (f : GridFrame K) (p : Position K) : Option ℕ :=
  lane? f.height ((f.origin.y - p.y) / f.cellSize)

def colAt? (f : GridFrame K) (p : Position K) : Option ℕ :=
  lane? f.width ((p.x - f.origin.x) / f.cellSize)

/-- Rows and columns are looked up apart from each other. -/
theorem cellAt?_eq_some_iff_lanes {f : GridFrame K} {p : Position K} {row col : ℕ} :
    f.cellAt? p = some (row, col) ↔ f.rowAt? p = some row ∧ f.colAt? p = some col := by
  simp only [cellAt?, rowAt?, colAt?, lane?]
  split_ifs <;> simp_all

theorem isSome_cellAt? {f : GridFrame K} {p : Position K} :
    (f.cellAt? p).isSome ↔ (f.rowAt? p).isSome ∧ (f.colAt? p).isSome := by
  simp only [Option.isSome_iff_exists, Prod.exists, cellAt?_eq_some_iff_lanes, exists_and_left,
    exists_and_right]

end

section

variable {K : Type} [Exact K] [FloorRing K] {limit : ℕ} [Scalar.LawfulCount K limit] {n k : ℕ}

theorem lane?_eq_some_iff (counted : n ≤ limit) {a : K} :
    lane? n a = some k ↔ ⌊a⌋ = k ∧ k < n := by
  have inLane : lane? n a = some k ↔ ¬(⌊a⌋ : K) < 0 ∧ Scalar.toNat (⌊a⌋ : K) = k ∧ k < n := by
    rw [lane?, Scalar.LawfulCount.floor_eq limit, Scalar.LawfulCount.isFinite_eq limit]
    grind
  rw [inLane, Scalar.toNat_eq_iff counted, floor_intCast, Int.cast_lt_zero]
  omega

theorem isSome_lane? (counted : n ≤ limit) {a : K} : (lane? n a).isSome ↔ 0 ≤ a ∧ a < n := by
  simp only [Option.isSome_iff_exists, lane?_eq_some_iff counted]
  constructor
  · rintro ⟨k, whole, inside⟩
    have low : 0 ≤ ⌊a⌋ := by omega
    have high : ⌊a⌋ < n := by omega
    exact ⟨Int.floor_nonneg.mp low, mod_cast Int.floor_lt.mp high⟩
  · rintro ⟨nonneg, below⟩
    exact ⟨⌊a⌋₊, (Int.natCast_floor_eq_floor nonneg).symm, (Nat.floor_lt nonneg).mpr below⟩

theorem isSome_lane?_div (counted : n ≤ limit) {d s : K} (sized : 0 < s) :
    (lane? n (d / s)).isSome ↔ 0 ≤ d ∧ d < n * s := by
  rw [isSome_lane? counted, le_div_iff₀ sized, zero_mul, div_lt_iff₀ sized]

omit [Scalar.LawfulCount K limit] in
theorem floor_div_eq_iff {d s : K} (sized : 0 < s) : ⌊d / s⌋ = k ↔ k * s ≤ d ∧ d < (k + 1) * s := by
  rw [Int.floor_eq_iff, Int.cast_natCast, le_div_iff₀ sized, div_lt_iff₀ sized]

variable {f : GridFrame K} {p : Position K} {row col : ℕ}

/-- A cell has the positions from its northern and western edge on that are before its southern and
eastern one. -/
def Holds (f : GridFrame K) (row col : ℕ) (p : Position K) : Prop :=
  (row * f.cellSize ≤ f.origin.y - p.y ∧ f.origin.y - p.y < (row + 1) * f.cellSize) ∧
    col * f.cellSize ≤ p.x - f.origin.x ∧ p.x - f.origin.x < (col + 1) * f.cellSize

theorem cellAt?_eq_some_iff (sized : 0 < f.cellSize)
    (counted : f.width ≤ limit ∧ f.height ≤ limit) :
    f.cellAt? p = some (row, col) ↔ f.Holds row col p ∧ row < f.height ∧ col < f.width := by
  rw [cellAt?_eq_some_iff_lanes, rowAt?, colAt?, lane?_eq_some_iff counted.2,
    lane?_eq_some_iff counted.1, floor_div_eq_iff sized, floor_div_eq_iff sized, Holds]
  tauto

omit [Scalar.LawfulCount K limit] in
theorem Holds.unique {row' col' : ℕ} (sized : 0 < f.cellSize) (here : f.Holds row col p)
    (there : f.Holds row' col' p) : row = row' ∧ col = col' := by
  have down := (floor_div_eq_iff sized).mpr here.1
  have across := (floor_div_eq_iff sized).mpr here.2
  rw [(floor_div_eq_iff sized).mpr there.1] at down
  rw [(floor_div_eq_iff sized).mpr there.2] at across
  omega

omit [FloorRing K] in
theorem bounds_eq (sized : 0 ≤ f.cellSize) : f.bounds =
    ⟨f.origin.x, f.origin.y - f.height * f.cellSize,
      f.origin.x + f.width * f.cellSize, f.origin.y, none, none⟩ := by
  have wide : f.origin.x ≤ f.origin.x + f.width * f.cellSize :=
    le_add_of_nonneg_right (mul_nonneg (Nat.cast_nonneg _) sized)
  have high : f.origin.y - f.height * f.cellSize ≤ f.origin.y :=
    sub_le_self _ (mul_nonneg (Nat.cast_nonneg _) sized)
  rw [bounds, Bounds.ofCorners, Exact.min_eq_left wide, Exact.min_eq_left high,
    Exact.max_eq_right wide, Exact.max_eq_right high]

/-- The cells of a frame make up its box less the southern and the eastern edge. -/
theorem isSome_cellAt?_iff (sized : 0 < f.cellSize)
    (counted : f.width ≤ limit ∧ f.height ≤ limit) :
    (f.cellAt? p).isSome ↔ (f.bounds.minY < p.y ∧ p.y ≤ f.bounds.maxY) ∧
      f.bounds.minX ≤ p.x ∧ p.x < f.bounds.maxX := by
  rw [isSome_cellAt?, rowAt?, colAt?, isSome_lane?_div counted.2 sized,
    isSome_lane?_div counted.1 sized, bounds_eq sized.le]
  exact and_congr (and_comm.trans (and_congr sub_lt_comm sub_nonneg))
    (and_congr sub_nonneg sub_lt_iff_lt_add')

end

section

variable {K : Type} [Euclidean K] {f : GridFrame K}

theorem half_eq : (half : K) = 1 / 2 := by
  rw [half, Euclidean.ofScientific_true]
  norm_num

/-- The center of a cell lies in that cell, wherever the grid is. -/
theorem cellAt?_cellCenter [FloorRing K] {limit : ℕ} [Scalar.LawfulCount K limit]
    (counted : f.width ≤ limit ∧ f.height ≤ limit) (sized : f.cellSize ≠ 0) {row col : ℕ}
    (hr : row < f.height) (hc : col < f.width) :
    f.cellAt? (f.cellCenter row col) = some (row, col) := by
  have across : (f.cellCenter row col).x - f.origin.x = (col + half) * f.cellSize :=
    add_sub_cancel_left _ _
  have down : f.origin.y - (f.cellCenter row col).y = (row + half) * f.cellSize :=
    sub_sub_cancel _ _
  have middle (n : ℕ) : ⌊(n : K) + half⌋ = n := by
    rw [half_eq, Int.floor_eq_iff, Int.cast_natCast]
    constructor <;> linarith
  rw [cellAt?_eq_some_iff_lanes, rowAt?, colAt?, across, down, mul_div_cancel_right₀ _ sized,
    mul_div_cancel_right₀ _ sized, lane?_eq_some_iff counted.2, lane?_eq_some_iff counted.1]
  exact ⟨⟨middle row, hr⟩, middle col, hc⟩

end

/-- A frame that is accepted gives each position to the cell that holds it, the centers of the cells
among them. No two cells hold the same position, and one that is in no cell of the frame is given to
none. Rows and columns are counted as far as the frame has any. -/
theorem cellAt?_locates {K : Type} [Euclidean K] [FloorRing K] {limit : ℕ}
    [Scalar.LawfulCount K limit] {width height : ℕ} {origin : Position K} {size : K}
    {f : GridFrame K} (accepted : make width height origin size = .ok f)
    (counted : f.width ≤ limit ∧ f.height ≤ limit) :
    (∀ row < f.height, ∀ col < f.width, f.cellAt? (f.cellCenter row col) = some (row, col)) ∧
      ∀ p, (∀ row col, f.cellAt? p = some (row, col) ↔
          f.Holds row col p ∧ row < f.height ∧ col < f.width) ∧
        (∀ row col row' col', f.Holds row col p → f.Holds row' col' p →
          row = row' ∧ col = col') ∧
        (f.cellAt? p = none ↔ ∀ row < f.height, ∀ col < f.width, ¬f.Holds row col p) := by
  obtain ⟨-, passed, -, same⟩ := make_eq_ok.mp accepted
  have sized : 0 < f.cellSize := same ▸ (checkCellSize_eq_ok.mp passed).2
  refine ⟨fun row hr col hc => cellAt?_cellCenter counted sized.ne' hr hc, fun p => ?_⟩
  refine ⟨fun row col => cellAt?_eq_some_iff sized counted,
    fun row col row' col' here there => here.unique sized there, ?_⟩
  simp only [Option.eq_none_iff_forall_ne_some, Prod.forall, ne_eq,
    cellAt?_eq_some_iff sized counted]
  exact ⟨fun apart row hr col hc here => apart row col ⟨here, hr, hc⟩,
    fun apart row col ⟨here, hr, hc⟩ => apart row hr col hc here⟩

/-- Three rows of four cells: a position in the last one, and one on the eastern edge. -/
theorem cellAt?_locates_corner :
    let f : GridFrame WordReal := ⟨4, 3, ⟨100, 50, none⟩, 10⟩
    make 4 3 ⟨100, 50, none⟩ (10 : WordReal) = .ok f ∧
      (f.width ≤ UInt64.size - 1 ∧ f.height ≤ UInt64.size - 1) ∧
      f.cellAt? (f.cellCenter 0 0) = some (0, 0) ∧ f.cellAt? ⟨139, 21, none⟩ = some (2, 3) ∧
      f.cellAt? ⟨140, 45, none⟩ = none := by
  intro f
  have accepted : make 4 3 ⟨100, 50, none⟩ (10 : WordReal) = .ok f := by
    refine make_eq_ok.mpr ⟨by decide, checkCellSize_eq_ok.mpr ⟨rfl, by norm_num⟩, rfl, rfl⟩
  have counted : f.width ≤ UInt64.size - 1 ∧ f.height ≤ UInt64.size - 1 := by
    constructor <;> norm_num [f]
  obtain ⟨centers, cells⟩ := cellAt?_locates accepted counted
  refine ⟨accepted, counted, centers 0 three_pos 0 four_pos, ?_, ?_⟩
  · exact ((cells _).1 2 3).mpr ⟨by norm_num [Holds, f], by norm_num [f], by norm_num [f]⟩
  · refine (cells _).2.2.mpr fun row _ col hc here => ?_
    have east : (col : WordReal) + 1 ≤ 4 := mod_cast hc
    have across := here.2.2
    norm_num [f] at across
    linarith

/-- The number of lanes that are counted off along an extent. -/
def taken {K : Type} [Scalar K] (size extent : K) : ℕ :=
  max (Scalar.toNat (Scalar.ceil (extent / size))) 1

theorem covering_eq_ok {K : Type} [Scalar K] {b : Bounds K} {size : K}
    (finite : ∀ a : K, Scalar.isFinite a = true) (sized : 0 < size) : covering b size =
      .ok ⟨taken size b.width, taken size b.height, ⟨b.minX, b.maxY, none⟩, size⟩ := by
  have passed : checkCellSize size = .ok () := checkCellSize_eq_ok.mpr ⟨finite size, sized⟩
  refine bind_eq_ok.mpr ⟨(), passed, make_eq_ok.mpr ⟨?_, passed, ?_, rfl⟩⟩
  · simp
  · simp [Position.isFinite, finite]

/-- The number of lanes of a given size that an extent takes, at least one. -/
def lanes {K : Type} [Exact K] [FloorRing K] (size extent : K) : ℕ := max ⌈extent / size⌉₊ 1

section

variable {K : Type} [Exact K] [FloorRing K] {b : Bounds K} {size extent : K} {n : ℕ}

theorem lanes_le_iff (sized : 0 < size) (one : 1 ≤ n) :
    lanes size extent ≤ n ↔ extent ≤ n * size := by
  rw [lanes, max_le_iff, Nat.ceil_le, div_le_iff₀ sized, and_iff_left one]

theorem lanes_pos (size extent : K) : 0 < lanes size extent :=
  one_pos.trans_le (le_max_right _ _)

/-- The frame of just as many lanes as a box takes, from its north-western corner. -/
def snug (b : Bounds K) (size : K) : GridFrame K :=
  ⟨lanes size b.width, lanes size b.height, ⟨b.minX, b.maxY, none⟩, size⟩

/-- A frame from the corner of a box on contains the box if it has the lanes that the box takes. -/
theorem contains_iff_lanes_le {g : GridFrame K} (sized : 0 < g.cellSize)
    (corner : g.origin = ⟨b.minX, b.maxY, none⟩) (one : 1 ≤ g.width ∧ 1 ≤ g.height) :
    g.bounds.contains b = true ↔
      lanes g.cellSize b.width ≤ g.width ∧ lanes g.cellSize b.height ≤ g.height := by
  rw [bounds_eq sized.le, Bounds.contains_iff, lanes_le_iff sized one.1,
    lanes_le_iff sized one.2, Bounds.width, Bounds.height, corner]
  constructor
  · rintro ⟨-, east, south, -⟩
    exact ⟨sub_le_iff_le_add'.mpr east, sub_le_comm.mp south⟩
  · rintro ⟨across, down⟩
    exact ⟨le_rfl, sub_le_iff_le_add'.mp across, sub_le_comm.mp down, le_rfl⟩

variable {limit : ℕ} [Scalar.LawfulCount K limit]

theorem taken_eq_lanes [Scalar.LawfulCeil K] (counted : lanes size extent ≤ limit) :
    taken size extent = lanes size extent := by
  have whole := floor_ceil (extent / size)
  have few : ⌊(⌈extent / size⌉ : K)⌋₊ ≤ limit := whole.trans_le ((le_max_left _ _).trans counted)
  rw [taken, Scalar.LawfulCeil.ceil_eq, Scalar.LawfulCount.toNat_eq few, whole, lanes]

theorem covering_eq_snug [Scalar.LawfulCeil K] (sized : 0 < size)
    (counted : lanes size b.width ≤ limit ∧ lanes size b.height ≤ limit) :
    covering b size = .ok (snug b size) := by
  rw [covering_eq_ok (Scalar.LawfulCount.isFinite_eq limit) sized, taken_eq_lanes counted.1,
    taken_eq_lanes counted.2, snug]

/-- Of the box, only what is on the southern or the eastern edge of the frame is in no cell. -/
theorem isSome_cellAt?_snug (sized : 0 < size)
    (counted : lanes size b.width ≤ limit ∧ lanes size b.height ≤ limit) {p : Position K}
    (inside : b.containsPosition p = true) : ((snug b size).cellAt? p).isSome ↔
      (snug b size).bounds.minY < p.y ∧ p.x < (snug b size).bounds.maxX := by
  obtain ⟨west, -, -, north⟩ := Bounds.containsPosition_iff.mp inside
  have corner : (snug b size).bounds.minX ≤ p.x ∧ p.y ≤ (snug b size).bounds.maxY := by
    rw [bounds_eq (f := snug b size) sized.le]
    exact ⟨west, north⟩
  rw [isSome_cellAt?_iff sized counted, and_iff_left corner.2, and_iff_right corner.1]

/-- If a frame has too few columns or rows, the first place that it leaves out is in a cell of the
frame that has as many as the box takes. -/
theorem lanes_le_of_located (wide : b.minX ≤ b.maxX) (high : b.minY ≤ b.maxY) (sized : 0 < size)
    (counted : lanes size b.width ≤ limit ∧ lanes size b.height ≤ limit) {g : GridFrame K}
    (alike : g.cellSize = size) (corner : g.origin = ⟨b.minX, b.maxY, none⟩)
    (one : 1 ≤ g.width ∧ 1 ≤ g.height) (located : ∀ p, b.containsPosition p = true →
      ((snug b size).cellAt? p).isSome → (g.cellAt? p).isSome) :
    lanes size b.width ≤ g.width ∧ lanes size b.height ≤ g.height := by
  have nonneg (n : ℕ) : 0 ≤ n * size := mul_nonneg n.cast_nonneg sized.le
  have within {n extent} (one : 1 ≤ n) (fewer : n < lanes size extent) : n * size ≤ extent :=
    (not_le.mp fun short => fewer.not_ge ((lanes_le_iff sized one).mpr short)).le
  have before {n extent} (fewer : n < lanes size extent) : n * size < lanes size extent * size :=
    mul_lt_mul_of_pos_right (Nat.cast_lt.mpr fewer) sized
  have positive (extent : K) : 0 < lanes size extent * size :=
    mul_pos (Nat.cast_pos.mpr (lanes_pos size extent)) sized
  have box := bounds_eq (f := snug b size) sized.le
  constructor
  -- The place where the columns end is in none of them, but in one of those that the box takes.
  · by_contra! fewer
    have inside : b.containsPosition ⟨b.minX + g.width * size, b.maxY, none⟩ = true :=
      Bounds.containsPosition_iff.mpr ⟨le_add_of_nonneg_right (nonneg _),
        le_sub_iff_add_le'.mp (within one.1 fewer), high, le_rfl⟩
    have held := (isSome_cellAt?_snug sized counted inside).mpr (by
      rw [box]
      exact ⟨sub_lt_self _ (positive _), add_lt_add_right (before fewer) _⟩)
    have column := (isSome_cellAt?.mp (located _ inside held)).2
    rw [colAt?, alike, corner, isSome_lane?_div (fewer.le.trans counted.1) sized] at column
    exact column.2.ne (add_sub_cancel_left _ _)
  · by_contra! fewer
    have inside : b.containsPosition ⟨b.minX, b.maxY - g.height * size, none⟩ = true :=
      Bounds.containsPosition_iff.mpr ⟨le_rfl, wide, le_sub_comm.mp (within one.2 fewer),
        sub_le_self _ (nonneg _)⟩
    have held := (isSome_cellAt?_snug sized counted inside).mpr (by
      rw [box]
      exact ⟨sub_lt_sub_left (before fewer) _, lt_add_of_pos_right _ (positive _)⟩)
    have row := (isSome_cellAt?.mp (located _ inside held)).1
    rw [rowAt?, alike, corner, isSome_lane?_div (fewer.le.trans counted.2) sized] at row
    exact row.2.ne (sub_sub_cancel _ _)

/-- A box is covered if its sides take no more lanes than can be counted. The frame contains the
box, and gives each position of it to a cell but those on the southern and the eastern edge of the
frame. Each frame that is accepted with the same corner and cell size, and contains the box or gives
the same positions to cells, has at least as many columns and rows. -/
theorem covering_covers [Scalar.LawfulCeil K] (wide : b.minX ≤ b.maxX) (high : b.minY ≤ b.maxY)
    (sized : 0 < size) (counted : lanes size b.width ≤ limit ∧ lanes size b.height ≤ limit) :
    ∃ f, covering b size = .ok f ∧ f.bounds.contains b = true ∧
      (∀ p, b.containsPosition p = true →
        ((f.cellAt? p).isSome ↔ f.bounds.minY < p.y ∧ p.x < f.bounds.maxX)) ∧
      ∀ g, make g.width g.height f.origin size = .ok g →
        (g.bounds.contains b = true ∨ ∀ p, b.containsPosition p = true →
          (f.cellAt? p).isSome → (g.cellAt? p).isSome) →
        f.width ≤ g.width ∧ f.height ≤ g.height := by
  refine ⟨snug b size, covering_eq_snug sized counted, ?_, ?_, ?_⟩
  · exact (contains_iff_lanes_le (g := snug b size) sized rfl
      ⟨lanes_pos size _, lanes_pos size _⟩).mpr ⟨le_rfl, le_rfl⟩
  · exact fun p inside => isSome_cellAt?_snug sized counted inside
  · intro g accepted does
    obtain ⟨filled, -, -, same⟩ := make_eq_ok.mp accepted
    have alike : g.cellSize = size := congrArg cellSize same.symm
    have corner : g.origin = ⟨b.minX, b.maxY, none⟩ := congrArg origin same.symm
    have one : 1 ≤ g.width ∧ 1 ≤ g.height := by omega
    rcases does with around | located
    · have enough := (contains_iff_lanes_le (alike ▸ sized) corner one).mp around
      rwa [alike] at enough
    · exact lanes_le_of_located wide high sized counted alike corner one located

end

/-- A box of which the width is no whole number of cells. -/
theorem covering_covers_strip :
    let b : Bounds WordReal := ⟨0, 0, 25, 10, none, none⟩
    (b.minX ≤ b.maxX ∧ b.minY ≤ b.maxY ∧ (0 : WordReal) < 10) ∧
      (lanes 10 b.width ≤ UInt64.size - 1 ∧ lanes 10 b.height ≤ UInt64.size - 1) ∧
      ∃ f, covering b 10 = .ok f ∧ f.width = 3 ∧ f.height = 1 ∧ f.bounds.contains b = true ∧
        (f.cellAt? ⟨25, 10, none⟩).isSome := by
  intro b
  have wide : b.minX ≤ b.maxX := by norm_num [b]
  have high : b.minY ≤ b.maxY := by norm_num [b]
  have sized : (0 : WordReal) < 10 := by norm_num
  have across : lanes 10 b.width = 3 := by
    have whole : ⌈(25 - 0 : WordReal) / 10⌉₊ = 3 := (Nat.ceil_eq_iff (by decide)).mpr (by norm_num)
    rw [lanes, Bounds.width, whole]
    rfl
  have down : lanes 10 b.height = 1 := by
    have whole : ⌈(10 - 0 : WordReal) / 10⌉₊ = 1 := (Nat.ceil_eq_iff (by decide)).mpr (by norm_num)
    rw [lanes, Bounds.height, whole]
    rfl
  have counted : lanes 10 b.width ≤ UInt64.size - 1 ∧ lanes 10 b.height ≤ UInt64.size - 1 := by
    rw [across, down]
    decide
  obtain ⟨f, covers, contains, located, -⟩ := covering_covers wide high sized counted
  obtain rfl := Except.ok.inj (covers.symm.trans (covering_eq_snug sized counted))
  refine ⟨⟨wide, high, sized⟩, counted, _, covers, across, down, contains, ?_⟩
  rw [located _ (Bounds.containsPosition_iff.mpr (by norm_num [b])), bounds_eq sized.le]
  norm_num [snug, across, down, b]

/-- Counted in words, a side of too many lanes is taken for the longest that there is. -/
theorem taken_eq_min (size extent : WordReal) :
    taken size extent = min (lanes size extent) (UInt64.size - 1) := by
  have counted : Scalar.toNat (Scalar.ceil (extent / size)) =
      min ⌈extent / size⌉₊ (UInt64.size - 1) :=
    congrArg (min · (UInt64.size - 1)) (floor_ceil (extent / size))
  rw [taken, lanes, counted, max_min_distrib_right]
  rfl

/-- A box of one cell has no cell for its eastern edge, and one that is too long to be counted off
is covered in part. -/
theorem covering_leaves_edges :
    let b : Bounds WordReal := ⟨0, 0, 1, 1, none, none⟩
    let long : Bounds WordReal := ⟨0, 0, 10 ^ 20, 1, none, none⟩
    (∃ f, covering b 1 = .ok f ∧ b.containsPosition ⟨1, 1 / 2, none⟩ = true ∧
      f.cellAt? ⟨1, 1 / 2, none⟩ = none) ∧
    ∃ f, covering long 1 = .ok f ∧ f.width = UInt64.size - 1 ∧ f.bounds.contains long = false := by
  intro b long
  constructor
  · have across : lanes 1 b.width = 1 := by norm_num [lanes, Bounds.width, b]
    have down : lanes 1 b.height = 1 := by norm_num [lanes, Bounds.height, b]
    have counted : lanes 1 b.width ≤ UInt64.size - 1 ∧ lanes 1 b.height ≤ UInt64.size - 1 := by
      rw [across, down]
      decide
    have inside : b.containsPosition ⟨1, 1 / 2, none⟩ = true :=
      Bounds.containsPosition_iff.mpr (by norm_num [b])
    refine ⟨_, covering_eq_snug one_pos counted, inside, Option.not_isSome_iff_eq_none.mp ?_⟩
    rw [isSome_cellAt?_snug one_pos counted inside, bounds_eq (f := snug b 1) zero_le_one]
    norm_num [snug, across, b]
  · have many : ¬lanes 1 long.width ≤ UInt64.size - 1 := by
      rw [lanes_le_iff one_pos (by decide)]
      norm_num [Bounds.width, long]
    have full : taken 1 long.width = UInt64.size - 1 :=
      (taken_eq_min _ _).trans (min_eq_right (not_le.mp many).le)
    refine ⟨_, covering_eq_ok (fun _ => rfl) one_pos, full, ?_⟩
    rw [← Bool.not_eq_true, bounds_eq zero_le_one, Bounds.contains_iff, full]
    norm_num [long]

end GridFrame
end Geospatial
