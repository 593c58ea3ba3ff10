import Geospatial.Proofs.Grid
import Geospatial.Proofs.Grid.Lookup
import Geospatial.Proofs.SightLine
import Geospatial.Viewshed

/-! What a view shows. The walk to a cell stays in the rectangle between that cell and the eye, so
that no cell on it is farther than the cell itself: a higher eye looks over whatever it looked over
before. And what a view shows of a cell is what a look at its center finds, as the center of a cell
lies in it. -/
namespace Geospatial.Viewshed

section

variable {K : Type} [Scalar K] {dem : Grid K} {eye : Eye K} {o : ViewOptions K} {height : K}
  {row col : ℕ}

omit [Scalar K] in
theorem mem_between {cell : ℤ × ℤ} : cell ∈ between eye row col ↔
    ∃ k, 0 < k ∧ k < SightLine.distance eye.row eye.col row col ∧
      SightLine.cellAfter eye.row eye.col row col k = cell :=
  SightLine.mem_inner_cells

/-- How steeply a line from the eye rises to an elevation over a cell. -/
def slopeTo (dem : Grid K) (eye : Eye K) (row col : ℤ) (z : K) : K :=
  (z - eye.elevation) / distanceTo dem eye row col

theorem rises_iff {slope : K} {cell : ℤ × ℤ} : rises dem eye slope cell = true ↔
    ∃ z, dem.value? cell.1.toNat cell.2.toNat = some z ∧
      slope < slopeTo dem eye cell.1 cell.2 z := by
  unfold rises
  cases dem.value? cell.1.toNat cell.2.toNat with
  | none => simp
  | some z => simp [slopeTo]

theorem look_eq_void : look dem eye height row col = .void ↔ dem.value? row col = none := by
  unfold look
  cases dem.value? row col with
  | none => simp
  | some ground =>
    simp only [reduceCtorEq, iff_false]
    split
    · exact nofun
    · split <;> exact nofun

/-- A cell is visible where no cell on the way rises above the line to it. -/
theorem look_eq_visible : look dem eye height row col = .visible ↔
    ∃ ground, dem.value? row col = some ground ∧ ∀ cell ∈ between eye row col,
      ¬rises dem eye (slopeTo dem eye row col (ground + height)) cell = true := by
  unfold look
  cases dem.value? row col with
  | none => simp
  | some ground =>
    simp only [Option.some.injEq, exists_eq_left']
    split
    · rename_i here
      refine iff_of_true rfl fun cell mem => ?_
      obtain ⟨k, -, early, -⟩ := mem_between.mp mem
      rw [here.1, here.2, SightLine.distance] at early
      omega
    · split
      · rename_i r c found
        simp only [reduceCtorEq, false_iff, not_forall, not_not]
        exact ⟨(r, c), List.mem_of_find?_eq_some found, List.find?_some found⟩
      · rename_i clear
        exact iff_of_true rfl (List.find?_eq_none.mp clear)

/-- The view from an eye. -/
def viewFrom (dem : Grid K) (eye : Eye K) (o : ViewOptions K) : Grid K :=
  Grid.tabulate dem.frame (shown dem eye o)

theorem view_eq_ok {signal : Signal} {observer : Position K} (quiet : signal ≠ .triggered)
    (stands : eyeAt dem observer o.observerHeight = .ok eye) :
    view dem o signal observer = .ok (viewFrom dem eye o) := by
  rw [view, stands]
  exact Grid.compute_eq_ok quiet dem.frame (shown dem eye o)

/-- What blocks the view is a cell on the way. -/
theorem mem_between_of_blocked {r c : ℕ} (blocked : look dem eye height row col = .blocked r c) :
    ((r : ℤ), (c : ℤ)) ∈ between eye row col := by
  unfold look at blocked
  split at blocked
  · contradiction
  · split at blocked
    · contradiction
    · dsimp only at blocked
      split at blocked
      · rename_i i j found
        have mem := List.mem_of_find?_eq_some found
        obtain ⟨k, -, early, here⟩ := mem_between.mp mem
        -- the rectangle between two cells of the grid has no negative rows or columns
        obtain ⟨hi, hj⟩ := SightLine.cellAfter_mem_uIcc early.le
        rw [here, Set.mem_uIcc] at hi hj
        obtain ⟨rfl, rfl⟩ := Sight.blocked.inj blocked
        rwa [Int.toNat_of_nonneg (by omega), Int.toNat_of_nonneg (by omega)]
      · contradiction

end

section

variable {K : Type} [Euclidean K] {dem : Grid K} {eye : Eye K} {o : ViewOptions K} {row col : ℕ}

theorem shown_eq_one : shown dem eye o row col = some 1 ↔
    tooFar dem eye o.radius row col = false ∧ look dem eye o.targetHeight row col = .visible := by
  unfold shown
  cases tooFar dem eye o.radius row col <;> cases look dem eye o.targetHeight row col <;> simp

theorem shown_eq_zero : shown dem eye o row col = some 0 ↔
    tooFar dem eye o.radius row col = true ∨
      ∃ r c, look dem eye o.targetHeight row col = .blocked r c := by
  unfold shown
  cases tooFar dem eye o.radius row col <;> cases look dem eye o.targetHeight row col <;> simp

theorem shown_eq_none : shown dem eye o row col = none ↔
    tooFar dem eye o.radius row col = false ∧ look dem eye o.targetHeight row col = .void := by
  unfold shown
  cases tooFar dem eye o.radius row col <;> cases look dem eye o.targetHeight row col <;> simp

theorem cells_viewFrom (hr : row < dem.height) (hc : col < dem.width) :
    (viewFrom dem eye o).cells[row * dem.width + col]? = some (shown dem eye o row col) :=
  (Grid.cells_tabulate hr hc).trans (congrArg some (Grid.bind_cell _))

/-- Cells on the way are no farther from the eye than the cell that is looked at. -/
theorem inv_distanceTo_le {cell : ℤ × ℤ} (mem : cell ∈ between eye row col) :
    (distanceTo dem eye row col)⁻¹ ≤ (distanceTo dem eye cell.1 cell.2)⁻¹ := by
  obtain ⟨k, moved, early, rfl⟩ := mem_between.mp mem
  obtain ⟨hr, hc⟩ := SightLine.cellAfter_mem_uIcc early.le
  have apart := SightLine.cellAfter_ne_start moved early.le
  generalize SightLine.cellAfter eye.row eye.col row col k = cell at hr hc apart ⊢
  have rows : |cell.1 - eye.row| ≤ |(row : ℤ) - eye.row| := Set.abs_sub_left_of_mem_uIcc hr
  have cols : |cell.2 - eye.col| ≤ |(col : ℤ) - eye.col| := Set.abs_sub_left_of_mem_uIcc hc
  simp only [distanceTo, Exact.ofInt_eq]
  rcases eq_or_ne dem.frame.cellSize 0 with flat | sized
  · simp [flat]
  · apply inv_anti₀
    · apply Euclidean.hypot_pos
      rw [mul_eq_zero_iff_right sized, mul_eq_zero_iff_right sized, Int.cast_eq_zero,
        Int.cast_eq_zero, sub_eq_zero, sub_eq_zero]
      exact fun both => apart (Prod.ext both.1 both.2)
    · apply Euclidean.hypot_le_hypot <;> rw [abs_mul, abs_mul]
      · exact mul_le_mul_of_nonneg_right (by exact_mod_cast rows) (abs_nonneg _)
      · exact mul_le_mul_of_nonneg_right (by exact_mod_cast cols) (abs_nonneg _)

/-- A higher eye lowers the slopes to all cells, the near ones at least as much as the far one. -/
theorem slope_le_slope {z e e' t t' d D : K} (raised : e ≤ e') (grown : t ≤ t') (nonneg : 0 ≤ D⁻¹)
    (near : D⁻¹ ≤ d⁻¹) (clear : (z - e) / d ≤ (t - e) / D) : (z - e') / d ≤ (t' - e') / D := by
  rw [div_eq_mul_inv, div_eq_mul_inv] at clear ⊢
  calc (z - e') * d⁻¹ = (z - e) * d⁻¹ - (e' - e) * d⁻¹ := by ring
    _ ≤ (t - e) * D⁻¹ - (e' - e) * D⁻¹ :=
      sub_le_sub clear (mul_le_mul_of_nonneg_left near (sub_nonneg.mpr raised))
    _ = (t - e') * D⁻¹ := by ring
    _ ≤ (t' - e') * D⁻¹ := mul_le_mul_of_nonneg_right (sub_le_sub_right grown _) nonneg

theorem look_eq_visible_of_raised {r c : ℕ} {e e' h h' : K} (raised : e ≤ e') (grown : h ≤ h')
    (visible : look dem ⟨r, c, e⟩ h row col = .visible) :
    look dem ⟨r, c, e'⟩ h' row col = .visible := by
  obtain ⟨ground, here, clear⟩ := look_eq_visible.mp visible
  refine look_eq_visible.mpr ⟨ground, here, fun cell mem higher => clear cell mem ?_⟩
  obtain ⟨z, there, steeper⟩ := rises_iff.mp higher
  refine rises_iff.mpr ⟨z, there, lt_of_not_ge fun level => ?_⟩
  have nonneg : 0 ≤ (distanceTo dem ⟨r, c, e⟩ row col)⁻¹ :=
    inv_nonneg.mpr (Euclidean.hypot_nonneg _ _)
  exact steeper.not_ge (slope_le_slope raised (add_le_add_right grown ground) nonneg
    (inv_distanceTo_le mem) level)

/-- Whether an observer has a place to stand on does not depend on their height. -/
theorem eyeAt_cases (dem : Grid K) (observer : Position K) :
    (∃ fault, ∀ height, eyeAt dem observer height = .error fault) ∨
      ∃ row col ground, ∀ height, eyeAt dem observer height = .ok ⟨row, col, ground + height⟩ := by
  unfold eyeAt
  cases dem.frame.cellAt? observer with
  | none => exact .inl ⟨_, fun _ => rfl⟩
  | some cell =>
    dsimp only
    cases dem.value? cell.1 cell.2 with
    | none => exact .inl ⟨_, fun _ => rfl⟩
    | some ground => exact .inr ⟨cell.1, cell.2, ground, fun _ => rfl⟩

/-- With the eye farther up, or with higher things to look at, every cell that was seen is seen,
empty cells stay empty, and those beyond the radius stay hidden. What keeps an observer from looking
around does so at every height. -/
theorem view_higher {lower higher : ViewOptions K} (dem : Grid K) (signal : Signal)
    (observer : Position K) (raised : lower.observerHeight ≤ higher.observerHeight)
    (grown : lower.targetHeight ≤ higher.targetHeight) (radius : lower.radius = higher.radius) :
    (∃ fault, (eyeAt dem observer lower.observerHeight = .error fault ∨ signal = .triggered) ∧
      view dem lower signal observer = .error fault ∧
      view dem higher signal observer = .error fault) ∨
    ∃ eye before after, eyeAt dem observer lower.observerHeight = .ok eye ∧
      view dem lower signal observer = .ok before ∧ view dem higher signal observer = .ok after ∧
      before.frame = dem.frame ∧ after.frame = dem.frame ∧
      ∀ row < dem.height, ∀ col < dem.width,
        let seen := before.cells[row * dem.width + col]?
        let seen' := after.cells[row * dem.width + col]?
        (seen = some (some 1) → seen' = some (some 1)) ∧
        (seen = some none ↔ seen' = some none) ∧
        (tooFar dem eye lower.radius row col = true →
          seen = some (some 0) ∧ seen' = some (some 0)) := by
  rcases eyeAt_cases dem observer with ⟨fault, refused⟩ | ⟨r, c, ground, stands⟩
  · refine .inl ⟨fault, .inl (refused _), ?_, ?_⟩ <;> rw [view, refused] <;> rfl
  rcases Grid.compute_cases signal dem.frame with ⟨triggered, refused⟩ | computed
  · refine .inl ⟨.cancelled, .inr triggered, ?_, ?_⟩ <;> rw [view, stands] <;> exact refused _
  have shows (o : ViewOptions K) : view dem o signal observer =
      .ok (viewFrom dem ⟨r, c, ground + o.observerHeight⟩ o) := by
    rw [view, stands]
    exact computed _
  refine .inr ⟨_, _, _, stands _, shows lower, shows higher, rfl, rfl, fun row hr col hc => ?_⟩
  have up : ground + lower.observerHeight ≤ ground + higher.observerHeight :=
    add_le_add_right raised ground
  dsimp only
  rw [cells_viewFrom hr hc, cells_viewFrom hr hc]
  simp only [Option.some_inj, shown_eq_one, shown_eq_none, shown_eq_zero, look_eq_void, ← radius]
  refine ⟨fun ⟨near, visible⟩ => ⟨near, ?_⟩, Iff.rfl, fun far => ⟨.inl far, .inl far⟩⟩
  exact look_eq_visible_of_raised up grown visible

/-- What a look at a cell is told as. -/
def told (dem : Grid K) : Sight → Outcome K (LineOfSight K)
  | .void => .refuse .targetOnVoid
  | .visible => .ok ⟨true, none⟩
  | .blocked r c => .ok ⟨false, some (dem.frame.cellCenter r c)⟩

theorem told_void {s : Sight} : told dem s = .refuse .targetOnVoid ↔ s = .void := by
  cases s <;> simp [told, Outcome.refuse]

theorem told_visible {s : Sight} :
    (∃ t, told dem s = .ok t ∧ t.visible = true) ↔ s = .visible := by
  cases s <;> simp [told, Outcome.refuse]

theorem told_hidden {s : Sight} :
    (∃ t, told dem s = .ok t ∧ t.visible = false) ↔ ∃ r c, s = .blocked r c := by
  cases s <;> simp [told, Outcome.refuse]

/-- A look at the center of a cell is a look at that cell. -/
theorem lineOfSight_cellCenter [FloorRing K] [Scalar.LawfulFloor K] {observer : Position K}
    (stands : eyeAt dem observer o.observerHeight = .ok eye) (sized : dem.frame.cellSize ≠ 0)
    (hr : row < dem.height) (hc : col < dem.width) :
    lineOfSight dem o observer (dem.frame.cellCenter row col) =
      told dem (look dem eye o.targetHeight row col) := by
  have target := GridFrame.cellAt?_cellCenter ⟨le_max_left _ _, le_max_right _ _⟩ sized hr hc
  simp only [lineOfSight, stands, target, bind, Except.bind]
  cases look dem eye o.targetHeight row col <;> rfl

/-- The view from a place and the looks from it at the centers of the cells agree. A cell is seen
where the look at it is free, hidden where something is in the way, and empty where the look ends
at an empty cell; what is in the way is a cell strictly between the two on the straight line. Where
the observer has no place to stand on, both are refused for the same reason. -/
theorem view_agrees_lineOfSight [FloorRing K] [Scalar.LawfulFloor K] {signal : Signal}
    (quiet : signal ≠ .triggered) (sized : dem.frame.cellSize ≠ 0) (unlimited : o.radius = none)
    (observer : Position K) :
    (∀ fault, eyeAt dem observer o.observerHeight = .error fault →
      view dem o signal observer = .error fault ∧
        ∀ target, lineOfSight dem o observer target = .error fault) ∧
    ∀ eye, eyeAt dem observer o.observerHeight = .ok eye →
      ∃ seen, view dem o signal observer = .ok seen ∧
        ∀ row < dem.height, ∀ col < dem.width,
          let cell := seen.cells[row * dem.width + col]?
          let sight := lineOfSight dem o observer (dem.frame.cellCenter row col)
          (cell = some (some 1) ↔ ∃ s, sight = .ok s ∧ s.visible = true) ∧
          (cell = some (some 0) ↔ ∃ s, sight = .ok s ∧ s.visible = false) ∧
          (cell = some none ↔ sight = .refuse .targetOnVoid) ∧
          ∀ s, sight = .ok s → s.visible = false → ∃ r c k : ℕ,
            s.blockedAt = some (dem.frame.cellCenter r c) ∧
            0 < k ∧ k < SightLine.distance eye.row eye.col row col ∧
            SightLine.cellAfter eye.row eye.col row col k = ((r : ℤ), (c : ℤ)) := by
  refine ⟨fun fault refused => ⟨?_, fun target => ?_⟩, fun eye stands => ?_⟩
  · rw [view, refused]
    rfl
  · rw [lineOfSight, refused]
    rfl
  refine ⟨viewFrom dem eye o, view_eq_ok quiet stands, fun row hr col hc => ?_⟩
  have near : tooFar dem eye o.radius row col = false := by
    rw [unlimited]
    rfl
  dsimp only
  rw [cells_viewFrom hr hc, lineOfSight_cellCenter stands sized hr hc]
  simp only [Option.some_inj, shown_eq_one, shown_eq_zero, shown_eq_none, near, told_visible,
    told_hidden, told_void, true_and, Bool.false_eq_true, false_or]
  intro s ends hidden
  obtain ⟨r, c, blocked⟩ := told_hidden.mp ⟨s, ends, hidden⟩
  obtain ⟨k, moved, early, here⟩ := mem_between.mp (mem_between_of_blocked blocked)
  rw [blocked] at ends
  obtain rfl := Except.ok.inj ends
  exact ⟨r, c, k, rfl, moved, early, here⟩
end

section

/-- Three cells of unit size, from north to south. -/
noncomputable def column (a b c : ℝ) : Grid ℝ :=
  ⟨⟨1, 3, ⟨0, 3, none⟩, 1⟩, #[some a, some b, some c], none⟩

theorem eyeAt_column (a b c height : ℝ) :
    eyeAt (column a b c) ((column a b c).frame.cellCenter 0 0) height = .ok ⟨0, 0, a + height⟩ := by
  have place : (column a b c).frame.cellAt? ((column a b c).frame.cellCenter 0 0) = some (0, 0) :=
    GridFrame.cellAt?_cellCenter ⟨le_max_left _ _, le_max_right _ _⟩ one_ne_zero three_pos one_pos
  rw [eyeAt, place]
  rfl

theorem look_column (a b c e height : ℝ) : look (column a b c) ⟨0, 0, e⟩ height 2 0 =
    if (c + height - e) / 2 < b - e then .blocked 1 0 else .visible := by
  have distance (r : ℤ) : distanceTo (column a b c) ⟨0, 0, e⟩ r 0 = |(r : ℝ)| := by
    simp [distanceTo, column, Exact.ofInt_eq, Euclidean.hypot_zero_right]
  have way : between (⟨0, 0, e⟩ : Eye ℝ) 2 0 = [(1, 0)] := by
    rw [between, SightLine.cells_eq_map]
    rfl
  have top : (column a b c).value? 2 0 = some c := rfl
  have middle : (column a b c).value? 1 0 = some b := rfl
  by_cases above : (c + height - e) / 2 < b - e <;>
    simp [look, way, top, middle, rises, distance, above]

/-- From the foot of a slope: the eye looks along it, and from farther up down on it. -/
theorem view_higher_slope :
    let dem := column 0 1 3
    let lower : ViewOptions ℝ := ⟨1, 0, none⟩
    let higher : ViewOptions ℝ := ⟨5, 1, none⟩
    lower.observerHeight ≤ higher.observerHeight ∧ lower.targetHeight ≤ higher.targetHeight ∧
      lower.radius = higher.radius ∧
      ∃ after, view dem higher .absent (dem.frame.cellCenter 0 0) = .ok after ∧
        after.cells[2]? = some (some 1) := by
  intro dem lower higher
  have raised : lower.observerHeight ≤ higher.observerHeight := by norm_num [lower, higher]
  have grown : lower.targetHeight ≤ higher.targetHeight := by norm_num [lower, higher]
  have known : view dem lower .absent (dem.frame.cellCenter 0 0) =
      .ok (viewFrom dem ⟨0, 0, 0 + 1⟩ lower) := view_eq_ok nofun (eyeAt_column 0 1 3 1)
  refine ⟨raised, grown, rfl, ?_⟩
  rcases view_higher dem .absent (dem.frame.cellCenter 0 0) raised grown rfl with
    ⟨fault, -, refused, -⟩ | ⟨eye, before, after, -, seen, shows, -, -, cells⟩
  · rw [known] at refused
    contradiction
  · obtain rfl := Except.ok.inj (known.symm.trans seen)
    refine ⟨after, shows, (cells 2 (Nat.lt_succ_self 2) 0 one_pos).1 ?_⟩
    rw [cells_viewFrom (Nat.lt_succ_self 2) one_pos, shown_eq_one.mpr ⟨rfl, ?_⟩]
    rw [look_column, if_neg (by norm_num)]

/-- A wall between the eye and the far cell. -/
theorem view_agrees_lineOfSight_wall :
    let dem := column 0 50 0
    let o : ViewOptions ℝ := ⟨2, 0, none⟩
    dem.frame.cellSize ≠ 0 ∧ ∃ seen,
      view dem o .absent (dem.frame.cellCenter 0 0) = .ok seen ∧ seen.cells[2]? = some (some 0) ∧
      ∃ s, lineOfSight dem o (dem.frame.cellCenter 0 0) (dem.frame.cellCenter 2 0) = .ok s ∧
        s.visible = false ∧ s.blockedAt = some (dem.frame.cellCenter 1 0) := by
  intro dem o
  have sized : dem.frame.cellSize ≠ 0 := one_ne_zero
  have stands : eyeAt dem (dem.frame.cellCenter 0 0) o.observerHeight = .ok ⟨0, 0, 0 + 2⟩ :=
    eyeAt_column 0 50 0 2
  have blocked : look dem ⟨0, 0, 0 + 2⟩ o.targetHeight 2 0 = .blocked 1 0 :=
    (look_column 0 50 0 _ _).trans (if_pos (by norm_num [o]))
  have ends := lineOfSight_cellCenter stands sized (Nat.lt_succ_self 2) one_pos
  rw [blocked] at ends
  have quiet : Signal.absent ≠ .triggered := nofun
  obtain ⟨seen, shows, cells⟩ := (view_agrees_lineOfSight quiet sized rfl _).2 _ stands
  obtain ⟨-, hidden, -, -⟩ := cells 2 (Nat.lt_succ_self 2) 0 one_pos
  exact ⟨sized, seen, shows, hidden.mpr ⟨_, ends, rfl⟩, _, ends, rfl, rfl⟩

end

end Geospatial.Viewshed

