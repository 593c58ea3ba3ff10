import Mathlib.Data.List.Basic
import Mathlib.Order.Basic
import Geospatial.LinearSystem
import Geospatial.Proofs.Order

/-! Elimination told by its rows. The matrix that is reduced in place holds two kinds of them: front
rows, with the unknown that each of them was to eliminate, and those that are left. Each row knows
where it stood at first and how often front rows were subtracted from it, wherever it has been moved
since. Eliminating in the place of the matrix takes the rows through the same steps. -/
namespace Geospatial.LinearSystem

section

variable {K : Type}

/-- A row that is left. -/
structure Row (K : Type) where
  /-- Where the row stood at first. -/
  origin : ℕ
  /-- How often each front row so far was subtracted from it. -/
  factors : List K
  /-- What is left of its entries. -/
  entries : List K

/-- A front row, whose leading entry belongs to the unknown that it was to eliminate. -/
structure Elimination (K : Type) where
  /-- Where the row stood at first. -/
  pivot : ℕ
  /-- How often each earlier front row was subtracted from it. -/
  factors : List K
  /-- Its leading entry. -/
  lead : K
  /-- Its other entries. -/
  rest : List K

/-- The row of the matrix. -/
def Row.whole (r : Row K) : List K := r.factors ++ r.entries

def Elimination.whole (e : Elimination K) : List K := e.factors ++ e.lead :: e.rest

/-- The matrix of some front rows and the rows that are left. -/
def Factors.ofRows (fronts : List (Elimination K)) (rows : List (Row K)) : Factors K where
  matrix := fronts.map (·.whole) ++ rows.map (·.whole)
  origins := fronts.map (·.pivot) ++ rows.map (·.origin)

theorem swap_perm (i j : ℕ) (xs : List α) : (swap i j xs).Perm xs := by
  unfold swap
  split
  · rename_i a b here there
    obtain ⟨first, rfl⟩ := List.getElem?_eq_some_iff.mp here
    obtain ⟨second, rfl⟩ := List.getElem?_eq_some_iff.mp there
    exact List.set_set_perm first second
  · exact .refl xs

theorem map_swap (f : α → β) (i j : ℕ) (xs : List α) :
    (swap i j xs).map f = swap i j (xs.map f) := by
  unfold swap
  rw [List.getElem?_map, List.getElem?_map]
  cases xs[i]? <;> cases xs[j]? <;> simp [List.map_set]

/-- Exchanges behind some elements leave these alone. -/
theorem swap_append (before xs : List α) (i j : ℕ) :
    swap (before.length + i) (before.length + j) (before ++ xs) = before ++ swap i j xs := by
  unfold swap
  simp only [List.getElem?_append_right (Nat.le_add_right ..), Nat.add_sub_cancel_left]
  cases xs[i]? <;> cases xs[j]? <;> simp

/-- What is brought to the front was at the place it was exchanged with. -/
theorem getElem?_of_swap {j : ℕ} {xs rest : List α} {x : α} (bound : j < xs.length)
    (front : swap 0 j xs = x :: rest) : xs[j]? = some x := by
  have filled : 0 < xs.length := Nat.zero_lt_of_lt bound
  have first : (swap 0 j xs)[0]? = some xs[j] := by
    rw [swap, List.getElem?_eq_getElem filled, List.getElem?_eq_getElem bound]
    by_cases same : j = 0 <;> simp [same, filled]
  rw [List.getElem?_eq_getElem bound, ← first, front]
  rfl

variable [Scalar K]

/-- The last of the rows whose leading entry is greatest in magnitude. -/
def pivotIndex (rows : List (Row K)) : ℕ :=
  let leads := rows.map fun r => Scalar.abs (r.entries.headD 0)
  ((Order.greatest? (Order.on (·.1) Scalar.order) leads.zipIdx).map (·.2)).getD 0

/-- Subtracts the front row so that the leading entry of another row vanishes. -/
def reduce (lead : K) (rest : List K) (r : Row K) : Row K :=
  let factor := r.entries.headD 0 / lead
  ⟨r.origin, r.factors ++ [factor], subtract factor rest r.entries.tail⟩

/-- Eliminates `n` unknowns; none when a pivot is too small. -/
def eliminate? : ℕ → List (Row K) → Option (List (Elimination K))
  | 0, _ => some []
  | n + 1, rows =>
    match swap 0 (pivotIndex rows) rows with
    | ⟨origin, factors, lead :: rest⟩ :: others =>
      if Scalar.abs lead < leastPivot then none
      else
        (eliminate? n (others.map (reduce lead rest))).map (⟨origin, factors, lead, rest⟩ :: ·)
    | _ => some []

/-- Subtracts from each entry of the right-hand side what was subtracted from its row. Entries that
belong to the front rows before are known. -/
def forward (side : List K) : List (Elimination K) → List K → List K
  | [], _ => []
  | e :: steps, known =>
    let y := lessProducts (side.getD e.pivot 0) e.factors known
    y :: forward side steps (known ++ [y])

/-- Each unknown follows from those eliminated after it. -/
def backward : List (Elimination K) → List K → List K
  | e :: steps, y :: reduced =>
    let later := backward steps reduced
    lessProducts y e.rest later / e.lead :: later
  | _, _ => []

theorem length_forward (side : List K) (steps : List (Elimination K)) (known : List K) :
    (forward side steps known).length = steps.length := by
  induction steps generalizing known with
  | nil => rfl
  | cons e steps ih =>
    rw [forward, List.length_cons, List.length_cons, ih]

theorem length_backward {steps : List (Elimination K)} {ys : List K}
    (lengths : ys.length = steps.length) : (backward steps ys).length = steps.length := by
  induction steps generalizing ys with
  | nil => rfl
  | cons e steps ih =>
    obtain ⟨y, ys, rfl⟩ := List.exists_of_length_succ _ lengths
    rw [backward, List.length_cons, ih (Nat.succ.inj lengths), List.length_cons]

end

section Block

variable {K : Type}

structure Square (n : ℕ) (rows : List (List K)) : Prop where
  height : rows.length = n
  width : ∀ r ∈ rows, r.length = n

/-- A square block of what is left of some rows, after `k` front rows. -/
structure Block (k n : ℕ) (rows : List (Row K)) : Prop where
  height : rows.length = n
  width : ∀ r ∈ rows, r.entries.length = n
  factors : ∀ r ∈ rows, r.factors.length = k

/-- At first there are no front rows. -/
theorem Square.block {n : ℕ} {rows : List (List K)} (square : Square n rows) :
    Block 0 n (rows.zipIdx.map fun e => ⟨e.2, [], e.1⟩) where
  height := by rw [List.length_map, List.length_zipIdx, square.height]
  width := List.forall_mem_map.mpr fun e he => square.width e.1 (List.fst_mem_of_mem_zipIdx he)
  factors := List.forall_mem_map.mpr fun _ _ => rfl

theorem Block.perm {k n : ℕ} {rows rows' : List (Row K)} (block : Block k n rows)
    (moved : rows.Perm rows') : Block k n rows' where
  height := moved.length_eq.symm.trans block.height
  width r hr := block.width r (moved.mem_iff.mpr hr)
  factors r hr := block.factors r (moved.mem_iff.mpr hr)

variable [Scalar K]

/-- The rows after the front row, once that was subtracted from them. -/
theorem Block.reduced {k n origin : ℕ} {factors rest : List K} {lead : K} {others : List (Row K)}
    (block : Block k (n + 1) (⟨origin, factors, lead :: rest⟩ :: others)) :
    Block (k + 1) n (others.map (reduce lead rest)) := by
  have hrest : rest.length = n := Nat.succ.inj (block.width _ List.mem_cons_self)
  constructor
  case height =>
    rw [List.length_map]
    exact Nat.succ.inj block.height
  case width =>
    refine List.forall_mem_map.mpr fun r hr => ?_
    have width := block.width r (List.mem_cons_of_mem _ hr)
    simp [reduce, subtract, width, hrest]
  case factors =>
    refine List.forall_mem_map.mpr fun r hr => ?_
    have factors := block.factors r (List.mem_cons_of_mem _ hr)
    simp [reduce, factors]

theorem Block.exists_front {k n : ℕ} {rows : List (Row K)} (block : Block k (n + 1) rows) :
    ∃ origin factors lead rest others,
      swap 0 (pivotIndex rows) rows = ⟨origin, factors, lead :: rest⟩ :: others := by
  have moved := block.perm (swap_perm 0 (pivotIndex rows) rows).symm
  obtain ⟨⟨origin, factors, entries⟩, others, front⟩ := List.exists_of_length_succ _ moved.height
  rw [front] at moved
  obtain ⟨lead, rest, rfl⟩ := List.exists_of_length_succ _ (moved.width _ List.mem_cons_self)
  exact ⟨origin, factors, lead, rest, others, front⟩

end Block

section InPlace

variable {K : Type} [Scalar K] {k n origin : ℕ} {factors rest : List K} {lead : K}
  {fronts : List (Elimination K)} {rows others : List (Row K)}

theorem pivotIndex_lt (filled : rows ≠ []) : pivotIndex rows < rows.length := by
  let leads := rows.map fun r => Scalar.abs (r.entries.headD 0)
  change ((Order.greatest? (Order.on (·.1) Scalar.order) leads.zipIdx).map (·.2)).getD 0 < _
  cases found : Order.greatest? (Order.on (·.1) Scalar.order) leads.zipIdx with
  | none => exact List.length_pos_iff.mpr filled
  | some m =>
    have there := List.snd_lt_of_mem_zipIdx (Order.mem_of_greatest? found)
    simpa [leads] using there

theorem Row.getD_whole (r : Row K) : r.whole.getD r.factors.length 0 = r.entries.headD 0 := by
  rw [whole, List.getD_eq_getElem?_getD, List.getElem?_append_right (Nat.le_refl _), Nat.sub_self]
  cases r.entries <;> rfl

theorem Factors.pivotRow_ofRows (block : Block fronts.length n rows) :
    (Factors.ofRows fronts rows).pivotRow fronts.length = fronts.length + pivotIndex rows := by
  have sizes : ((Factors.ofRows fronts rows).matrix.drop fronts.length).map
      (fun r => Scalar.abs (r.getD fronts.length 0)) =
      rows.map fun r => Scalar.abs (r.entries.headD 0) := by
    rw [ofRows, List.drop_left' (List.length_map ..), List.map_map]
    refine List.map_congr_left fun r hr => ?_
    rw [Function.comp_apply, ← block.factors r hr, r.getD_whole]
  simp only [pivotRow, sizes, pivotIndex]

theorem drop_append_cons (before after : List α) (x : α) :
    (before ++ x :: after).drop (before.length + 1) = after := by
  rw [List.append_cons, List.drop_left' (by simp)]

theorem getD_append_cons (before after : List α) (x d : α) :
    (before ++ x :: after).getD before.length d = x := by
  simp

/-- The factor takes the place of the entry that vanishes. -/
theorem clear_whole {e : Elimination K} {r : Row K} (above : e.factors.length = k)
    (same : r.factors.length = k) (width : r.entries ≠ []) :
    clear k e.whole r.whole = (reduce e.lead e.rest r).whole := by
  obtain ⟨a, tail, split⟩ := List.exists_cons_of_ne_nil width
  have first : e.whole.getD k 0 = e.lead := above ▸ getD_append_cons ..
  have others : e.whole.drop (k + 1) = e.rest := above ▸ drop_append_cons ..
  subst same
  have kept : r.whole.take r.factors.length = r.factors := List.take_left
  have left : r.whole.drop (r.factors.length + 1) = tail := by
    rw [Row.whole, split, drop_append_cons]
  simp only [clear, first, others, kept, left, r.getD_whole, split]
  simp [reduce, Row.whole, split]

/-- The rows of the matrix and their places are exchanged alike. -/
theorem swap_map_append {α : Type} (f : Elimination K → α) (g : Row K → α)
    (front : swap 0 (pivotIndex rows) rows = ⟨origin, factors, lead :: rest⟩ :: others) :
    swap fronts.length (fronts.length + pivotIndex rows) (fronts.map f ++ rows.map g) =
      fronts.map f ++ g ⟨origin, factors, lead :: rest⟩ :: others.map g := by
  have moved := swap_append (fronts.map f) (rows.map g) 0 (pivotIndex rows)
  rwa [List.length_map, ← map_swap, front, List.map_cons] at moved

/-- The entry that decides is the leading one of the row that comes to the front. -/
theorem Factors.getD_pivot (block : Block fronts.length (n + 1) rows)
    (front : swap 0 (pivotIndex rows) rows = ⟨origin, factors, lead :: rest⟩ :: others) :
    ((Factors.ofRows fronts rows).matrix.getD (fronts.length + pivotIndex rows) []).getD
      fronts.length 0 = lead := by
  have filled : rows ≠ [] := List.ne_nil_of_length_eq_add_one block.height
  have chosen := getElem?_of_swap (pivotIndex_lt filled) front
  have above := block.factors _ (List.mem_of_getElem? chosen)
  have there : (Factors.ofRows fronts rows).matrix.getD (fronts.length + pivotIndex rows) [] =
      Row.whole ⟨origin, factors, lead :: rest⟩ := by
    simp [ofRows, chosen, List.getElem?_append_right]
  rw [there, ← above]
  exact getD_append_cons ..

/-- One elimination in the place of the matrix. -/
theorem Factors.eliminate?_ofRows (block : Block fronts.length (n + 1) rows)
    (front : swap 0 (pivotIndex rows) rows = ⟨origin, factors, lead :: rest⟩ :: others) :
    (Factors.ofRows fronts rows).eliminate? fronts.length =
      if Scalar.abs lead < leastPivot then none
      else some (.ofRows (fronts ++ [⟨origin, factors, lead, rest⟩])
        (others.map (reduce lead rest))) := by
  have moved := block.perm (front ▸ (swap_perm 0 (pivotIndex rows) rows).symm)
  let e : Elimination K := ⟨origin, factors, lead, rest⟩
  have above : e.factors.length = fronts.length := moved.factors _ List.mem_cons_self
  have matrix : swap fronts.length (fronts.length + pivotIndex rows)
      (Factors.ofRows fronts rows).matrix =
      fronts.map Elimination.whole ++ e.whole :: others.map Row.whole := swap_map_append _ _ front
  have origins : swap fronts.length (fronts.length + pivotIndex rows)
      (Factors.ofRows fronts rows).origins =
      fronts.map Elimination.pivot ++ e.pivot :: others.map Row.origin := swap_map_append _ _ front
  have chosen : (fronts.map Elimination.whole ++ e.whole :: others.map Row.whole).getD
      fronts.length [] = e.whole := by simp
  have kept : (fronts.map Elimination.whole ++ e.whole :: others.map Row.whole).take
      (fronts.length + 1) = (fronts ++ [e]).map Elimination.whole := by
    rw [List.append_cons, ← List.map_singleton, ← List.map_append, List.take_left' (by simp)]
  have left : (fronts.map Elimination.whole ++ e.whole :: others.map Row.whole).drop
      (fronts.length + 1) = others.map Row.whole := by
    rw [List.append_cons, List.drop_left' (by simp)]
  have cleared : (others.map Row.whole).map (clear fronts.length e.whole) =
      (others.map (reduce lead rest)).map Row.whole := by
    rw [List.map_map, List.map_map]
    refine List.map_congr_left fun r hr => ?_
    have width := moved.width r (List.mem_cons_of_mem _ hr)
    exact clear_whole above (moved.factors r (List.mem_cons_of_mem _ hr))
      (List.ne_nil_of_length_eq_add_one width)
  simp only [eliminate?, pivotRow_ofRows block, getD_pivot block front, matrix, origins, chosen,
    kept, left, cleared]
  simp [ofRows, Function.comp_def, reduce, e]

/-- All that is left to eliminate, in the place of the matrix. -/
theorem Factors.foldlM_eliminate? (block : Block fronts.length n rows) :
    (List.range' fronts.length n).foldlM Factors.eliminate? (.ofRows fronts rows) =
      (LinearSystem.eliminate? n rows).map fun steps => .ofRows (fronts ++ steps) [] := by
  induction n generalizing fronts rows with
  | zero =>
    obtain rfl := List.length_eq_zero_iff.mp block.height
    simp [LinearSystem.eliminate?]
  | succ n ih =>
    obtain ⟨origin, factors, lead, rest, others, front⟩ := block.exists_front
    have whole := block.perm (front ▸ (swap_perm 0 (pivotIndex rows) rows).symm)
    have later := whole.reduced
    rw [List.range'_succ, List.foldlM_cons, eliminate?_ofRows block front]
    simp only [LinearSystem.eliminate?, front]
    split
    · rfl
    · have count : fronts.length + 1 = (fronts ++ [(⟨origin, factors, lead, rest⟩ :
          Elimination K)]).length := by simp
      rw [count] at later ⊢
      simp only [Option.bind_eq_bind, Option.bind_some, ih later, Option.map_map]
      congr 1
      funext steps
      simp

/-- Taking a system apart in its place takes its rows apart. -/
theorem factor?_eq {rows : List (List K)} (square : Square n rows) :
    factor? n rows = (eliminate? n (rows.zipIdx.map fun e => ⟨e.2, [], e.1⟩)).map
      (Factors.ofRows · []) := by
  have start : (⟨rows, List.range n⟩ : Factors K) =
      .ofRows [] (rows.zipIdx.map fun e => ⟨e.2, [], e.1⟩) := by
    simp [Factors.ofRows, Function.comp_def, Row.whole, ← square.height, List.range_eq_range']
  rw [factor?, start, List.range_eq_range']
  exact Factors.foldlM_eliminate? square.block

end InPlace

section Triangles

variable {K : Type} {k : ℕ} {before steps : List (Elimination K)} {e : Elimination K}

theorem Factors.getD_ofRows (here : before.length = k) :
    (Factors.ofRows (before ++ e :: steps) []).matrix.getD k [] = e.whole := by
  subst here
  simp [ofRows]

variable [Scalar K] {side known ys : List K}

/-- After `k` front rows: from row to row there is one factor more, and one entry less. -/
inductive Triangular : ℕ → List (Elimination K) → Prop
  | nil (k : ℕ) : Triangular k []
  | cons {k : ℕ} {e : Elimination K} {steps : List (Elimination K)}
      (factors : e.factors.length = k) (rest : e.rest.length = steps.length) (pivot : e.lead ≠ 0)
      (later : Triangular (k + 1) steps) : Triangular k (e :: steps)

/-- Working down, what is known stays and the next entry follows from it. -/
theorem Factors.forward_ofRows {v : K} {later : List K} (here : before.length = known.length)
    (factors : e.factors.length = known.length) :
    (Factors.ofRows (before ++ e :: steps) []).forward (known ++ v :: later) known.length =
      known ++ lessProducts v e.factors known :: later := by
  have products : lessProducts v e.factors (known ++ v :: later) =
      lessProducts v e.factors known := by
    rw [lessProducts, lessProducts, ← List.append_nil e.factors, List.zip_append factors]
    simp
  have kept : e.whole.take known.length = e.factors := List.take_left' factors
  rw [forward, getD_ofRows here, kept, getD_append_cons, products]
  simp

theorem Factors.foldl_forward (side known : List K) (before : List (Elimination K))
    (triangular : Triangular known.length steps) (here : before.length = known.length) :
    (List.range' known.length steps.length).foldl (Factors.ofRows (before ++ steps) []).forward
        (known ++ steps.map fun e => side.getD e.pivot 0) =
      known ++ LinearSystem.forward side steps known := by
  induction steps generalizing known before with
  | nil => simp [LinearSystem.forward]
  | cons e steps ih =>
    obtain _ | ⟨factors, rest, pivot, later⟩ := triangular
    have next := ih (known ++ [lessProducts (side.getD e.pivot 0) e.factors known]) (before ++ [e])
      (by simpa using later) (by simp [here])
    rw [List.length_cons, List.range'_succ, List.foldl_cons, List.map_cons,
      forward_ofRows here factors, LinearSystem.forward]
    simpa using next

/-- Working up, an unknown follows from those after it. -/
theorem Factors.backward_ofRows {y : K} {later : List K} (here : before.length = known.length)
    (factors : e.factors.length = known.length) :
    (Factors.ofRows (before ++ e :: steps) []).backward known.length (known ++ y :: later) =
      known ++ lessProducts y e.rest later / e.lead :: later := by
  have lead : e.whole.getD known.length 0 = e.lead := factors ▸ getD_append_cons ..
  have rest : e.whole.drop (known.length + 1) = e.rest := factors ▸ drop_append_cons ..
  rw [backward, getD_ofRows here, lead, rest, getD_append_cons, drop_append_cons]
  simp

theorem Factors.foldr_backward (known : List K) (before : List (Elimination K))
    (triangular : Triangular known.length steps) (here : before.length = known.length)
    (lengths : ys.length = steps.length) :
    (List.range' known.length steps.length).foldr (Factors.ofRows (before ++ steps) []).backward
        (known ++ ys) =
      known ++ LinearSystem.backward steps ys := by
  induction steps generalizing known before ys with
  | nil =>
    obtain rfl := List.length_eq_zero_iff.mp lengths
    simp [LinearSystem.backward]
  | cons e steps ih =>
    obtain _ | ⟨factors, rest, pivot, later⟩ := triangular
    obtain ⟨y, ys, rfl⟩ := List.exists_of_length_succ _ lengths
    have next := ih (known ++ [y]) (before ++ [e]) (by simpa using later) (by simp [here])
      (Nat.succ.inj lengths)
    rw [List.length_append, List.length_singleton, ← List.append_cons, ← List.append_cons] at next
    rw [List.length_cons, List.range'_succ, List.foldr_cons, next, ← List.append_cons,
      backward_ofRows here factors, LinearSystem.backward]

/-- The two triangles are worked out in the place of the right-hand side. -/
theorem solve_ofRows (triangular : Triangular 0 steps) (side : List K) :
    solve (.ofRows steps []) side = backward steps (forward side steps []) := by
  have down := Factors.foldl_forward side [] [] triangular rfl
  have up := Factors.foldr_backward [] [] triangular rfl (length_forward side steps [])
  simp only [List.length_nil, List.nil_append, ← List.range_eq_range'] at down up
  have size : (Factors.ofRows steps []).matrix.length = steps.length := by simp [Factors.ofRows]
  have entries : (Factors.ofRows steps []).origins.map (fun i => side.getD i 0) =
      steps.map fun e => side.getD e.pivot 0 := by simp [Factors.ofRows]
  rw [solve, size, entries, down, up]

end Triangles

end Geospatial.LinearSystem
