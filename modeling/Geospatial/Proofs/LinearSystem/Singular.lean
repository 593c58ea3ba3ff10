import Geospatial.Proofs.LinearSystem

/-! When elimination fails, in exact arithmetic. It stops at a leading entry that counts as zero. If
that entry is zero then no row has the next unknown any more, and some unknowns that are not all
zero give zero in every row. If it is not, then the system may have a solution and only one. -/
namespace Geospatial.LinearSystem

open Interpolation

section

variable {K : Type} [Scalar K]

/-- The leading entry that elimination stops at. -/
def stop? : ℕ → List (Row K) → Option K
  | 0, _ => none
  | n + 1, rows =>
    match swap 0 (pivotIndex rows) rows with
    | ⟨_, _, lead :: rest⟩ :: others =>
      if Scalar.abs lead < leastPivot then some lead else stop? n (others.map (reduce lead rest))
    | _ => none

/-- Unknowns that are not all zero give zero in every row. -/
def Singular (n : ℕ) (rows : List (List K)) : Prop :=
  ∃ x : List K, x.length = n ∧ (∃ u ∈ x, u ≠ 0) ∧ ∀ r ∈ rows, dot r x = 0

/-- A system that is not singular is refused, since a leading entry counts as zero that is not. -/
def Misjudged (n : ℕ) (rows : List (List K)) : Prop :=
  ¬Singular n rows ∧
    ∃ lead, stop? n (rows.zipIdx.map fun e => ⟨e.2, [], e.1⟩) = some lead ∧ lead ≠ 0 ∧
      Scalar.abs lead < leastPivot

theorem eliminate?_eq_none {n : ℕ} {rows : List (Row K)} :
    eliminate? n rows = none ↔ ∃ lead, stop? n rows = some lead := by
  induction n generalizing rows with
  | zero => exact ⟨nofun, nofun⟩
  | succ n ih =>
    rcases front : swap 0 (pivotIndex rows) rows with
      _ | ⟨⟨origin, factors, _ | ⟨lead, rest⟩⟩, others⟩
    · simp [eliminate?, stop?, front]
    · simp [eliminate?, stop?, front]
    · simp only [eliminate?, stop?, front]
      split
      · exact ⟨fun _ => ⟨lead, rfl⟩, fun _ => rfl⟩
      · rw [Option.map_eq_none_iff]
        exact ih

theorem stop?_small {n : ℕ} {rows : List (Row K)} {lead : K} (stopped : stop? n rows = some lead) :
    Scalar.abs lead < leastPivot := by
  induction n generalizing rows with
  | zero => contradiction
  | succ n ih =>
    unfold stop? at stopped
    split at stopped
    · split at stopped
      · rename_i small
        exact Option.some.inj stopped ▸ small
      · exact ih stopped
    · contradiction

end

theorem dot_zeros {K : Type} [Exact K] {xs ys : List K} (zeros : ∀ u ∈ ys, u = 0) :
    dot xs ys = 0 := by
  rw [dot_eq_sum]
  refine List.sum_eq_zero fun u hu => ?_
  rw [← List.map_uncurry_zip_eq_zipWith] at hu
  obtain ⟨e, he, rfl⟩ := List.mem_map.mp hu
  rw [Function.uncurry, zeros e.2 (List.of_mem_zip he).2, mul_zero]

variable {K : Type} [Euclidean K] {n k origin : ℕ} {factors rest : List K} {lead : K}
  {rows others : List (Row K)}

theorem leastPivot_eq : (leastPivot : K) = 1 / 10 ^ 12 := by
  rw [leastPivot, Euclidean.ofScientific_true]
  norm_num

/-- The row that comes to the front has the greatest leading entry. -/
theorem pivot_greatest
    (front : swap 0 (pivotIndex rows) rows = ⟨origin, factors, lead :: rest⟩ :: others) :
    ∀ r ∈ rows, |r.entries.headD 0| ≤ |lead| := by
  let leads := rows.map fun r => |r.entries.headD 0|
  have index : pivotIndex rows =
      ((Order.greatest? (Order.on (·.1) Scalar.order) leads.zipIdx).map (·.2)).getD 0 := by
    simp only [pivotIndex, leads, Euclidean.abs_eq]
  have ranked (r : Row K) (hr : r ∈ rows) : ∃ i, (|r.entries.headD 0|, i) ∈ leads.zipIdx := by
    obtain ⟨i, here⟩ := List.mem_iff_getElem?.mp hr
    exact ⟨i, List.mem_zipIdx_iff_getElem?.mpr (by simp [leads, here])⟩
  intro r hr
  obtain ⟨i, hi⟩ := ranked r hr
  cases found : Order.greatest? (Order.on (·.1) Scalar.order) leads.zipIdx with
  | none =>
    rw [Order.greatest?_eq_none.mp found] at hi
    contradiction
  | some m =>
    obtain ⟨chosen, greatest⟩ := Scalar.greatest?_by_key (fun _ => le_rfl) found
    obtain ⟨first, here, level⟩ :=
      Option.map_eq_some_iff.mp (List.getElem?_map .. ▸ List.mem_zipIdx_iff_getElem?.mp chosen)
    rw [found, Option.map_some, Option.getD_some] at index
    have same := getElem?_of_swap (pivotIndex_lt (List.ne_nil_of_mem hr)) front
    rw [index, here] at same
    rw [Option.some.inj same] at level
    exact (greatest _ hi).trans_eq level.symm

/-- The unknown that is eliminated follows from the others. -/
theorem Singular.of_reduced (pivot : lead ≠ 0)
    (block : Block k (n + 1) (⟨origin, factors, lead :: rest⟩ :: others))
    (singular : Singular n ((others.map (reduce lead rest)).map Row.entries)) :
    Singular (n + 1) ((⟨origin, factors, lead :: rest⟩ :: others).map Row.entries) := by
  obtain ⟨xs, length, ⟨u, hu, nonzero⟩, kernel⟩ := singular
  have hrest : rest.length = xs.length := by
    rw [length]
    exact Nat.succ.inj (block.width _ List.mem_cons_self)
  refine ⟨-dot rest xs / lead :: xs, congrArg Nat.succ length,
    ⟨u, List.mem_cons_of_mem _ hu, nonzero⟩, ?_⟩
  rw [List.map_cons, List.forall_mem_cons, dot_cons, mul_div_cancel₀ _ pivot, neg_add_cancel]
  refine ⟨rfl, List.forall_mem_map.mpr fun r hr => ?_⟩
  have width := block.width r (List.mem_cons_of_mem _ hr)
  obtain ⟨a, tail, split⟩ := List.exists_of_length_succ _ width
  have reduced := List.forall_mem_map.mp (List.forall_mem_map.mp kernel) r hr
  rw [split] at width
  rw [reduce, split, List.tail_cons, List.headD_cons,
    dot_subtract _ hrest (Nat.succ.inj width |>.trans length.symm)] at reduced
  rw [split, dot_cons]
  linear_combination reduced

theorem singular_of_stop? (block : Block k n rows)
    (stopped : stop? n rows = some 0) : Singular n (rows.map Row.entries) := by
  induction n generalizing k rows with
  | zero => contradiction
  | succ n ih =>
    have moved := (swap_perm 0 (pivotIndex rows) rows).symm
    obtain ⟨origin, factors, lead, rest, others, front⟩ := block.exists_front
    have greatest := pivot_greatest front
    rw [front] at moved
    simp only [stop?, front] at stopped
    split at stopped
    · obtain rfl := Option.some.inj stopped
      refine ⟨1 :: List.replicate n 0, by simp, ⟨1, List.mem_cons_self, one_ne_zero⟩, ?_⟩
      refine List.forall_mem_map.mpr fun r hr => ?_
      obtain ⟨a, tail, split⟩ := List.exists_of_length_succ _ (block.width r hr)
      have vanishes := greatest r hr
      rw [split, List.headD_cons, abs_zero, abs_nonpos_iff] at vanishes
      rw [split, vanishes, dot_cons, zero_mul, zero_add]
      exact dot_zeros fun u hu => List.eq_of_mem_replicate hu
    · rename_i large
      have whole := block.perm moved
      obtain ⟨x, length, nonzero, kernel⟩ :=
        (ih whole.reduced stopped).of_reduced (pivot_ne_zero large) whole
      exact ⟨x, length, nonzero, fun r hr => kernel r ((moved.map _).mem_iff.mp hr)⟩

section

variable {rows : List (List K)} (square : Square n rows)
include square

/-- A system that was taken apart has no other solution than zero where all sides are zero. -/
theorem not_singular_of_factor? {f : Factors K} (factored : factor? n rows = some f) :
    ¬Singular n rows := by
  rintro ⟨x, length, ⟨u, hu, nonzero⟩, kernel⟩
  have side : (List.replicate n (0 : K)).length = n := List.length_replicate
  have solves {z : List K} (all : ∀ r ∈ rows, dot r z = 0) :
      Solves z rows (List.replicate n 0) := fun e he => by
    rw [all e.1 (List.of_mem_zip he).1, List.eq_of_mem_replicate (List.of_mem_zip he).2]
  have first := (solves_iff factored square side length).mp (solves kernel)
  have second := (solves_iff factored square side side).mp
    (solves fun r _ => dot_zeros fun v hv => List.eq_of_mem_replicate hv)
  rw [first, ← second] at hu
  exact nonzero (List.eq_of_mem_replicate hu)

/-- A system is refused if it is singular or misjudged, and not otherwise. -/
theorem factor?_eq_none_iff : factor? n rows = none ↔ Singular n rows ∨ Misjudged n rows := by
  have refuses : factor? n rows = none ↔
      eliminate? n (rows.zipIdx.map fun e => ⟨e.2, [], e.1⟩) = none := by
    rw [factor?_eq square, Option.map_eq_none_iff]
  constructor
  · intro refused
    by_cases singular : Singular n rows
    · exact .inl singular
    · obtain ⟨lead, stopped⟩ := eliminate?_eq_none.mp (refuses.mp refused)
      refine .inr ⟨singular, lead, stopped, ?_, stop?_small stopped⟩
      rintro rfl
      apply singular
      have entries : (rows.zipIdx.map fun e => (⟨e.2, [], e.1⟩ : Row K)).map Row.entries = rows :=
        (List.map_map ..).trans (List.zipIdx_map_fst 0 rows)
      exact entries ▸ singular_of_stop? square.block stopped
  · rintro (singular | ⟨_, lead, stopped, _⟩)
    · by_contra taken
      obtain ⟨f, factored⟩ := Option.ne_none_iff_exists'.mp taken
      exact not_singular_of_factor? square factored singular
    · exact refuses.mpr (eliminate?_eq_none.mpr ⟨lead, stopped⟩)

end

end Geospatial.LinearSystem
