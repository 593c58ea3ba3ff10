import Mathlib.Algebra.BigOperators.Fin
import Mathlib.Data.Matrix.Mul
import Mathlib.LinearAlgebra.Matrix.Notation
import Mathlib.Tactic.FinCases
import Mathlib.Tactic.LinearCombination
import Mathlib.Tactic.Ring
import Geospatial.Variogram
import Geospatial.Proofs.LinearSystem.Rows
import Geospatial.Proofs.Scalar.Real

/-! Elimination solves, in exact arithmetic. Whichever rows came to the front, at every stage a row
comes to the front rows, as often as they were subtracted from it, and what is left of it. So the
rows in the order in which they came to the front are the product of two triangles, and one list of
unknowns gives a right-hand side: the one that is worked out from both triangles. -/
namespace Geospatial

namespace Interpolation

variable {K : Type} [Exact K] {ws xs ys : List K}

theorem dot_eq_sum (xs ys : List K) : dot xs ys = (List.zipWith (· * ·) xs ys).sum :=
  Exact.sum_eq _

@[simp]
theorem dot_nil (ys : List K) : dot [] ys = 0 := by
  simp [dot_eq_sum]

@[simp]
theorem dot_cons (x y : K) (xs ys : List K) : dot (x :: xs) (y :: ys) = x * y + dot xs ys := by
  simp [dot_eq_sum]

theorem dot_comm (xs ys : List K) : dot xs ys = dot ys xs := by
  rw [dot_eq_sum, dot_eq_sum, List.zipWith_comm]
  simp only [mul_comm]

theorem dot_append {us vs : List K} (lengths : xs.length = ys.length) :
    dot (xs ++ us) (ys ++ vs) = dot xs ys + dot us vs := by
  rw [dot_eq_sum, dot_eq_sum, dot_eq_sum, List.zipWith_append lengths, List.sum_append]

/-- What is beyond the end of the other list does not count. -/
theorem dot_append_right (lengths : xs.length = ys.length) (more : List K) :
    dot xs (ys ++ more) = dot xs ys := by
  have padded : dot (xs ++ []) (ys ++ more) = dot xs ys + dot [] more := dot_append lengths
  rwa [dot_nil, List.append_nil, add_zero] at padded

theorem dot_ofFn {n : ℕ} (u v : Fin n → K) :
    dot (List.ofFn u) (List.ofFn v) = ∑ i, u i * v i := by
  rw [dot_eq_sum, ← List.sum_ofFn]
  congr 1
  exact List.ext_getElem (by simp) fun i _ _ => by simp

end Interpolation

namespace LinearSystem

open Interpolation

section

variable {K : Type} [Scalar K]

/-- Each row gives its part of the right-hand side. -/
def Solves (x : List K) (rows : List (List K)) (side : List K) : Prop :=
  ∀ e ∈ rows.zip side, dot e.1 x = e.2

theorem solves_iff_forall_getD {x : List K} {rows : List (List K)} {side : List K}
    (lengths : rows.length = side.length) :
    Solves x rows side ↔ ∀ e ∈ rows.zipIdx, dot e.1 x = side.getD e.2 0 := by
  have paired : rows.zip side = rows.zipIdx.map fun e => (e.1, side.getD e.2 0) := by
    refine List.ext_getElem (by simp [lengths]) fun i hi _ => ?_
    rw [List.length_zip, lengths, Nat.min_self] at hi
    simp [hi]
  rw [Solves, paired, List.forall_mem_map]

/-- What elimination makes of a block of rows, apart from which of them come to the front. -/
inductive Eliminates : ℕ → List (Row K) → List (Elimination K) → Prop
  | nil (k : ℕ) : Eliminates k [] []
  | cons {k : ℕ} {rows others : List (Row K)} {e : Elimination K}
      {steps : List (Elimination K)} (block : Block k (steps.length + 1) rows)
      (front : rows.Perm (⟨e.pivot, e.factors, e.lead :: e.rest⟩ :: others)) (pivot : e.lead ≠ 0)
      (later : Eliminates (k + 1) (others.map (reduce e.lead e.rest)) steps) :
      Eliminates k rows (e :: steps)

theorem Eliminates.triangular {k : ℕ} {rows : List (Row K)} {steps : List (Elimination K)}
    (eliminates : Eliminates k rows steps) : Triangular k steps := by
  induction eliminates with
  | nil k => exact .nil k
  | cons block front pivot _ ih =>
    have moved := block.perm front
    have width := moved.width _ List.mem_cons_self
    exact .cons (moved.factors _ List.mem_cons_self) (Nat.succ.inj width) pivot ih

/-- What a row comes to, where the front rows so far come to `front`. -/
def total (front x : List K) (r : Row K) : K := dot r.factors front + dot r.entries x

/-- What the front rows come to. -/
def values : List (Elimination K) → List K → List K
  | e :: steps, x :: xs => (e.lead * x + dot e.rest xs) :: values steps xs
  | _, _ => []

theorem length_values {steps : List (Elimination K)} {x : List K}
    (lengths : x.length = steps.length) : (values steps x).length = steps.length := by
  induction steps generalizing x with
  | nil => rfl
  | cons e steps ih =>
    obtain ⟨x, xs, rfl⟩ := List.exists_of_length_succ _ lengths
    rw [values, List.length_cons, ih (Nat.succ.inj lengths), List.length_cons]

end

section

variable {K : Type} [Exact K] {k : ℕ} {rows : List (Row K)} {steps : List (Elimination K)}
  {side front x ys : List K}

theorem lessProducts_eq (v : K) (cs xs : List K) : lessProducts v cs xs = v - dot cs xs := by
  unfold lessProducts
  induction cs generalizing xs v with
  | nil => simp
  | cons c cs ih =>
    cases xs with
    | nil => simp [dot_comm _ []]
    | cons x xs =>
      rw [List.zip_cons_cons, List.foldl_cons, ih, dot_cons]
      dsimp only
      ring

theorem dot_subtract (f : K) {rest row xs : List K} (hrest : rest.length = xs.length)
    (hrow : row.length = xs.length) :
    dot (subtract f rest row) xs = dot row xs - f * dot rest xs := by
  induction xs generalizing rest row with
  | nil =>
    obtain rfl := List.length_eq_zero_iff.mp hrow
    obtain rfl := List.length_eq_zero_iff.mp hrest
    simp [subtract]
  | cons x xs ih =>
    obtain ⟨p, rest, rfl⟩ := List.exists_cons_of_length_eq_add_one hrest
    obtain ⟨a, row, rfl⟩ := List.exists_cons_of_length_eq_add_one hrow
    have tails := ih (Nat.succ.inj hrest) (Nat.succ.inj hrow)
    rw [subtract] at tails ⊢
    rw [List.zipWith_cons_cons, dot_cons, dot_cons, dot_cons, tails]
    ring

/-- What is subtracted from a row is kept with it, so that it comes to the same. -/
theorem total_reduce {r : Row K} {lead x : K} {rest xs : List K} (pivot : lead ≠ 0)
    (hfactors : r.factors.length = front.length) (hrest : rest.length = xs.length)
    (width : r.entries.length = xs.length + 1) :
    total (front ++ [lead * x + dot rest xs]) xs (reduce lead rest r) =
      total front (x :: xs) r := by
  obtain ⟨a, tail, split⟩ := List.exists_of_length_succ _ width
  rw [split] at width
  rw [total, total, reduce, split, List.tail_cons, List.headD_cons, dot_append hfactors,
    dot_subtract _ hrest (Nat.succ.inj width), dot_cons, dot_cons, dot_nil]
  have whole : a / lead * lead = a := div_mul_cancel₀ a pivot
  linear_combination x * whole

/-- The front rows are the rows at first: the factors times what the front rows come to are what the
rows come to, in the order in which they came to the front. -/
theorem Eliminates.totals (eliminates : Eliminates k rows steps) (hfront : front.length = k)
    (hx : x.length = steps.length) :
    (rows.map fun r => (r.origin, total front x r)).Perm
      ((steps.zip (values steps x)).map fun s =>
        (s.1.pivot, dot s.1.factors (front ++ values steps x) + s.2)) := by
  induction eliminates generalizing front x with
  | nil => exact .refl _
  | @cons k rows others e steps block perm pivot later ih =>
    obtain ⟨x, xs, rfl⟩ := List.exists_of_length_succ _ hx
    have hxs : xs.length = steps.length := Nat.succ.inj hx
    have moved := block.perm perm
    rw [← hfront, ← hxs] at moved
    have hfactors : e.factors.length = front.length := moved.factors _ List.mem_cons_self
    have hrest : e.rest.length = xs.length := Nat.succ.inj (moved.width _ List.mem_cons_self)
    -- the front row joins those that are known, and the others come to the same as before
    have below : (others.map fun r => (r.origin, total front (x :: xs) r)) =
        (others.map (reduce e.lead e.rest)).map fun r =>
          (r.origin, total (front ++ [e.lead * x + dot e.rest xs]) xs r) := by
      rw [List.map_map]
      refine List.map_congr_left fun r hr => ?_
      have factors := moved.factors r (List.mem_cons_of_mem _ hr)
      have width := moved.width r (List.mem_cons_of_mem _ hr)
      rw [Function.comp_apply, total_reduce pivot factors hrest width]
      rfl
    refine (perm.map _).trans ?_
    rw [List.map_cons, below, values, List.zip_cons_cons, List.map_cons]
    have first : total front (x :: xs) ⟨e.pivot, e.factors, e.lead :: e.rest⟩ =
        dot e.factors (front ++ (e.lead * x + dot e.rest xs) :: values steps xs) +
          (e.lead * x + dot e.rest xs) := by
      rw [total, dot_cons, dot_append_right hfactors]
    rw [first, List.append_cons]
    exact .cons _ (ih (by simp [hfront]) hxs)

/-- Working down one triangle finds what the front rows have to come to. -/
theorem eq_forward_iff (triangular : Triangular k steps) (hfront : front.length = k)
    (hys : ys.length = steps.length) : ys = forward side steps front ↔
      ∀ s ∈ steps.zip ys, dot s.1.factors (front ++ ys) + s.2 = side.getD s.1.pivot 0 := by
  induction triangular generalizing front ys with
  | nil =>
    obtain rfl := List.length_eq_zero_iff.mp hys
    simp [forward]
  | @cons k e steps factors rest pivot later ih =>
    obtain ⟨y, ys, rfl⟩ := List.exists_of_length_succ _ hys
    rw [forward, List.zip_cons_cons, List.forall_mem_cons]
    dsimp only
    rw [dot_append_right (factors.trans hfront.symm), lessProducts_eq, List.cons.injEq,
      eq_sub_iff_add_eq, add_comm y]
    refine and_congr_right fun first => ?_
    rw [← first, add_sub_cancel_left, List.append_cons front y ys]
    have known : (front ++ [y]).length = k + 1 := by rw [List.length_append, hfront]; rfl
    exact ih known (Nat.succ.inj hys)

/-- Working up the other one finds the unknowns. -/
theorem values_eq_iff (triangular : Triangular k steps) (hx : x.length = steps.length)
    (hys : ys.length = steps.length) : values steps x = ys ↔ x = backward steps ys := by
  induction triangular generalizing x ys with
  | nil =>
    obtain rfl := List.length_eq_zero_iff.mp hys
    obtain rfl := List.length_eq_zero_iff.mp hx
    simp [values, backward]
  | @cons k e steps factors rest pivot later ih =>
    obtain ⟨x, xs, rfl⟩ := List.exists_of_length_succ _ hx
    obtain ⟨y, ys, rfl⟩ := List.exists_of_length_succ _ hys
    rw [values, backward, List.cons.injEq, ih (Nat.succ.inj hx) (Nat.succ.inj hys),
      List.cons.injEq, lessProducts_eq]
    refine and_congr_left fun same => ?_
    rw [← same, eq_div_iff pivot, eq_sub_iff_add_eq, mul_comm]

end

variable {K : Type} [Euclidean K] {n k : ℕ} {steps : List (Elimination K)} {side x : List K}

theorem pivot_ne_zero {lead : K} (large : ¬Scalar.abs lead < leastPivot) : lead ≠ 0 := by
  rintro rfl
  rw [Euclidean.abs_eq, abs_zero] at large
  exact large (Euclidean.ofScientific_pos 0 12)

theorem eliminates_of_eliminate? {rows : List (Row K)} (block : Block k n rows)
    (eliminated : eliminate? n rows = some steps) :
    Eliminates k rows steps ∧ steps.length = n := by
  induction n generalizing k rows steps with
  | zero =>
    obtain rfl := List.length_eq_zero_iff.mp block.height
    obtain rfl := Option.some.inj eliminated
    exact ⟨.nil k, rfl⟩
  | succ n ih =>
    have moved := (swap_perm 0 (pivotIndex rows) rows).symm
    obtain ⟨origin, factors, lead, rest, others, front⟩ := block.exists_front
    rw [front] at moved
    have whole := block.perm moved
    simp only [eliminate?, front] at eliminated
    split at eliminated
    · contradiction
    · rename_i large
      obtain ⟨later, taken, rfl⟩ := Option.map_eq_some_iff.mp eliminated
      obtain ⟨eliminates, length⟩ := ih whole.reduced taken
      refine ⟨.cons (length ▸ block) moved (pivot_ne_zero large) eliminates, ?_⟩
      rw [List.length_cons, length]

section

variable {f : Factors K} {rows : List (List K)} (factored : factor? n rows = some f)
  (square : Square n rows)

include factored square

theorem exists_steps : ∃ steps, f = .ofRows steps [] ∧ steps.length = n ∧
    Eliminates 0 (rows.zipIdx.map fun e => ⟨e.2, [], e.1⟩) steps := by
  rw [factor?_eq square] at factored
  obtain ⟨steps, eliminated, rfl⟩ := Option.map_eq_some_iff.mp factored
  obtain ⟨eliminates, length⟩ := eliminates_of_eliminate? square.block eliminated
  exact ⟨steps, rfl, length, eliminates⟩

theorem length_solve (side : List K) : (solve f side).length = n := by
  obtain ⟨steps, rfl, length, eliminates⟩ := exists_steps factored square
  rw [solve_ofRows eliminates.triangular, length_backward (length_forward ..), length]

/-- The solution of a system that was taken apart is the only one. -/
theorem solves_iff (hside : side.length = n) (hx : x.length = n) :
    Solves x rows side ↔ x = solve f side := by
  obtain ⟨steps, rfl, length, eliminates⟩ := exists_steps factored square
  rw [← length] at hx
  have triangular := eliminates.triangular
  have totals := eliminates.totals (show ([] : List K).length = 0 from rfl) hx
  rw [solve_ofRows triangular]
  calc Solves x rows side
    _ ↔ ∀ e ∈ rows.zipIdx, dot e.1 x = side.getD e.2 0 :=
      solves_iff_forall_getD (square.height.trans hside.symm)
    _ ↔ ∀ t ∈ (rows.zipIdx.map fun e => (⟨e.2, [], e.1⟩ : Row K)).map
          fun r => (r.origin, total [] x r), t.2 = side.getD t.1 0 := by
      simp only [List.forall_mem_map, total, dot_nil, zero_add]
    _ ↔ ∀ s ∈ steps.zip (values steps x),
          dot s.1.factors ([] ++ values steps x) + s.2 = side.getD s.1.pivot 0 := by
      simp only [totals.mem_iff, List.forall_mem_map]
    _ ↔ values steps x = forward side steps [] :=
      (eq_forward_iff triangular rfl (length_values hx)).symm
    _ ↔ x = backward steps (forward side steps []) :=
      values_eq_iff triangular hx (length_forward ..)

end

theorem solves_ofFn_iff (a : Matrix (Fin n) (Fin n) K) (z b : Fin n → K) :
    Solves (List.ofFn z) (List.ofFn fun i => List.ofFn (a i)) (List.ofFn b) ↔ a.mulVec z = b := by
  have paired : (List.ofFn fun i => List.ofFn (a i)).zip (List.ofFn b) =
      List.ofFn fun i => (List.ofFn (a i), b i) :=
    List.ext_getElem (by simp) fun i _ _ => by simp
  rw [Solves, paired, List.forall_mem_ofFn_iff, funext_iff]
  exact forall_congr' fun i => by rw [dot_ofFn]; rfl

/-- A matrix that was taken apart has one solution for every right-hand side, and that is what is
worked out, whichever of its rows came to the front. -/
theorem solve_unique {a : Matrix (Fin n) (Fin n) K} {f : Factors K}
    (factored : factor? n (List.ofFn fun i => List.ofFn (a i)) = some f) (b : Fin n → K) :
    ∃ x, solve f (List.ofFn b) = List.ofFn x ∧ ∀ z, a.mulVec z = b ↔ z = x := by
  have square : Square n (List.ofFn fun i => List.ofFn (a i)) :=
    ⟨List.length_ofFn, List.forall_mem_ofFn_iff.mpr fun _ => List.length_ofFn⟩
  have length := length_solve factored square (List.ofFn b)
  obtain ⟨x, solution⟩ : ∃ x : Fin n → K, solve f (List.ofFn b) = List.ofFn x :=
    ⟨fun i => (solve f (List.ofFn b)).getD i 0,
      List.ext_getElem (by simp [length]) fun i _ _ => by simp [*]⟩
  refine ⟨x, solution, fun z => ?_⟩
  rw [← solves_ofFn_iff, solves_iff factored square List.length_ofFn List.length_ofFn,
    solution, List.ofFn_inj]

/-- Three rows that are moved about, the second time with the factors that they have by then. -/
theorem factor?_pair_eq_none {g : K} (positive : 0 < g) (most : g ≤ 1) :
    factor? 3 [[0, g, 1], [g, 0, 1], [1, 1, 0]] = none ↔ g < leastPivot := by
  have first : Scalar.order 0 g = .lt := Scalar.order_eq_lt.mpr positive
  have second : Scalar.order g 1 ≠ .gt := fun above =>
    most.not_gt (Scalar.order_eq_gt.mp above)
  have level : Scalar.order g g = .eq := Exact.order_eq_eq.mpr rfl
  have least : (leastPivot : K) ≤ 1 := Euclidean.ofScientific_le_one (by decide)
  have double : (1 : K) ≤ |1 + 1| := by
    rw [one_add_one_eq_two, abs_two]
    exact one_le_two
  have square : Square 3 [[0, g, 1], [g, 0, 1], [1, 1, 0]] := ⟨rfl, by simp⟩
  rw [factor?_eq square]
  simp [eliminate?, pivotIndex, swap, reduce, Order.greatest?, Order.on, subtract,
    Euclidean.abs_eq, first, second, level, least, least.trans double, abs_of_pos positive,
    positive.ne']

theorem factor?_pair :
    ∃ f, factor? 3 [[0, 1, 1], [1, 0, 1], [1, 1, (0 : K)]] = some f := by
  refine Option.ne_none_iff_exists'.mp ((factor?_pair_eq_none one_pos le_rfl).not.mpr ?_)
  exact not_lt.mpr (Euclidean.ofScientific_le_one (by decide))

/-- Every two of three unknowns are added. -/
theorem solve_unique_pair : ∃ f,
    factor? 3 [[0, 1, 1], [1, 0, 1], [1, 1, (0 : ℝ)]] = some f ∧
      solve f [5, 4, 3] = [1, 2, 3] := by
  obtain ⟨f, factored⟩ := factor?_pair (K := ℝ)
  let a : Matrix (Fin 3) (Fin 3) ℝ := !![0, 1, 1; 1, 0, 1; 1, 1, 0]
  have rows : (List.ofFn fun i => List.ofFn (a i)) = [[0, 1, 1], [1, 0, 1], [1, 1, 0]] := rfl
  obtain ⟨x, solution, unique⟩ := solve_unique (rows ▸ factored) ![5, 4, 3]
  have solves : a.mulVec ![1, 2, 3] = ![5, 4, 3] := by
    ext i
    fin_cases i <;> norm_num [a, Matrix.mulVec, dotProduct, Fin.sum_univ_succ]
  rw [← (unique _).mp solves] at solution
  exact ⟨f, factored, solution⟩

end LinearSystem
end Geospatial
