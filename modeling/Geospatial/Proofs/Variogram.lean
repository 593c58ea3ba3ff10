import Mathlib.Algebra.BigOperators.Fin
import Mathlib.Algebra.Order.BigOperators.Group.Finset
import Mathlib.Algebra.Order.Floor.Ring
import Mathlib.Tactic.FinCases
import Geospatial.Proofs.Interpolation.Samples
import Geospatial.Proofs.Scalar.Real
import Geospatial.Variogram

/-! The empirical variogram, in exact arithmetic, is made of a partition of the pairs of samples,
which are the couples of their list, the nearer one to the front first: each two samples that are
nearer than the last class ends are in one class, by the whole part of their distance in units of
the width. What a class has is the sum over its pairs, so that the order in which they were entered,
and with it that of the samples, is of no account. -/
namespace Geospatial

namespace Order

theorem sum_map_filter {α M : Type} [AddCommMonoid M] (P : α → Prop) [DecidablePred P] (g : α → M)
    (xs : List α) :
    ((xs.filter fun x => P x).map g).sum = (xs.map fun x => if P x then g x else 0).sum := by
  simp [List.sum_map_ite]

theorem sum_couples {α M : Type} [AddCommMonoid M] (f : α × α → M) (xs : List α) :
    ((couples xs).map f).sum =
      ∑ q : Fin xs.length × Fin xs.length with q.1 < q.2, f (xs[q.1], xs[q.2]) := by
  simp only [Finset.sum_filter, Fintype.sum_prod_type]
  induction xs with
  | nil => rfl
  | cons x xs ih =>
    simp only [couples, List.map_append, List.sum_append, ih, List.map_map,
      ← Fin.sum_univ_fun_getElem xs]
    simp [Fin.sum_univ_succ]

/-- What does not tell the two of a couple apart is the same for all couples in any order. -/
theorem map_couples_perm {α β : Type} {f : α × α → β} (symm : ∀ a b, f (a, b) = f (b, a))
    {xs ys : List α} (perm : xs.Perm ys) : ((couples xs).map f).Perm ((couples ys).map f) := by
  induction perm with
  | nil => exact .refl _
  | cons x perm ih =>
    simp only [couples, List.map_append, List.map_map]
    exact (perm.map _).append ih
  | swap x y l =>
    simp only [couples, List.map_cons, List.map_append, List.map_map, List.cons_append, symm y x]
    refine .cons _ ?_
    rw [← List.append_assoc, ← List.append_assoc]
    exact List.perm_append_comm.append_right _
  | trans _ _ first second => exact first.trans second

end Order

namespace Variogram

section

variable {K : Type} [Scalar K]

/-- A class is changed by the pairs that belong to it. -/
theorem getElem?_foldl_enter (size : K) (ps : List (Pair K)) (ts : Array (Tally K)) (b : ℕ) :
    (ps.foldl (enter size) ts)[b]? =
      ts[b]?.map fun t => (ps.filter fun p => lagClass size p = b).foldl Tally.add t := by
  induction ps generalizing ts with
  | nil => simp
  | cons p ps ih =>
    rw [List.foldl_cons, ih, enter, Array.getElem?_modify]
    by_cases here : lagClass size p = b
    · simp [here, Function.comp_def]
    · simp [here]

end

section

variable {K : Type} [Exact K]

theorem Tally.foldl_add (ps : List (Pair K)) (t : Tally K) : ps.foldl Tally.add t =
    ⟨t.distance + (ps.map (·.distance)).sum,
      t.squaredDifference + (ps.map (·.squaredDifference)).sum, t.pairs + ps.length⟩ := by
  induction ps generalizing t with
  | nil => simp
  | cons p ps ih => simp [ih, Tally.add, add_assoc, add_comm 1]

instance (size : K) : RightCommutative (enter size) where
  right_comm ts p q := by
    refine Array.ext (by simp [enter]) fun b _ _ => ?_
    simp only [enter, Array.getElem_modify]
    by_cases hp : lagClass size p = b <;> by_cases hq : lagClass size q = b <;>
      simp [hp, hq, Tally.add, add_right_comm]

theorem tallies_perm {size : K} {count : ℕ} {samples moved : List (Sample K)}
    (pairs : ((Order.couples moved).map fun c => pairOf c.1 c.2).Perm
      ((Order.couples samples).map fun c => pairOf c.1 c.2)) :
    tallies size count moved = tallies size count samples := pairs.foldl_eq _

end

section

variable {K : Type} [Euclidean K] {size : K} {count : ℕ} {points : List (Position K)}
  {values : List K} {samples moved : List (Sample K)}

/-- The distance of the samples at two places of a list. -/
def separation (samples : List (Sample K)) (q : Fin samples.length × Fin samples.length) : K :=
  samples[q.1].distanceTo samples[q.2].position

/-- The squared difference of their values. -/
def contrast (samples : List (Sample K)) (q : Fin samples.length × Fin samples.length) : K :=
  (samples[q.1].value - samples[q.2].value) ^ 2

/-- Each two places of a list whose samples are at least `b` and less than `b + 1` widths apart. -/
def classAt (size : K) (samples : List (Sample K)) (b : ℕ) :
    Finset (Fin samples.length × Fin samples.length) :=
  {q | q.1 < q.2 ∧ b * size ≤ separation samples q ∧ separation samples q < (b + 1) * size}

/-- Mean distance and half the mean squared difference over some pairs of places. -/
def binOver (samples : List (Sample K))
    (pairs : Finset (Fin samples.length × Fin samples.length)) : VariogramBin K where
  lag := (∑ q ∈ pairs, separation samples q) / pairs.card
  semivariance := (∑ q ∈ pairs, contrast samples q) / pairs.card / 2
  pairs := pairs.card

theorem pairOf_comm (a b : Sample K) : pairOf a b = pairOf b a := by
  rw [pairOf, pairOf, Sample.distanceTo_comm, ← neg_sub b.value, neg_mul_neg]

variable [FloorRing K] [Scalar.LawfulFloor K]

theorem lagClass_eq_iff (sized : 0 < size) {p : Pair K} (nonneg : 0 ≤ p.distance) {b : ℕ} :
    lagClass size p = b ↔ b * size ≤ p.distance ∧ p.distance < (b + 1) * size := by
  rw [lagClass, Scalar.LawfulFloor.toNat_eq, Nat.floor_eq_iff (div_nonneg nonneg sized.le),
    le_div_iff₀ sized, div_lt_iff₀ sized]

theorem mem_classAt (sized : 0 < size) {q : Fin samples.length × Fin samples.length} {b : ℕ} :
    q ∈ classAt size samples b ↔
      q.1 < q.2 ∧ lagClass size (pairOf samples[q.1] samples[q.2]) = b := by
  have nonneg : 0 ≤ (pairOf samples[q.1] samples[q.2]).distance := Euclidean.hypot_nonneg _ _
  rw [lagClass_eq_iff sized nonneg, classAt, Finset.mem_filter_univ]
  rfl

/-- Sums over the pairs of a class, as they are entered and as they are counted off. -/
theorem sum_class {M : Type} [AddCommMonoid M] (sized : 0 < size) (samples : List (Sample K))
    (g : Pair K → M) (b : ℕ) : ((((Order.couples samples).map fun c => pairOf c.1 c.2).filter
      fun p => lagClass size p = b).map g).sum =
        ∑ q ∈ classAt size samples b, g (pairOf samples[q.1] samples[q.2]) := by
  rw [Order.sum_map_filter, List.map_map, Order.sum_couples]
  simp only [Function.comp_apply]
  rw [← Finset.sum_filter, Finset.filter_filter]
  refine Finset.sum_congr (Finset.ext fun q => ?_) fun _ _ => rfl
  rw [mem_classAt sized, Finset.mem_filter_univ]

theorem length_class (sized : 0 < size) (samples : List (Sample K)) (b : ℕ) :
    (((Order.couples samples).map fun c => pairOf c.1 c.2).filter
      fun p => lagClass size p = b).length = (classAt size samples b).card := by
  have counted := sum_class sized samples (fun _ => 1) b
  rwa [List.map_const', List.sum_replicate_nat, mul_one, Finset.sum_const, nsmul_one] at counted

/-- The tally of a class is over its pairs. -/
theorem toList_tallies (sized : 0 < size) (count : ℕ) (samples : List (Sample K)) :
    (tallies size count samples).toList = (List.range count).map fun b =>
      ⟨∑ q ∈ classAt size samples b, separation samples q,
        ∑ q ∈ classAt size samples b, contrast samples q, (classAt size samples b).card⟩ := by
  refine List.ext_getElem? fun b => ?_
  rw [Array.getElem?_toList, tallies, getElem?_foldl_enter, Array.getElem?_replicate,
    List.getElem?_map]
  by_cases inside : b < count
  · rw [if_pos inside, List.getElem?_range inside, Option.map_some, Option.map_some,
      Tally.foldl_add, sum_class sized, sum_class sized, length_class sized]
    simp [Tally.empty, separation, contrast, pairOf, sq]
  · rw [if_neg inside, List.getElem?_eq_none (by simpa using inside)]
    rfl

theorem binsOf_eq (sized : 0 < size) (count : ℕ) (samples : List (Sample K)) :
    binsOf size count samples =
      ((List.range count).filter fun b => (classAt size samples b).Nonempty).map fun b =>
        binOver samples (classAt size samples b) := by
  rw [binsOf, toList_tallies sized, List.filter_map, List.map_map]
  simp only [Function.comp_def, Finset.card_pos]
  refine List.map_congr_left fun b _ => ?_
  rw [Tally.bin, binOver, div_div, mul_comm (2 : K)]

theorem lagClass_lt_iff (sized : 0 < size) {p : Pair K} (nonneg : 0 ≤ p.distance) :
    lagClass size p < count ↔ p.distance < size * count := by
  rw [lagClass, Scalar.LawfulFloor.toNat_eq, Nat.floor_lt (div_nonneg nonneg sized.le),
    div_lt_iff₀ sized, mul_comm]

theorem near_iff (sized : 0 < size) {q : Fin samples.length × Fin samples.length} :
    lagClass size (pairOf samples[q.1] samples[q.2]) < count ↔
      separation samples q < size * count :=
  lagClass_lt_iff sized (Euclidean.hypot_nonneg _ _)

theorem empirical_eq_ok (accepted : Sample.ofLists points values = .ok samples) (sized : 0 < size)
    (one : 1 ≤ count) : empirical points values size count = .ok (binsOf size count samples) := by
  rw [empirical, accepted]
  refine Outcome.refuse_unless_eq_ok.mpr ⟨?_, rfl⟩
  simp [Scalar.LawfulFloor.isFinite_eq, sized, Nat.one_le_iff_ne_zero.mp one]

/-- The number of pairs in all classes is that of the pairs that are near enough. -/
theorem sum_card_classAt (sized : 0 < size) (count : ℕ) (samples : List (Sample K)) :
    ∑ b ∈ Finset.range count, (classAt size samples b).card =
      Finset.card {q : Fin samples.length × Fin samples.length |
        q.1 < q.2 ∧ separation samples q < size * count} := by
  rw [Finset.card_eq_sum_card_fiberwise (t := Finset.range count)
    (f := fun q => lagClass size (pairOf samples[q.1] samples[q.2]))]
  · refine Finset.sum_congr rfl fun b inside => congrArg Finset.card (Finset.ext fun q => ?_)
    rw [mem_classAt sized, Finset.mem_filter, Finset.mem_filter_univ, ← near_iff sized]
    rw [Finset.mem_range] at inside
    exact ⟨fun ⟨ordered, own⟩ => ⟨⟨ordered, own ▸ inside⟩, own⟩,
      fun ⟨⟨ordered, _⟩, own⟩ => ⟨ordered, own⟩⟩
  · intro q near
    rw [Finset.coe_range, Set.mem_Iio, near_iff sized]
    exact (Finset.mem_filter_univ q).mp near |>.2

/-- Bins that are left out have no pairs to count. -/
theorem sum_pairs_binsOf (sized : 0 < size) (count : ℕ) (samples : List (Sample K)) :
    ((binsOf size count samples).map (·.pairs)).sum =
      ∑ b ∈ Finset.range count, (classAt size samples b).card := by
  rw [binsOf_eq sized, List.map_map, Order.sum_map_filter]
  have counted (b : ℕ) : (if (classAt size samples b).Nonempty then
      ((fun bin : VariogramBin K => bin.pairs) ∘ fun b => binOver samples (classAt size samples b)) b
      else 0) = (classAt size samples b).card := by
    split
    · rfl
    · rename_i empty
      rw [Finset.not_nonempty_iff_eq_empty.mp empty, Finset.card_empty]
  simp only [counted]
  rfl

/-- Over accepted samples, with a positive width and at least one class, there is a variogram: its
bins are those of the classes that have pairs, in rising order; each two samples that are nearer
than the last class ends are in one class, no others are in any, and all are counted once. In any
order of the samples it is the same. -/
theorem empirical_partitions (accepted : Sample.ofLists points values = .ok samples)
    (sized : 0 < size) (one : 1 ≤ count) : ∃ bins, empirical points values size count = .ok bins ∧
      bins = (((List.range count).filter fun b => (classAt size samples b).Nonempty).map fun b =>
        binOver samples (classAt size samples b)) ∧
      (∀ q : Fin samples.length × Fin samples.length, q.1 < q.2 →
        separation samples q < size * count → ∃! b, b < count ∧ q ∈ classAt size samples b) ∧
      (∀ b < count, ∀ q ∈ classAt size samples b, separation samples q < size * count) ∧
      (bins.map (·.pairs)).sum = Finset.card {q : Fin samples.length × Fin samples.length |
        q.1 < q.2 ∧ separation samples q < size * count} ∧
      ∀ moved : List (Sample K), moved.Perm samples →
        empirical (moved.map (·.position)) (moved.map (·.value)) size count = .ok bins := by
  refine ⟨_, empirical_eq_ok accepted sized one, binsOf_eq sized count samples, ?_, ?_, ?_, ?_⟩
  · intro q ordered near
    refine ⟨lagClass size (pairOf samples[q.1] samples[q.2]), ⟨(near_iff sized).mpr near, ?_⟩, ?_⟩
    · exact (mem_classAt sized).mpr ⟨ordered, rfl⟩
    · exact fun b own => ((mem_classAt sized).mp own.2).2.symm
  · intro b inside q member
    rw [← near_iff sized, ((mem_classAt sized).mp member).2]
    exact inside
  · rw [sum_pairs_binsOf sized, sum_card_classAt sized]
  · intro moved perm
    rw [empirical_eq_ok (Sample.ofLists_perm accepted perm) sized one, binsOf, binsOf,
      tallies_perm (Order.map_couples_perm pairOf_comm perm)]

/-- Three samples in a row, the middle one nearer to both than a width. -/
theorem empirical_partitions_row :
    let points : List (Position ℝ) := [⟨0, 0, none⟩, ⟨1, 0, none⟩, ⟨2, 0, none⟩]
    empirical points [0, 1, 2] (3 / 2) 2 = .ok [⟨1, 1 / 2, 2⟩, ⟨2, 2, 1⟩] ∧
      empirical [⟨2, 0, none⟩, ⟨0, 0, none⟩, ⟨1, 0, none⟩] [2, 0, 1] (3 / 2 : ℝ) 2 =
        .ok [⟨1, 1 / 2, 2⟩, ⟨2, 2, 1⟩] := by
  intro points
  let samples : List (Sample ℝ) := [⟨⟨0, 0, none⟩, 0⟩, ⟨⟨1, 0, none⟩, 1⟩, ⟨⟨2, 0, none⟩, 2⟩]
  have accepted : Sample.ofLists points [0, 1, 2] = .ok samples := rfl
  have distance (i j : Fin 3) : separation samples (i, j) = |(i : ℝ) - j| := by
    have level : (samples[i] : Sample ℝ).position.y = samples[j].position.y := by
      fin_cases i <;> fin_cases j <;> rfl
    rw [separation, Sample.distanceTo_of_level level]
    fin_cases i <;> fin_cases j <;> simp [samples]
  have first : classAt (3 / 2) samples 0 = {(0, 1), (1, 2)} := by
    ext ⟨i, j⟩
    simp only [classAt, Finset.mem_filter_univ, distance]
    fin_cases i <;> fin_cases j <;> norm_num <;> decide
  have second : classAt (3 / 2) samples 1 = {(0, 2)} := by
    ext ⟨i, j⟩
    simp only [classAt, Finset.mem_filter_univ, distance]
    fin_cases i <;> fin_cases j <;> norm_num <;> decide
  obtain ⟨bins, computed, classes, -, -, -, reordered⟩ :=
    empirical_partitions accepted (show (0 : ℝ) < 3 / 2 by norm_num) one_le_two
  have both : bins = [⟨1, 1 / 2, 2⟩, ⟨2, 2, 1⟩] := by
    have numbers : List.range 2 = [0, 1] := rfl
    rw [classes, numbers]
    norm_num [first, second, binOver, distance, contrast, samples]
  rw [both] at computed reordered
  exact ⟨computed, reordered [⟨⟨2, 0, none⟩, 2⟩, ⟨⟨0, 0, none⟩, 0⟩, ⟨⟨1, 0, none⟩, 1⟩]
    (List.perm_append_singleton _ [_, _]).symm⟩

end

end Variogram

end Geospatial
