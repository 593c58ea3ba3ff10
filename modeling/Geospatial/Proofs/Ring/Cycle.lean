import Geospatial.Proofs.Position
import Geospatial.Path

/-! The edges of a ring as steps from vertex to vertex: their ends, the edges before and after an
edge, and how classes of vertices change along them. -/
namespace Geospatial.Path

theorem cyclicPairs_three {α : Type} (a b c : α) :
    cyclicPairs [a, b, c] = [(a, b), (b, c), (c, a)] := rfl

theorem cyclicPairs_four {α : Type} (a b c d : α) :
    cyclicPairs [a, b, c, d] = [(a, b), (b, c), (c, d), (d, a)] := rfl

theorem closedCopy_cons {K : Type} (a : Position K) (rest : Path K) :
    closedCopy (a :: rest) = a :: rest ++ [a] := rfl

theorem endsMeet_closedCopy {K : Type} [Scalar K] {a : Position K} (same : a.sameXY a = true)
    (rest : Path K) : (closedCopy (a :: rest)).endsMeet = true := by
  rw [closedCopy_cons, endsMeet, List.getLast?_concat]
  exact same

theorem mem_of_mem_pairs {l : List α} {e : α × α} (h : e ∈ pairs l) : e.1 ∈ l ∧ e.2 ∈ l :=
  ⟨(List.of_mem_zip h).1, List.mem_of_mem_tail (List.of_mem_zip h).2⟩

theorem pairs_map {α β : Type} (f : α → β) (l : List α) :
    pairs (l.map f) = (pairs l).map (Prod.map f f) := by
  rw [pairs, ← List.map_tail, List.zip_map]
  rfl

/-- The steps up to an element come before the steps from it on. -/
theorem pairs_append_cons {α : Type} (l rest : List α) (a : α) :
    pairs (l ++ a :: rest) = pairs (l ++ [a]) ++ pairs (a :: rest) := by
  induction l with
  | nil => rfl
  | cons c l ih =>
    cases l with
    | nil => rfl
    | cons d l => exact congrArg (List.cons (c, d)) ih

theorem pairs_concat_concat {α : Type} (l : List α) (a b : α) :
    pairs (l ++ [a] ++ [b]) = pairs (l ++ [a]) ++ [(a, b)] := by
  rw [List.append_assoc]
  exact pairs_append_cons l [b] a

theorem pairs_reverse {α : Type} (l : List α) :
    pairs l.reverse = ((pairs l).map Prod.swap).reverse := by
  induction l with
  | nil => rfl
  | cons a l ih =>
    cases l with
    | nil => rfl
    | cons b l =>
      have first : pairs (a :: b :: l) = (a, b) :: pairs (b :: l) := rfl
      rw [List.reverse_cons, List.reverse_cons, pairs_concat_concat, ← List.reverse_cons, ih, first,
        List.map_cons, List.reverse_cons, Prod.swap_prod_mk]

theorem mem_of_mem_cyclicPairs {l : List α} {e : α × α} (h : e ∈ cyclicPairs l) :
    e.1 ∈ l ∧ e.2 ∈ l := by
  refine ⟨(List.of_mem_zip h).1, ?_⟩
  rcases List.mem_append.mp (List.of_mem_zip h).2 with rest | first
  · exact List.mem_of_mem_tail rest
  · exact List.mem_of_mem_head? (Option.mem_toList.mp first)

/-- Round a ring, the steps that change a class are even in number. -/
theorem countP_cyclicPairs_even {α : Type} (c : α → Bool) (l : List α) :
    (cyclicPairs l).countP (fun e => c e.1 != c e.2) % 2 = 0 := by
  have step (n : Nat) (x y z : Bool) (h : n % 2 = (y != z).toNat) :
      (n + if (x != y) = true then 1 else 0) % 2 = (x != z).toNat := by
    cases x <;> cases y <;> cases z <;> simp at h ⊢ <;> omega
  have open_parity (a z : α) (t : List α) :
      ((a :: t).zip (t ++ [z])).countP (fun e => c e.1 != c e.2) % 2 = (c a != c z).toNat := by
    induction t generalizing a with
    | nil =>
      rw [List.nil_append, List.zip_cons_cons, List.countP_cons]
      exact step 0 (c a) (c z) (c z) (by simp)
    | cons b t ih =>
      rw [List.cons_append, List.zip_cons_cons, List.countP_cons]
      exact step _ (c a) (c b) (c z) (ih b)
  cases l with
  | nil => rfl
  | cons a t => exact (open_parity a a t).trans (by simp)

theorem infix_of_getElem? {α : Type} {l : List α} {i : Nat} {a b c : α} (ha : l[i]? = some a)
    (hb : l[i + 1]? = some b) (hc : l[i + 2]? = some c) : [a, b, c] <:+: l := by
  have row : (l.drop i)[0]? = some a ∧ (l.drop i)[1]? = some b ∧ (l.drop i)[2]? = some c := by
    simp only [List.getElem?_drop]
    exact ⟨ha, hb, hc⟩
  match rest : l.drop i, row with
  | x :: y :: z :: tail, ⟨hx, hy, hz⟩ =>
    obtain ⟨rfl, rfl, rfl⟩ : x = a ∧ y = b ∧ z = c := by simpa using And.intro hx (And.intro hy hz)
    refine ⟨l.take i, tail, ?_⟩
    rw [List.append_assoc]
    exact (congrArg (l.take i ++ ·) rest.symm).trans (List.take_append_drop i l)

/-- The edges of a ring are the steps along the ring and once more along its start. -/
theorem mem_cyclicPairs_iff {α : Type} {l : List α} {e : α × α} : e ∈ cyclicPairs l ↔
    ∃ i < l.length, (l ++ l.take 2)[i]? = some e.1 ∧ (l ++ l.take 2)[i + 1]? = some e.2 := by
  cases l with
  | nil => simp [cyclicPairs]
  | cons a t =>
    have shifted (i : Nat) (h : i < t.length + 1) :
        (a :: t ++ (a :: t).take 2)[i + 1]? = (t ++ [a])[i]? := by
      have split : a :: t ++ (a :: t).take 2 = a :: ((t ++ [a]) ++ t.take 1) := by
        cases t <;> simp
      rw [split, List.getElem?_cons_succ, List.getElem?_append_left (by simpa using h)]
    rw [List.mem_iff_getElem?]
    constructor
    · rintro ⟨i, h⟩
      obtain ⟨first, second⟩ := List.getElem?_zip_eq_some.mp h
      have inside : i < (a :: t).length := (List.getElem?_eq_some_iff.mp first).1
      refine ⟨i, inside, ?_, ?_⟩
      · rwa [List.getElem?_append_left inside]
      · rw [shifted i inside]
        exact second
    · rintro ⟨i, inside, first, second⟩
      rw [List.getElem?_append_left inside] at first
      rw [shifted i inside] at second
      exact ⟨i, List.getElem?_zip_eq_some.mpr ⟨first, second⟩⟩

/-- An edge stands between the edges before and after it. -/
theorem exists_neighbors {α : Type} {l : List α} {e : α × α} (many : 3 ≤ l.length)
    (mem : e ∈ cyclicPairs l) : ∃ a c, (a, e.1) ∈ cyclicPairs l ∧ (e.2, c) ∈ cyclicPairs l ∧
      [a, e.1, e.2] <:+: l ++ l.take 2 ∧ [e.1, e.2, c] <:+: l ++ l.take 2 := by
  have size : (l ++ l.take 2).length = l.length + 2 := by
    simp
    omega
  have again (i : Nat) (h : i < 2) : (l ++ l.take 2)[l.length + i]? = (l ++ l.take 2)[i]? := by
    rw [List.getElem?_append_right (by omega), List.getElem?_append_left (by omega),
      List.getElem?_take_of_lt (by omega)]
    simp
  obtain ⟨i, inside, first, second⟩ := mem_cyclicPairs_iff.mp mem
  -- the first edge is the last step of the lengthened ring, too
  obtain ⟨j, start, first', second'⟩ : ∃ j, j + 1 ≤ l.length ∧
      (l ++ l.take 2)[j + 1]? = some e.1 ∧ (l ++ l.take 2)[j + 2]? = some e.2 := by
    cases i with
    | zero =>
      refine ⟨l.length - 1, by omega, ?_, ?_⟩
      · rw [show l.length - 1 + 1 = l.length + 0 by omega, again 0 (by omega)]
        exact first
      · rw [show l.length - 1 + 2 = l.length + 1 by omega, again 1 (by omega)]
        exact second
    | succ j => exact ⟨j, by omega, first, second⟩
  obtain ⟨a, before⟩ : ∃ a, (l ++ l.take 2)[j]? = some a :=
    ⟨_, List.getElem?_eq_getElem (by omega)⟩
  obtain ⟨c, after⟩ : ∃ c, (l ++ l.take 2)[i + 2]? = some c :=
    ⟨_, List.getElem?_eq_getElem (by omega)⟩
  refine ⟨a, c, mem_cyclicPairs_iff.mpr ⟨j, by omega, before, first'⟩, ?_,
    infix_of_getElem? before first' second', infix_of_getElem? first second after⟩
  by_cases last : i + 1 < l.length
  · exact mem_cyclicPairs_iff.mpr ⟨i + 1, last, second, after⟩
  · have wrap : i + 1 = l.length + 0 := by omega
    have next : i + 2 = l.length + 1 := by omega
    rw [wrap, again 0 (by omega)] at second
    rw [next, again 1 (by omega)] at after
    exact mem_cyclicPairs_iff.mpr ⟨0, by omega, second, after⟩

/-- Where a class holds somewhere in a ring, and not everywhere, some edge leads into it. -/
theorem exists_entering {α : Type} {l : List α} (c : α → Bool) {a b : α} (ha : a ∈ l)
    (out : c a = false) (hb : b ∈ l) (inner : c b = true) :
    ∃ e ∈ cyclicPairs l, c e.1 = false ∧ c e.2 = true := by
  by_contra unmarked
  push Not at unmarked
  have reach (x z : α) (t : List α) (stays : ∀ e ∈ (x :: t).zip (t ++ [z]),
      c e.1 = false → c e.2 = false) (other : ∃ y ∈ x :: t, c y = false) : c z = false := by
    induction t generalizing x with
    | nil =>
      obtain ⟨y, mem, here⟩ := other
      obtain rfl := List.mem_singleton.mp mem
      exact stays (y, z) List.mem_cons_self here
    | cons y t ih =>
      rw [List.cons_append, List.zip_cons_cons, List.forall_mem_cons] at stays
      obtain ⟨v, mem, here⟩ := other
      rcases List.mem_cons.mp mem with rfl | later
      · exact ih y stays.2 ⟨y, List.mem_cons_self, stays.1 here⟩
      · exact ih y stays.2 ⟨v, later, here⟩
  have spread (x z : α) (t : List α) (stays : ∀ e ∈ (x :: t).zip (t ++ [z]),
      c e.1 = false → c e.2 = false) (here : c x = false) : ∀ y ∈ x :: t, c y = false := by
    induction t generalizing x with
    | nil => simpa using here
    | cons y t ih =>
      rw [List.cons_append, List.zip_cons_cons, List.forall_mem_cons] at stays
      exact List.forall_mem_cons.mpr ⟨here, ih y stays.2 (stays.1 here)⟩
  cases l with
  | nil => contradiction
  | cons x t =>
    have stays : ∀ e ∈ (x :: t).zip (t ++ [x]), c e.1 = false → c e.2 = false :=
      fun e mem here => Bool.eq_false_iff.mpr (unmarked e mem here)
    have first := reach x x t stays ⟨a, ha, out⟩
    rw [spread x x t stays first b hb] at inner
    contradiction

section

variable {K : Type} [Scalar K] {ring : Path K}

theorem opened_subset (ring : Path K) : ring.opened ⊆ ring := by
  unfold opened
  split
  · exact List.dropLast_subset ring
  · exact List.Subset.refl ring

theorem opened_eq_dropLast (long : 4 ≤ ring.length) (closed : ring.endsMeet = true) :
    ring.opened = ring.dropLast := by
  rw [opened, closed, Bool.and_true, if_pos (decide_eq_true (by omega))]

end

section Closed

variable {K : Type} [Exact K] {ring : Path K}

/-- Where a ring returns to its start, each of its edges is drawn by two of its positions. -/
theorem exists_segment_of_edge (long : 4 ≤ ring.length) (closed : ring.endsMeet = true)
    {e : Position K × Position K} (mem : e ∈ cyclicPairs ring.opened) :
    ∃ s ∈ pairs ring, s.1.sameXY e.1 = true ∧ s.2.sameXY e.2 = true := by
  rw [opened_eq_dropLast long closed] at mem
  match ring, long, closed, mem with
  | a :: b :: rest, _, closed, mem =>
    obtain ⟨t, z, shape⟩ : ∃ t z, b :: rest = t ++ [z] :=
      ⟨_, _, (List.dropLast_append_getLast (List.cons_ne_nil b rest)).symm⟩
    have stop : (a :: b :: rest).getLast? = some z := by
      rw [shape, ← List.cons_append, List.getLast?_concat]
    have meet : a.sameXY z = true := by
      rwa [endsMeet, List.head?_cons, stop] at closed
    rw [shape, ← List.cons_append, List.dropLast_concat] at mem
    obtain ⟨i, here⟩ := List.mem_iff_getElem?.mp mem
    obtain ⟨first, second⟩ := List.getElem?_zip_eq_some.mp here
    have later : (t ++ [a])[i]? = some e.2 := second
    have step (y : Position K) (there : (t ++ [z])[i]? = some y) (same : y.sameXY e.2 = true) :
        ∃ s ∈ pairs (a :: b :: rest), s.1.sameXY e.1 = true ∧ s.2.sameXY e.2 = true := by
      refine ⟨(e.1, y), ?_, Position.sameXY_self _, same⟩
      rw [shape, ← List.cons_append]
      refine List.mem_iff_getElem?.mpr ⟨i, List.getElem?_zip_eq_some.mpr ⟨?_, there⟩⟩
      rw [List.getElem?_append_left (List.getElem?_eq_some_iff.mp first).1]
      exact first
    by_cases inner : i < t.length
    · rw [List.getElem?_append_left inner] at later
      exact step e.2 (by rwa [List.getElem?_append_left inner]) (Position.sameXY_self _)
    · have last : i = t.length := by
        have := (List.getElem?_eq_some_iff.mp first).1
        simp only [List.length_cons] at this
        omega
      subst last
      rw [List.getElem?_concat_length] at later
      obtain rfl := Option.some.inj later
      exact step z List.getElem?_concat_length (by rwa [Position.sameXY_comm])

end Closed

end Geospatial.Path
