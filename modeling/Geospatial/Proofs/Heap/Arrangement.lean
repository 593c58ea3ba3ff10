import Geospatial.Proofs.Heap

/-! Adding many elements at once. The heap is in order afterwards and has them all, also where its
array is arranged anew. That sinks one parent after the other, the last one first, each into what is
in order behind it. -/
namespace Geospatial.Heap

variable {α : Type} {precedes : α → α → Bool}

/-- From the one at `s` on, no parent has a child that precedes it. -/
def OrderedFrom (precedes : α → α → Bool) (s : Nat) (a : Array α) : Prop :=
  ∀ c p (hc : c < a.size) (hp : p < a.size), IsChild c p → s ≤ p → ¬precedes a[c] a[p]

/-- In order from `s` on, but for the element at `i` and its children. -/
structure Sinking (precedes : α → α → Bool) (s : Nat) (a : Array α) (i : Nat) : Prop where
  others : ∀ c p (hc : c < a.size) (hp : p < a.size), IsChild c p → s ≤ p → p ≠ i →
    ¬precedes a[c] a[p]
  across : ∀ c p (hc : c < a.size) (hp : p < a.size), IsChild c i → IsChild i p → s ≤ p →
    ¬precedes a[c] a[p]

/-- The first child that precedes the element at `i` changes places with it. -/
theorem Sinking.step (ranks : Ranks precedes) {s i c : Nat} {a : Array α}
    (sinking : Sinking precedes s a i) (hi : i < a.size) (hc : c < a.size) (child : IsChild c i)
    (first : ∀ d (hd : d < a.size), IsChild d i → ¬precedes a[d] a[c])
    (before : precedes a[c] a[i]) : Sinking precedes s (a.swap i c) c := by
  have descends := child.lt
  have apart : c ≠ i := by omega
  constructor
  · intro d q hd hq below behind notHere
    have hd' : d < a.size := by simpa using hd
    have hq' : q < a.size := by simpa using hq
    have deeper := below.lt
    by_cases root : q = i
    · subst root
      by_cases chosen : d = c
      · subst chosen
        simpa [Array.getElem_swap, apart] using ranks.asymm before
      · have other : d ≠ q := by omega
        simpa [Array.getElem_swap, other, chosen] using first d hd' below
    · have other : d ≠ c := by
        rintro rfl
        exact root (below.unique child)
      by_cases moved : d = i
      · subst moved
        simpa [Array.getElem_swap, root, notHere] using sinking.across c q hc hq' child below behind
      · simpa [Array.getElem_swap, root, notHere, moved, other] using
          sinking.others d q hd' hq' below behind root
  · intro d q hd hq below above behind
    have hd' : d < a.size := by simpa using hd
    obtain rfl := above.unique child
    have deeper := below.lt
    have far : d ≠ q ∧ d ≠ c := by omega
    simpa [Array.getElem_swap, far] using
      sinking.others d c hd' hc below (by omega) apart

theorem orderedFrom_sink (ranks : Ranks precedes) {s i : Nat} {a : Array α}
    (sinking : Sinking precedes s a i) : OrderedFrom precedes s (sink precedes a i) := by
  fun_induction sink precedes a i with
  | case1 a i leaf =>
    intro c p hc hp child behind
    refine sinking.others c p hc hp child behind ?_
    rintro rfl
    exact firstChild?_eq_none leaf hc child
  | case2 a i c hic hc first hi before ih =>
    obtain ⟨child, leads⟩ := firstChild?_eq_some ranks hic hc first
    simp only [first, before, if_true]
    exact ih (sinking.step ranks hi hc child leads before)
  | case3 a i c hic hc first hi after =>
    obtain ⟨_, leads⟩ := firstChild?_eq_some ranks hic hc first
    simp only [first, after]
    intro d p hd hp child behind
    by_cases here : p = i
    · subst here
      exact ranks.trans (leads d hd child) after
    · exact sinking.others d p hd hp child behind here

theorem sink_perm (a : Array α) (i : Nat) : (sink precedes a i).Perm a := by
  fun_induction sink precedes a i with
  | case1 => exact .refl _
  | case2 a i c hic hc first hi before ih =>
    simp only [first, before, if_true]
    exact ih.trans (Array.swap_perm hi hc)
  | case3 a i c hic hc first hi after =>
    simp only [first, after]
    exact .refl _

theorem foldr_sink (ranks : Ranks precedes) {n : Nat} {a : Array α}
    (ordered : OrderedFrom precedes n a) :
    OrderedFrom precedes 0 ((List.range n).foldr (fun i b => sink precedes b i) a) ∧
      ((List.range n).foldr (fun i b => sink precedes b i) a).Perm a := by
  induction n generalizing a with
  | zero => exact ⟨ordered, .refl _⟩
  | succ n ih =>
    rw [List.range_succ, List.foldr_append]
    have sunk : OrderedFrom precedes n (sink precedes a n) := by
      apply orderedFrom_sink ranks
      constructor
      · intro c p hc hp child behind notHere
        exact ordered c p hc hp child (by omega)
      · intro c p _ _ _ above behind
        have := above.lt
        omega
    obtain ⟨all, kept⟩ := ih sunk
    exact ⟨all, kept.trans (sink_perm a n)⟩

theorem ordered_arrange (ranks : Ranks precedes) (a : Array α) :
    Ordered precedes (arrange precedes a) ∧ (arrange precedes a).Perm a := by
  have leaves : OrderedFrom precedes (a.size / 2) a := by
    intro c p hc _ child behind
    unfold IsChild at child
    omega
  obtain ⟨all, kept⟩ := foldr_sink ranks leaves
  exact ⟨fun c p hc hp child => all c p hc hp child p.zero_le, kept⟩

/-- Lifting an element does not touch what stands behind it. -/
theorem lift_append {a : Array α} {i : Nat} (hi : i < a.size) (behind : Array α) :
    lift precedes (a ++ behind) i = lift precedes a i ++ behind := by
  have whole : a.size ≤ (a ++ behind).size := by simp
  fun_induction lift precedes a i with
  | case1 a i bounds hi' hp before ih =>
    have swapped : (a ++ behind).swap i ((i - 1) / 2) (by omega) (by omega) =
        a.swap i ((i - 1) / 2) ++ behind := by
      ext j _ _
      · simp
      · simp only [Array.getElem_swap, Array.getElem_append]
        grind
    rw [lift, dif_pos ⟨bounds.1, by omega⟩]
    simp only [Array.getElem_append_left hi', Array.getElem_append_left hp, before, if_true, swapped]
    exact ih (by simpa using hp) (by simp)
  | case2 a i bounds hi' hp after =>
    rw [lift, dif_pos ⟨bounds.1, by omega⟩]
    simp only [Array.getElem_append_left hi', Array.getElem_append_left hp, after]
    rfl
  | case3 a i outside =>
    rw [lift, dif_neg (by omega)]

/-- Lifting the elements that stand behind a heap, one after the other, adds them. -/
theorem foldl_lift (h : Heap precedes) (xs : List α) :
    (List.range' h.items.size xs.length).foldl (fun b i => lift precedes b i) (h.items ++ xs) =
      (xs.foldl add h).items := by
  induction xs generalizing h with
  | nil => exact Array.appendList_nil
  | cons x xs ih =>
    have added : lift precedes (h.items ++ (x :: xs)) h.items.size = (h.add x).items ++ xs := by
      have split : h.items ++ (x :: xs) = h.items.push x ++ xs.toArray := Array.ext' (by simp)
      rw [split, lift_append (by simp)]
      exact Array.ext' (by simp [add])
    rw [List.length_cons, List.range'_succ, List.foldl_cons, List.foldl_cons, added, ← ih,
      size_add]

theorem foldl_add (ranks : Ranks precedes) {h : Heap precedes} (ordered : Ordered precedes h.items)
    (xs : List α) : Ordered precedes (xs.foldl add h).items ∧
      (xs.foldl add h).items.toList.Perm (h.items.toList ++ xs) := by
  induction xs generalizing h with
  | nil =>
    rw [List.append_nil]
    exact ⟨ordered, .refl _⟩
  | cons x xs ih =>
    obtain ⟨all, kept⟩ := ih (ordered_add ranks ordered x)
    refine ⟨all, kept.trans ?_⟩
    exact ((add_perm h x).append_right xs).trans List.perm_middle.symm

/-- Adding many elements keeps the order, and the elements. -/
theorem addAll_spec (ranks : Ranks precedes) {h : Heap precedes}
    (ordered : Ordered precedes h.items) (xs : List α) : Ordered precedes (h.addAll xs).items ∧
      (h.addAll xs).items.toList.Perm (h.items.toList ++ xs) := by
  rw [addAll]
  split
  · obtain ⟨all, kept⟩ := ordered_arrange ranks (h.items ++ xs)
    refine ⟨all, kept.toList.trans ?_⟩
    rw [Array.toList_appendList]
  · simp only [foldl_lift]
    exact foldl_add ranks ordered xs

end Geospatial.Heap
