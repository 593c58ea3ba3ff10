import Mathlib.Data.List.Perm.Basic
import Geospatial.Heap

/-! What leaves a heap first. Adding and taking out keep the elements, and no element precedes
the one that leaves. The order need not tell all elements apart: it is enough that of two
elements at most one precedes the other, and that a third one stands behind the first or before
the second. -/
namespace Geospatial.Heap

variable {α : Type} {precedes : α → α → Bool}

/-- A strict order in which elements may be level. -/
structure Ranks (precedes : α → α → Bool) : Prop where
  asymm {x y : α} : precedes x y → ¬precedes y x
  cotrans {x y z : α} : precedes x z → precedes x y ∨ precedes y z

namespace Ranks

theorem irrefl (ranks : Ranks precedes) (x : α) : ¬precedes x x :=
  fun h => ranks.asymm h h

theorem trans (ranks : Ranks precedes) {x y z : α} (xy : ¬precedes x y) (yz : ¬precedes y z) :
    ¬precedes x z :=
  fun h => (ranks.cotrans h).elim xy yz

end Ranks

def IsChild (c p : Nat) : Prop := c = 2 * p + 1 ∨ c = 2 * p + 2

theorem IsChild.lt {c p : Nat} (child : IsChild c p) : p < c := by
  rcases child with rfl | rfl <;> omega

theorem IsChild.unique {c p q : Nat} (child : IsChild c p) (other : IsChild c q) : p = q := by
  unfold IsChild at child other
  omega

/-- No element precedes its parent. -/
def Ordered (precedes : α → α → Bool) (a : Array α) : Prop :=
  ∀ c p (hc : c < a.size) (hp : p < a.size), IsChild c p → ¬precedes a[c] a[p]

/-- The element at `i` may be out of order with its neighbors, which are in order with each
other. -/
structure Hollow (precedes : α → α → Bool) (a : Array α) (i : Nat) : Prop where
  others : ∀ c p (hc : c < a.size) (hp : p < a.size), IsChild c p → c ≠ i → p ≠ i →
    ¬precedes a[c] a[p]
  across : ∀ c p (hc : c < a.size) (hp : p < a.size), IsChild c i → IsChild i p →
    ¬precedes a[c] a[p]

/-- The children of the element at `i` do not precede it. -/
def Heads (precedes : α → α → Bool) (a : Array α) (i : Nat) : Prop :=
  ∀ c (hc : c < a.size) (hi : i < a.size), IsChild c i → ¬precedes a[c] a[i]

/-- An element that leads its children and does not precede its parent is in order. -/
theorem Hollow.ordered {a : Array α} {i : Nat} (hollow : Hollow precedes a i)
    (heads : Heads precedes a i)
    (follows : ∀ p (hi : i < a.size) (hp : p < a.size), IsChild i p → ¬precedes a[i] a[p]) :
    Ordered precedes a := by
  intro c p hc hp child
  by_cases isChild : c = i
  · subst isChild
    exact follows p hc hp child
  · by_cases isParent : p = i
    · subst isParent
      exact heads c hc hp child
    · exact hollow.others c p hc hp child isChild isParent

/-- An element that precedes its parent changes places with it, and leads its children then. -/
theorem Hollow.lift (ranks : Ranks precedes) {a : Array α} {i p : Nat}
    (hollow : Hollow precedes a i) (heads : Heads precedes a i) (hi : i < a.size)
    (hp : p < a.size) (child : IsChild i p) (before : precedes a[i] a[p]) :
    Hollow precedes (a.swap i p) p ∧ Heads precedes (a.swap i p) p := by
  have descends := child.lt
  have apart : p ≠ i := by omega
  refine ⟨⟨?_, ?_⟩, ?_⟩
  · intro c q hc hq below notParent notHere
    have hc' : c < a.size := by simpa using hc
    have hq' : q < a.size := by simpa using hq
    have other : c ≠ i := by
      rintro rfl
      exact notHere (below.unique child)
    by_cases here : q = i
    · subst here
      simpa [Array.getElem_swap, other, notParent] using hollow.across c p hc' hp below child
    · simpa [Array.getElem_swap, other, notParent, here, notHere] using
        hollow.others c q hc' hq' below other here
  · intro c q hc hq below above
    have hc' : c < a.size := by simpa using hc
    have hq' : q < a.size := by simpa using hq
    have ascends := above.lt
    have upper : ¬precedes a[p] a[q] := hollow.others p q hp hq' above apart (by omega)
    have notParent : c ≠ p := Nat.ne_of_gt below.lt
    have farOff : q ≠ i ∧ q ≠ p := by omega
    by_cases here : c = i
    · subst here
      simpa [Array.getElem_swap, farOff] using upper
    · have lower : ¬precedes a[c] a[p] := hollow.others c p hc' hp below here apart
      simpa [Array.getElem_swap, farOff, here, notParent] using ranks.trans lower upper
  · intro c hc _ below
    have hc' : c < a.size := by simpa using hc
    have notParent : c ≠ p := Nat.ne_of_gt below.lt
    by_cases here : c = i
    · subst here
      simpa [Array.getElem_swap, apart] using ranks.asymm before
    · have sibling : ¬precedes a[c] a[p] := hollow.others c p hc' hp below here apart
      simpa [Array.getElem_swap, apart, here, notParent] using
        ranks.trans sibling (ranks.asymm before)

/-- A hole moves down past the first child, and leads nothing yet. -/
theorem Hollow.sink {a : Array α} {i c : Nat} (hollow : Hollow precedes a i) (hi : i < a.size)
    (hc : c < a.size) (child : IsChild c i)
    (first : ∀ d (hd : d < a.size), IsChild d i → ¬precedes a[d] a[c]) :
    Hollow precedes (a.swap i c) c := by
  have descends := child.lt
  have apart : c ≠ i := by omega
  constructor
  · intro d q hd hq below notChild notHere
    have hd' : d < a.size := by simpa using hd
    have hq' : q < a.size := by simpa using hq
    by_cases here : q = i
    · subst here
      have other : d ≠ q := Nat.ne_of_gt below.lt
      simpa [Array.getElem_swap, other, notChild] using first d hd' below
    · by_cases moved : d = i
      · subst moved
        simpa [Array.getElem_swap, here, notHere] using hollow.across c q hc hq' child below
      · simpa [Array.getElem_swap, here, notHere, moved, notChild] using
          hollow.others d q hd' hq' below moved here
  · intro d q hd hq below above
    have hd' : d < a.size := by simpa using hd
    obtain rfl := above.unique child
    have deeper := below.lt
    have far : d ≠ q ∧ d ≠ c := by omega
    simpa [Array.getElem_swap, far] using hollow.others d c hd' hc below far.1 apart

theorem ordered_lift (ranks : Ranks precedes) {a : Array α} {i : Nat}
    (hollow : Hollow precedes a i) (heads : Heads precedes a i) :
    Ordered precedes (lift precedes a i) := by
  fun_induction lift precedes a i with
  | case1 a i bounds hi hp before ih =>
    have child : IsChild i ((i - 1) / 2) := by
      unfold IsChild
      omega
    obtain ⟨hollow, heads⟩ := hollow.lift ranks heads hi hp child before
    exact ih hollow heads
  | case2 a i bounds hi hp after =>
    apply hollow.ordered heads
    intro p _ _ child
    obtain rfl : p = (i - 1) / 2 := by
      unfold IsChild at child
      omega
    exact after
  | case3 a i outside =>
    apply hollow.ordered heads
    intro p hi _ child
    have := child.lt
    omega

theorem firstChild?_eq_none {a : Array α} {i : Nat} (leaf : firstChild? precedes a i = none)
    {c : Nat} (hc : c < a.size) : ¬IsChild c i := by
  unfold firstChild? at leaf
  unfold IsChild
  split at leaf
  · split at leaf <;> contradiction
  · split at leaf
    · contradiction
    · omega

theorem firstChild?_eq_some (ranks : Ranks precedes) {a : Array α} {i c : Nat}
    (hi : i < c) (hc : c < a.size) (first : firstChild? precedes a i = some ⟨c, hi, hc⟩) :
    IsChild c i ∧ ∀ d (hd : d < a.size), IsChild d i → ¬precedes a[d] a[c] := by
  unfold firstChild? at first
  split at first
  · split at first <;> obtain rfl := congrArg Subtype.val (Option.some.inj first)
    · rename_i before
      refine ⟨Or.inl rfl, ?_⟩
      rintro d hd (rfl | rfl)
      · exact ranks.irrefl _
      · exact ranks.asymm before
    · rename_i after
      refine ⟨Or.inr rfl, ?_⟩
      rintro d hd (rfl | rfl)
      · exact after
      · exact ranks.irrefl _
  · split at first
    · obtain rfl := congrArg Subtype.val (Option.some.inj first)
      refine ⟨Or.inl rfl, ?_⟩
      rintro d hd (rfl | rfl)
      · exact ranks.irrefl _
      · contradiction
    · contradiction

theorem ordered_settle (ranks : Ranks precedes) {a : Array α} {i : Nat}
    (hollow : Hollow precedes a i) : Ordered precedes (settle precedes a i) := by
  fun_induction settle precedes a i with
  | case1 a i leaf =>
    apply ordered_lift ranks hollow
    intro c hc _ child
    exact absurd child (firstChild?_eq_none leaf hc)
  | case2 a i c hic hc first hi ih =>
    obtain ⟨child, leads⟩ := firstChild?_eq_some ranks hic hc first
    simp only [first]
    exact ih (hollow.sink hi hc child leads)

theorem lift_perm (a : Array α) (i : Nat) : (lift precedes a i).Perm a := by
  fun_induction lift precedes a i with
  | case1 a i bounds hi hp before ih => exact ih.trans (Array.swap_perm hi hp)
  | case2 => exact .refl _
  | case3 => exact .refl _

theorem settle_perm (a : Array α) (i : Nat) : (settle precedes a i).Perm a := by
  fun_induction settle precedes a i with
  | case1 a i leaf => exact lift_perm a i
  | case2 a i c hic hc first hi ih =>
    simp only [first]
    exact ih.trans (Array.swap_perm hi hc)

/-- The root stands before all other elements, by induction on the way down. -/
theorem Ordered.root (ranks : Ranks precedes) {a : Array α} (ordered : Ordered precedes a)
    (i : Nat) (hi : i < a.size) : ¬precedes a[i] a[0] := by
  induction i using Nat.strongRecOn with
  | ind i ih =>
    cases i with
    | zero => exact ranks.irrefl _
    | succ j =>
      have child : IsChild (j + 1) (j / 2) := by
        unfold IsChild
        omega
      have above := child.lt
      exact ranks.trans (ordered _ _ hi (by omega) child) (ih _ above (by omega))

theorem ordered_singleton (x : α) : Ordered precedes (singleton x : Heap precedes).items := by
  intro c p hc hp child
  have := child.lt
  have : c < 1 := hc
  omega

theorem add_perm (h : Heap precedes) (x : α) :
    (h.add x).items.toList.Perm (x :: h.items.toList) := by
  have moved : (h.add x).items.toList.Perm (h.items.push x).toList := (lift_perm _ _).toList
  rw [Array.toList_push] at moved
  exact moved.trans (List.perm_append_singleton x _)

theorem size_add (h : Heap precedes) (x : α) : (h.add x).items.size = h.items.size + 1 := by
  simpa using (add_perm h x).length_eq

theorem mem_add {h : Heap precedes} {x y : α} : y ∈ (h.add x).items ↔ y = x ∨ y ∈ h.items := by
  rw [← Array.mem_toList_iff, (add_perm h x).mem_iff, List.mem_cons, Array.mem_toList_iff]

theorem ordered_add (ranks : Ranks precedes) {h : Heap precedes}
    (ordered : Ordered precedes h.items) (x : α) : Ordered precedes (h.add x).items := by
  apply ordered_lift ranks
  · constructor
    · intro c p hc hp child notChild notParent
      rw [Array.size_push] at hc hp
      rw [Array.getElem_push_lt (by omega), Array.getElem_push_lt (by omega)]
      exact ordered c p (by omega) (by omega) child
    · intro c p hc _ child _
      have := child.lt
      rw [Array.size_push] at hc
      omega
  · intro c hc _ child
    have := child.lt
    rw [Array.size_push] at hc
    omega

theorem pop?_eq_none {h : Heap precedes} (nothing : h.pop? = none) : h.items = #[] := by
  unfold pop? at nothing
  split at nothing
  · contradiction
  · exact Array.eq_empty_of_size_eq_zero (by omega)

theorem pop?_perm {h h' : Heap precedes} {x : α} (popped : h.pop? = some (x, h')) :
    h.items.toList.Perm (x :: h'.items.toList) := by
  unfold pop? at popped
  split at popped
  · rename_i nonempty
    cases popped
    let swapped := h.items.swap 0 (h.items.size - 1)
    have split : swapped.toList = swapped.pop.toList ++ [h.items[0]] := by
      apply List.ext_getElem
      · simp [swapped]
        omega
      · intro i hi hi'
        rw [List.getElem_append]
        split
        · simp [swapped]
        · obtain rfl : i = h.items.size - 1 := by
            simp [swapped] at *
            omega
          simp [swapped]
    have exchanged : swapped.toList.Perm h.items.toList := (Array.swap_perm _ _).toList
    have settled : (settle precedes swapped.pop 0).toList.Perm swapped.pop.toList :=
      (settle_perm _ _).toList
    calc
      h.items.toList.Perm swapped.toList := exchanged.symm
      _ = swapped.pop.toList ++ [h.items[0]] := split
      List.Perm _ (h.items[0] :: swapped.pop.toList) := List.perm_append_singleton _ _
      List.Perm _ (h.items[0] :: (settle precedes swapped.pop 0).toList) := settled.symm.cons _
  · contradiction

theorem size_pop? {h h' : Heap precedes} {x : α} (popped : h.pop? = some (x, h')) :
    h.items.size = h'.items.size + 1 := by
  simpa using (pop?_perm popped).length_eq

theorem mem_of_pop? {h h' : Heap precedes} {x y : α} (popped : h.pop? = some (x, h')) :
    y ∈ h.items ↔ y = x ∨ y ∈ h'.items := by
  rw [← Array.mem_toList_iff, (pop?_perm popped).mem_iff, List.mem_cons, Array.mem_toList_iff]

theorem ordered_pop? (ranks : Ranks precedes) {h h' : Heap precedes} {x : α}
    (ordered : Ordered precedes h.items) (popped : h.pop? = some (x, h')) :
    Ordered precedes h'.items := by
  unfold pop? at popped
  split at popped
  · cases popped
    apply ordered_settle ranks
    constructor
    · intro c p hc hp child notChild notParent
      have hc' := hc
      have hp' := hp
      simp only [Array.size_pop, Array.size_swap] at hc' hp'
      simp only [Array.getElem_pop, Array.getElem_swap, notChild, notParent, if_false]
      rw [if_neg (by omega), if_neg (by omega)]
      exact ordered c p (by omega) (by omega) child
    · intro c p _ _ _ child
      have := child.lt
      omega
  · contradiction

theorem first_of_pop? (ranks : Ranks precedes) {h h' : Heap precedes} {x : α}
    (ordered : Ordered precedes h.items) (popped : h.pop? = some (x, h')) {y : α}
    (here : y ∈ h.items) : ¬precedes y x := by
  unfold pop? at popped
  split at popped
  · cases popped
    obtain ⟨i, hi, rfl⟩ := Array.mem_iff_getElem.mp here
    exact ordered.root ranks i hi
  · contradiction

end Geospatial.Heap
