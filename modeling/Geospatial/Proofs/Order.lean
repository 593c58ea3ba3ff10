import Mathlib.Data.List.Induction
import Geospatial.Order

/-! Sorting keeps the elements, whatever the comparison, and puts them in ascending order
when the comparison is transitive. It is stable: elements that a comparison does not tell apart stay
in their order, and a list has one stable arrangement in ascending order. -/
namespace Geospatial.Order

section Sorted

theorem insertDescending_perm (compare : α → α → Ordering) (x : α) (xs : List α) :
    (insertDescending compare x xs).Perm (x :: xs) := by
  induction xs with
  | nil => rfl
  | cons y ys ih =>
    rw [insertDescending]
    split
    · exact (ih.cons y).trans (List.Perm.swap x y ys)
    · rfl

theorem foldl_insertDescending_perm (compare : α → α → Ordering) (xs sorted : List α) :
    (xs.foldl (fun sorted x => insertDescending compare x sorted) sorted).Perm (xs ++ sorted) := by
  induction xs generalizing sorted with
  | nil => rfl
  | cons x xs ih =>
    exact (ih _).trans (((insertDescending_perm compare x sorted).append_left xs).trans
      List.perm_middle)

theorem sort_perm (compare : α → α → Ordering) (xs : List α) : (sort compare xs).Perm xs := by
  have kept := foldl_insertDescending_perm compare xs []
  rw [List.append_nil] at kept
  exact (List.reverse_perm _).trans kept

/-- On the elements with a property, the comparison is a total preorder. -/
abbrev TransOn {α : Type u} (compare : α → α → Ordering) (S : α → Prop) : Prop :=
  Std.TransCmp fun a b : {x // S x} => compare a.1 b.1

namespace TransOn

variable {α : Type u} {compare : α → α → Ordering} {S : α → Prop}

theorem swap (ordered : TransOn compare S) {a b : α} (ha : S a) (hb : S b) :
    compare a b = (compare b a).swap :=
  ordered.eq_swap (a := ⟨a, ha⟩) (b := ⟨b, hb⟩)

theorem isLE_trans (ordered : TransOn compare S) {a b c : α} (ha : S a) (hb : S b) (hc : S c)
    (ab : (compare a b).isLE) (bc : (compare b c).isLE) : (compare a c).isLE :=
  @Std.TransCmp.isLE_trans _ _ ordered ⟨a, ha⟩ ⟨b, hb⟩ ⟨c, hc⟩ ab bc

theorem of_ne_lt (ordered : TransOn compare S) {a b : α} (ha : S a) (hb : S b)
    (notLess : compare a b ≠ .lt) : (compare b a).isLE := by
  rw [ordered.swap hb ha]
  cases h : compare a b <;> simp_all

theorem lt_of_lt_of_isLE (ordered : TransOn compare S) {a b c : α} (ha : S a) (hb : S b)
    (hc : S c) (ab : compare a b = .lt) (bc : (compare b c).isLE) : compare a c = .lt := by
  refine Decidable.byContradiction fun notLess => ?_
  have ba := ordered.isLE_trans hb hc ha bc (ordered.of_ne_lt ha hc notLess)
  rw [ordered.swap hb ha, ab] at ba
  contradiction

theorem lt_of_isLE_of_lt (ordered : TransOn compare S) {a b c : α} (ha : S a) (hb : S b)
    (hc : S c) (ab : (compare a b).isLE) (bc : compare b c = .lt) : compare a c = .lt := by
  refine Decidable.byContradiction fun notLess => ?_
  have cb := ordered.isLE_trans hc ha hb (ordered.of_ne_lt ha hc notLess) ab
  rw [ordered.swap hc hb, bc] at cb
  contradiction

theorem refl (ordered : TransOn compare S) {a : α} (ha : S a) : (compare a a).isLE := by
  have same := ordered.swap ha ha
  cases h : compare a a <;> simp_all

/-- A total preorder is one on any elements. -/
theorem of_transCmp [cmp : Std.TransCmp compare] (S : α → Prop) : TransOn compare S where
  eq_swap := cmp.eq_swap
  isLE_trans := cmp.isLE_trans

/-- Elements may be compared by a key that is in order. -/
theorem on {β : Type v} {T : β → Prop} (ordered : TransOn compare S) (key : β → α)
    (maps : ∀ b, T b → S (key b)) : TransOn (Order.on key compare) T where
  eq_swap {a b} := ordered.swap (maps _ a.2) (maps _ b.2)
  isLE_trans {a b c} := ordered.isLE_trans (maps _ a.2) (maps _ b.2) (maps _ c.2)

theorem congr {second : α → α → Ordering} (ordered : TransOn second S)
    (same : ∀ a b, S a → S b → compare a b = second a b) : TransOn compare S where
  eq_swap {a b} := by rw [same _ _ a.2 b.2, same _ _ b.2 a.2, ordered.swap a.2 b.2]
  isLE_trans {a b c} := by
    rw [same _ _ a.2 b.2, same _ _ b.2 c.2, same _ _ a.2 c.2]
    exact ordered.isLE_trans a.2 b.2 c.2

/-- A second comparison decides where the first one does not. -/
theorem lex {second : α → α → Ordering} (ordered : TransOn compare S) (next : TransOn second S) :
    TransOn (fun a b => (compare a b).then (second a b)) S where
  eq_swap {a b} := by
    change (compare a.1 b.1).then (second a.1 b.1) = ((compare b.1 a.1).then (second b.1 a.1)).swap
    rw [Ordering.swap_then, ← ordered.swap a.2 b.2, ← next.swap a.2 b.2]
  isLE_trans {a b c} ab bc := by
    obtain ⟨ab₁, ab₂⟩ := Ordering.isLE_then_iff_and.mp ab
    obtain ⟨bc₁, bc₂⟩ := Ordering.isLE_then_iff_and.mp bc
    apply Ordering.isLE_then_iff_and.mpr
    refine ⟨ordered.isLE_trans a.2 b.2 c.2 ab₁ bc₁, ?_⟩
    rcases ab₂ with less | ab₂
    · exact Or.inl (ordered.lt_of_lt_of_isLE a.2 b.2 c.2 less bc₁)
    · rcases bc₂ with less | bc₂
      · exact Or.inl (ordered.lt_of_isLE_of_lt a.2 b.2 c.2 ab₁ less)
      · exact Or.inr (next.isLE_trans a.2 b.2 c.2 ab₂ bc₂)

end TransOn

/-- No element is greater than one that stands before it. -/
def Descending (compare : α → α → Ordering) (xs : List α) : Prop :=
  xs.Pairwise fun x y => (compare y x).isLE

section

variable {α : Type u} {compare : α → α → Ordering} {S : α → Prop}

theorem insertDescending_descending (ordered : TransOn compare S) {x : α} (hx : S x) {xs : List α}
    (hxs : ∀ y ∈ xs, S y) (sorted : Descending compare xs) :
    Descending compare (insertDescending compare x xs) := by
  induction xs with
  | nil => simp [insertDescending, Descending]
  | cons y ys ih =>
    obtain ⟨hy, hys⟩ := List.forall_mem_cons.mp hxs
    obtain ⟨below, rest⟩ := List.pairwise_cons.mp sorted
    rw [insertDescending]
    split
    · rename_i less
      apply List.pairwise_cons.mpr
      refine ⟨?_, ih hys rest⟩
      intro z hz
      rcases List.mem_cons.mp ((insertDescending_perm compare x ys).mem_iff.mp hz) with rfl | hz
      · exact Ordering.isLE_of_eq_lt (by simpa using less)
      · exact below z hz
    · rename_i notLess
      have atMost : (compare y x).isLE := ordered.of_ne_lt hx hy (by simpa using notLess)
      apply List.pairwise_cons.mpr
      refine ⟨?_, sorted⟩
      intro z hz
      rcases List.mem_cons.mp hz with rfl | hz
      · exact atMost
      · exact ordered.isLE_trans (hys z hz) hy hx (below z hz) atMost

/-- The sorted list is ascending. -/
theorem TransOn.sort_pairwise (ordered : TransOn compare S) {xs : List α} (hxs : ∀ x ∈ xs, S x) :
    (sort compare xs).Pairwise fun x y => (compare x y).isLE := by
  have descending (sorted : List α) (all : ∀ x ∈ sorted, S x) (h : Descending compare sorted) :
      Descending compare (xs.foldl (fun sorted x => insertDescending compare x sorted) sorted) := by
    induction xs generalizing sorted with
    | nil => exact h
    | cons x xs ih =>
      obtain ⟨hx, hxs⟩ := List.forall_mem_cons.mp hxs
      refine ih hxs _ ?_ (insertDescending_descending ordered hx all h)
      intro y hy
      rcases List.mem_cons.mp ((insertDescending_perm compare x sorted).mem_iff.mp hy) with rfl | hy
      · exact hx
      · exact all y hy
  exact List.pairwise_reverse.mpr (descending [] nofun List.Pairwise.nil)

theorem sort_pairwise (compare : α → α → Ordering) [Std.TransCmp compare] (xs : List α) :
    (sort compare xs).Pairwise fun x y => (compare x y).isLE :=
  (TransOn.of_transCmp fun _ => True).sort_pairwise fun _ _ => trivial

theorem least?_eq_none {xs : List α} : least? compare xs = none ↔ xs = [] := by
  cases xs <;> simp [least?]

theorem least?_concat (compare : α → α → Ordering) (xs : List α) (y : α) :
    least? compare (xs ++ [y]) = some (match least? compare xs with
      | none => y
      | some m => if compare m y == .gt then y else m) := by
  cases xs with
  | nil => rfl
  | cons x xs =>
    simp only [least?, List.cons_append, List.foldl_append, List.foldl_cons, List.foldl_nil]

/-- Whatever the comparison, an element of the list is chosen. -/
theorem mem_of_least? {xs : List α} {m : α} (found : least? compare xs = some m) : m ∈ xs := by
  induction xs using List.reverseRecOn generalizing m with
  | nil => contradiction
  | append_singleton xs y ih =>
    rw [least?_concat] at found
    cases chosen : least? compare xs with
    | none =>
      rw [chosen] at found
      exact List.mem_append_right xs (List.mem_singleton.mpr (Option.some.inj found).symm)
    | some b =>
      simp only [chosen, Option.some.injEq] at found
      split at found
      · exact List.mem_append_right xs (List.mem_singleton.mpr found.symm)
      · exact List.mem_append_left [y] (found ▸ ih chosen)

/-- What is chosen among images is the image of what is chosen where the comparisons agree. -/
theorem least?_map {β : Type v} {f : β → α} {compare' : β → β → Ordering} {xs : List β}
    (same : ∀ x ∈ xs, ∀ y ∈ xs, compare (f x) (f y) = compare' x y) :
    least? compare (xs.map f) = (least? compare' xs).map f := by
  induction xs using List.reverseRecOn with
  | nil => rfl
  | append_singleton xs y ih =>
    have earlier := ih fun x hx z hz =>
      same x (List.mem_append_left [y] hx) z (List.mem_append_left [y] hz)
    rw [List.map_append, List.map_singleton, least?_concat, least?_concat, earlier]
    cases chosen : least? compare' xs with
    | none => rfl
    | some m =>
      have agree := same m (List.mem_append_left [y] (mem_of_least? chosen)) y (by simp)
      simp only [Option.map_some, agree, Option.some.injEq]
      exact (apply_ite f ..).symm

/-- What is chosen is less than every element before it and at most every one behind it. -/
theorem TransOn.least?_first (ordered : TransOn compare S) {xs : List α} (hxs : ∀ x ∈ xs, S x)
    {m : α} (found : least? compare xs = some m) : ∃ before after, xs = before ++ m :: after ∧
      (∀ y ∈ before, compare m y = .lt) ∧ ∀ y ∈ after, (compare m y).isLE := by
  induction xs using List.reverseRecOn generalizing m with
  | nil => contradiction
  | append_singleton xs y ih =>
    obtain ⟨hxs, hy⟩ := List.forall_mem_append.mp hxs
    have hy := hy y (List.mem_singleton_self y)
    rw [least?_concat] at found
    cases chosen : least? compare xs with
    | none =>
      rw [chosen] at found
      obtain rfl := Option.some.inj found
      rw [least?_eq_none.mp chosen]
      exact ⟨[], [], rfl, nofun, nofun⟩
    | some b =>
      obtain ⟨before, after, rfl, less, atMost⟩ := ih hxs chosen
      have hb : S b := hxs b (by simp)
      simp only [chosen, Option.some.injEq] at found
      by_cases greater : compare b y = .gt
      · obtain rfl : y = m := by simpa [greater] using found
        have below : compare y b = .lt := by rw [ordered.swap hy hb, greater]; rfl
        refine ⟨before ++ b :: after, [], rfl, fun z hz => ?_, nofun⟩
        refine ordered.lt_of_lt_of_isLE hy hb (hxs z hz) below ?_
        rcases List.mem_append.mp hz with early | late
        · exact Ordering.isLE_of_eq_lt (less z early)
        · rcases List.mem_cons.mp late with rfl | late
          · exact ordered.refl hb
          · exact atMost z late
      · obtain rfl : b = m := by simpa [greater] using found
        refine ⟨before, after ++ [y], by simp, less, fun z hz => ?_⟩
        rcases List.mem_append.mp hz with here | last
        · exact atMost z here
        · rw [List.mem_singleton.mp last]
          exact Ordering.isLE_iff_ne_gt.mpr greater

/-- Elements that are not greater than what is chosen, the chosen one apart, stand behind it. -/
theorem TransOn.least?_ahead (ordered : TransOn compare S) {xs : List α} (hxs : ∀ x ∈ xs, S x)
    {R : α → α → Prop} (sequence : xs.Pairwise R) {m : α} (found : least? compare xs = some m) :
    ∀ y ∈ xs, compare m y = .lt ∨ (compare m y).isLE ∧ (y = m ∨ R m y) := by
  obtain ⟨before, after, rfl, less, atMost⟩ := ordered.least?_first hxs found
  obtain ⟨behind, _⟩ := List.pairwise_cons.mp (List.pairwise_append.mp sequence).2.1
  intro y hy
  rcases List.mem_append.mp hy with early | late
  · exact .inl (less y early)
  · rcases List.mem_cons.mp late with rfl | late
    · exact .inr ⟨ordered.refl (hxs y hy), .inl rfl⟩
    · exact .inr ⟨atMost y late, .inr (behind y late)⟩

/-- What is chosen is in the list and at most every element. -/
theorem TransOn.least?_isLE (ordered : TransOn compare S) {xs : List α} (hxs : ∀ x ∈ xs, S x)
    {m : α} (found : least? compare xs = some m) : m ∈ xs ∧ ∀ y ∈ xs, (compare m y).isLE := by
  constructor
  · obtain ⟨before, after, rfl, _⟩ := ordered.least?_first hxs found
    exact List.mem_append_right before List.mem_cons_self
  · intro y hy
    have anywhere : xs.Pairwise fun _ _ => True := List.pairwise_of_forall fun _ _ => trivial
    rcases ordered.least?_ahead hxs anywhere found y hy with less | ⟨atMost, _⟩
    · exact Ordering.isLE_of_eq_lt less
    · exact atMost

theorem greatest?_eq_none {xs : List α} : greatest? compare xs = none ↔ xs = [] := by
  cases xs <;> simp [greatest?]

theorem greatest?_concat (compare : α → α → Ordering) (xs : List α) (y : α) :
    greatest? compare (xs ++ [y]) = some (match greatest? compare xs with
      | none => y
      | some m => if compare m y == .gt then m else y) := by
  cases xs with
  | nil => rfl
  | cons x xs =>
    simp only [greatest?, List.cons_append, List.foldl_append, List.foldl_cons, List.foldl_nil]

theorem mem_of_greatest? {xs : List α} {m : α} (found : greatest? compare xs = some m) :
    m ∈ xs := by
  induction xs using List.reverseRecOn generalizing m with
  | nil => contradiction
  | append_singleton xs y ih =>
    rw [greatest?_concat] at found
    cases chosen : greatest? compare xs with
    | none =>
      rw [chosen] at found
      exact List.mem_append_right xs (List.mem_singleton.mpr (Option.some.inj found).symm)
    | some b =>
      simp only [chosen, Option.some.injEq] at found
      split at found
      · exact List.mem_append_left [y] (found ▸ ih chosen)
      · exact List.mem_append_right xs (List.mem_singleton.mpr found.symm)

/-- What is chosen is in the list and at least every element. -/
theorem TransOn.greatest?_isLE (ordered : TransOn compare S) {xs : List α} (hxs : ∀ x ∈ xs, S x)
    {m : α} (found : greatest? compare xs = some m) :
    m ∈ xs ∧ ∀ y ∈ xs, (compare y m).isLE := by
  induction xs using List.reverseRecOn generalizing m with
  | nil => contradiction
  | append_singleton xs y ih =>
    obtain ⟨hxs, hy⟩ := List.forall_mem_append.mp hxs
    have hy := hy y (List.mem_singleton_self y)
    rw [greatest?_concat] at found
    cases chosen : greatest? compare xs with
    | none =>
      rw [chosen] at found
      obtain rfl := Option.some.inj found
      rw [greatest?_eq_none.mp chosen, List.nil_append, List.forall_mem_singleton]
      exact ⟨List.mem_singleton_self _, ordered.refl hy⟩
    | some b =>
      obtain ⟨member, atLeast⟩ := ih hxs chosen
      have hb : S b := hxs b member
      simp only [chosen, Option.some.injEq] at found
      rw [List.forall_mem_append, List.forall_mem_singleton]
      by_cases greater : compare b y = .gt
      · obtain rfl : b = m := by simpa [greater] using found
        refine ⟨List.mem_append_left _ member, atLeast, ?_⟩
        rw [ordered.swap hy hb, greater]
        rfl
      · obtain rfl : y = m := by simpa [greater] using found
        have above : (compare b y).isLE := Ordering.isLE_iff_ne_gt.mpr greater
        exact ⟨by simp, fun z hz => ordered.isLE_trans (hxs z hz) hb hy (atLeast z hz) above,
          ordered.refl hy⟩

end

theorem couples_ne_nil {α : Type u} {xs : List α} (more : 1 < xs.length) : couples xs ≠ [] := by
  match xs with
  | [] => contradiction
  | [x] => contradiction
  | x :: y :: zs => exact List.cons_ne_nil _ _

theorem map_couples {α : Type u} {β : Type v} (f : α → β) (xs : List α) :
    (couples xs).map (Prod.map f f) = couples (xs.map f) := by
  induction xs with
  | nil => rfl
  | cons x xs ih =>
    simp [couples, ih, Function.comp_def]

theorem of_mem_couples {α : Type u} {R : α → α → Prop} {xs : List α} (ordered : xs.Pairwise R)
    {x y : α} (pair : (x, y) ∈ couples xs) : x ∈ xs ∧ y ∈ xs ∧ R x y := by
  induction xs with
  | nil => exact absurd pair List.not_mem_nil
  | cons z zs ih =>
    obtain ⟨first, ordered⟩ := List.pairwise_cons.mp ordered
    rcases List.mem_append.mp pair with here | later
    · obtain ⟨w, hw, same⟩ := List.mem_map.mp here
      obtain ⟨rfl, rfl⟩ := Prod.mk.inj same
      exact ⟨List.mem_cons_self, List.mem_cons_of_mem _ hw, first w hw⟩
    · obtain ⟨hx, hy, related⟩ := ih ordered later
      exact ⟨List.mem_cons_of_mem _ hx, List.mem_cons_of_mem _ hy, related⟩

/-- Two elements are a couple, one way or the other. -/
theorem mem_couples {α : Type u} {xs : List α} {x y : α} (hx : x ∈ xs) (hy : y ∈ xs)
    (apart : x ≠ y) : (x, y) ∈ couples xs ∨ (y, x) ∈ couples xs := by
  induction xs with
  | nil => exact absurd hx List.not_mem_nil
  | cons z zs ih =>
    simp only [couples, List.mem_append]
    rcases List.mem_cons.mp hx with rfl | hx'
    · have hy := (List.mem_cons.mp hy).resolve_left (Ne.symm apart)
      exact .inl (.inl (List.mem_map.mpr ⟨y, hy, rfl⟩))
    · rcases List.mem_cons.mp hy with rfl | hy'
      · exact .inr (.inl (List.mem_map.mpr ⟨x, hx', rfl⟩))
      · exact (ih hx' hy').imp .inr .inr

/-- Removing by swap drops one element and keeps all others. -/
theorem swapRemove_perm (before after : List α) (x : α) :
    (swapRemove before.length (before ++ x :: after)).Perm (before ++ after) := by
  rcases List.eq_nil_or_concat after with rfl | ⟨after, last, rfl⟩
  · simp [swapRemove]
  · rw [List.concat_eq_append]
    have last? : (before ++ x :: (after ++ [last])).getLast? = some last := by
      simp [List.getLast?_append, List.getLast?_cons]
    have moved : (before ++ x :: (after ++ [last])).set before.length last =
        (before ++ last :: after) ++ [last] := by
      simp
    rw [swapRemove, last?]
    simp only [moved, List.dropLast_concat]
    calc
      (before ++ last :: after).Perm (last :: (before ++ after)) := List.perm_middle
      List.Perm _ ((before ++ after) ++ [last]) := (List.perm_append_singleton last _).symm
      _ = before ++ (after ++ [last]) := List.append_assoc before after [last]

theorem cons_swapRemove_perm {xs : List α} {i : Nat} {x : α} (here : xs[i]? = some x) :
    (x :: swapRemove i xs).Perm xs := by
  obtain ⟨inside, rfl⟩ := List.getElem?_eq_some_iff.mp here
  have split : xs = xs.take i ++ xs[i] :: xs.drop (i + 1) := by
    rw [List.getElem_cons_drop, List.take_append_drop]
  have kept := swapRemove_perm (xs.take i) (xs.drop (i + 1)) xs[i]
  rw [← split, List.length_take_of_le (Nat.le_of_lt inside)] at kept
  calc
    (xs[i] :: swapRemove i xs).Perm (xs[i] :: (xs.take i ++ xs.drop (i + 1))) := kept.cons xs[i]
    List.Perm _ (xs.take i ++ xs[i] :: xs.drop (i + 1)) := List.perm_middle.symm
    _ = xs := split.symm

end Sorted

section Stable

variable {α : Type u} {compare : α → α → Ordering}

/-- A list in ascending order, with the elements of one rank in the order they had. -/
structure StablySorted (compare : α → α → Ordering) (xs ys : List α) : Prop where
  perm : ys.Perm xs
  ascending : ys.Pairwise fun x y => (compare x y).isLE
  stable (x : α) : (ys.filter fun y => compare x y == .eq) = xs.filter fun y => compare x y == .eq

variable [Std.TransCmp compare]

/-- What an element is put behind is of another rank, so that it is the first one of its own. -/
theorem filter_insertDescending (w x : α) (xs : List α) :
    ((insertDescending compare x xs).filter fun y => compare w y == .eq) =
      (x :: xs).filter fun y => compare w y == .eq := by
  induction xs with
  | nil => rfl
  | cons y ys ih =>
    rw [insertDescending]
    split
    · rename_i less
      rw [List.filter_cons, ih]
      by_cases level : compare w x = .eq
      · have apart : compare w y = .lt := Std.TransCmp.lt_of_eq_of_lt level (by simpa using less)
        simp [level, apart]
      · simp [List.filter_cons, level]
    · rfl

theorem filter_foldl_insertDescending (w : α) (xs sorted : List α) :
    ((xs.foldl (fun sorted x => insertDescending compare x sorted) sorted).filter
        fun y => compare w y == .eq) =
      (xs.reverse ++ sorted).filter fun y => compare w y == .eq := by
  induction xs generalizing sorted with
  | nil => rfl
  | cons x xs ih =>
    rw [List.foldl_cons, ih, List.filter_append, filter_insertDescending, ← List.filter_append,
      List.reverse_cons, List.append_assoc, List.singleton_append]

theorem stablySorted_sort (xs : List α) : StablySorted compare xs (sort compare xs) where
  perm := sort_perm compare xs
  ascending := sort_pairwise compare xs
  stable w := by
    rw [sort, List.filter_reverse, filter_foldl_insertDescending, List.append_nil,
      List.filter_reverse, List.reverse_reverse]

/-- The least element of either list is of the same rank, and the first of its rank in both. -/
theorem eq_of_stable {ys zs : List α} (perm : ys.Perm zs)
    (hy : ys.Pairwise fun x y => (compare x y).isLE)
    (hz : zs.Pairwise fun x y => (compare x y).isLE)
    (same : ∀ x, (ys.filter fun y => compare x y == .eq) = zs.filter fun y => compare x y == .eq) :
    ys = zs := by
  induction ys generalizing zs with
  | nil => exact perm.nil_eq
  | cons y ys ih =>
    cases zs with
    | nil => exact absurd perm.symm.nil_eq nofun
    | cons z zs =>
      obtain ⟨leastY, restY⟩ := List.pairwise_cons.mp hy
      obtain ⟨leastZ, restZ⟩ := List.pairwise_cons.mp hz
      have below : (compare y z).isLE := by
        rcases List.mem_cons.mp (perm.mem_iff.mpr List.mem_cons_self) with rfl | there
        · exact Std.ReflCmp.isLE_rfl
        · exact leastY z there
      have above : (compare z y).isLE := by
        rcases List.mem_cons.mp (perm.mem_iff.mp List.mem_cons_self) with rfl | there
        · exact Std.ReflCmp.isLE_rfl
        · exact leastZ y there
      have level : compare y z = .eq := Std.OrientedCmp.isLE_antisymm below above
      obtain rfl : y = z := by
        have first := same y
        rw [List.filter_cons_of_pos (by simp [Std.ReflCmp.compare_self]),
          List.filter_cons_of_pos (by simp [level])] at first
        exact (List.cons.inj first).1
      rw [ih perm.cons_inv restY restZ fun x => ?_]
      have classes := same x
      rw [List.filter_cons, List.filter_cons] at classes
      split at classes
      · exact (List.cons.inj classes).2
      · exact classes

/-- The stable arrangement of a list is what sorting gives. -/
theorem stablySorted_iff {xs ys : List α} : StablySorted compare xs ys ↔ ys = sort compare xs := by
  constructor
  · intro sorted
    have sorted' : StablySorted compare xs (sort compare xs) := stablySorted_sort xs
    exact eq_of_stable (sorted.perm.trans sorted'.perm.symm) sorted.ascending sorted'.ascending
      fun x => (sorted.stable x).trans (sorted'.stable x).symm
  · rintro rfl
    exact stablySorted_sort xs

end Stable

end Geospatial.Order
