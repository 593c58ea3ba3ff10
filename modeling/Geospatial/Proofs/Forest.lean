import Mathlib.Combinatorics.SimpleGraph.Connectivity.Connected
import Mathlib.Logic.Function.Iterate
import Mathlib.Order.Fin.Basic
import Geospatial.Dissolve
import Geospatial.Proofs.Order

/-! The trees of a forest. Each way up ends at a root; passing over parents changes no root, and
joining two members gives one root to what had theirs. So the members of linked pairs come to have
common roots, and no members but those that chains of links join: the trees are the components of
the graph that has the links for its edges. -/
namespace Geospatial.Forest

variable {n : ℕ} {f g : Forest n} {a b i j k : Fin n}

/-- The last member on the way up from another one. -/
def root (f : Forest n) (i : Fin n) : Fin n := if f.parent i = i then i else f.root (f.parent i)
termination_by i.val
decreasing_by exact lt_of_le_of_ne (f.parent_le i) (Fin.val_ne_of_ne ‹_›)

theorem root_of_parent (top : f.parent i = i) : f.root i = i := by
  rw [root, if_pos top]

@[simp]
theorem root_parent (f : Forest n) (i : Fin n) : f.root (f.parent i) = f.root i := by
  by_cases top : f.parent i = i
  · rw [top]
  · conv_rhs => rw [root, if_neg top]

/-- What holds of a member if it holds of its parent, holds of every member if it holds of the
roots. -/
theorem upward_induction {motive : Fin n → Prop} (f : Forest n)
    (top : ∀ i, f.parent i = i → motive i) (step : ∀ i, motive (f.parent i) → motive i)
    (i : Fin n) : motive i := by
  induction i using WellFoundedLT.induction with
  | ind i ih =>
    by_cases here : f.parent i = i
    · exact top i here
    · exact step i (ih _ (lt_of_le_of_ne (f.parent_le i) here))

theorem parent_root (f : Forest n) (i : Fin n) : f.parent (f.root i) = f.root i := by
  induction i using f.upward_induction with
  | top i here => rw [root_of_parent here, here]
  | step i ih => rwa [root_parent] at ih

/-- Other parents in the same trees make no other roots. -/
theorem root_eq_of_parents (same : ∀ i, f.root (g.parent i) = f.root i)
    (tops : ∀ i, g.parent i = i → f.parent i = i) : g.root = f.root := by
  funext i
  induction i using g.upward_induction with
  | top i here => rw [root_of_parent here, root_of_parent (tops i here)]
  | step i ih => rw [← root_parent, ih, same]

theorem root_halve (f : Forest n) (i : Fin n) : (f.halve i).root = f.root := by
  apply root_eq_of_parents
  · intro j
    rw [halve, parent_setParent]
    split
    · rename_i here
      rw [root_parent, root_parent, here]
    · exact root_parent f j
  · intro j here
    rw [halve, parent_setParent] at here
    split at here
    · rename_i same
      subst same
      -- between a member and itself there is no other parent
      exact le_antisymm (f.parent_le i) (here.ge.trans (f.parent_le _))
    · exact here

/-- The way up is at its end. -/
def AtRoot (s : Forest n × Fin n) : Prop := s.1.parent s.2 = s.2

theorem root_climb (s : Forest n × Fin n) :
    (climb s).1.root = s.1.root ∧ s.1.root (climb s).2 = s.1.root s.2 := by
  refine ⟨root_halve _ _, ?_⟩
  rw [climb_snd, root_parent, root_parent]

theorem root_find (s : Forest n × Fin n) :
    (find s).1.root = s.1.root ∧ (find s).2 = s.1.root s.2 := by
  fun_induction find s with
  | case1 s top => exact ⟨rfl, (root_of_parent top).symm⟩
  | case2 s below ih =>
    obtain ⟨roots, place⟩ := root_climb s
    rw [roots, place] at ih
    exact ih

/-- The way up from a member ends after no more rounds than there are members before it. -/
theorem find_ends (s : Forest n × Fin n) : ∃ rounds ≤ s.2.val,
    (∀ k < rounds, ¬AtRoot (climb^[k] s)) ∧ AtRoot (climb^[rounds] s) ∧
      find s = climb^[rounds] s := by
  fun_induction find s with
  | case1 s top => exact ⟨0, Nat.zero_le _, nofun, top, rfl⟩
  | case2 s below ih =>
    obtain ⟨rounds, few, before, last, ends⟩ := ih
    refine ⟨rounds + 1, few.trans_lt (climb_lt below), fun k early => ?_, last, ends⟩
    cases k with
    | zero => exact below
    | succ k => exact before k (Nat.lt_of_succ_lt_succ early)

/-- A root that is put below another one brings its whole tree along. -/
theorem root_setParent (top : f.parent a = a) (top' : f.parent b = b) (le : b ≤ a) (i : Fin n) :
    (f.setParent a b le).root i = if f.root i = a then b else f.root i := by
  have other {c : Fin n} (differ : a ≠ c) : (f.setParent a b le).parent c = f.parent c := by
    rw [parent_setParent, if_neg differ]
  have lower : (f.setParent a b le).root b = b := by
    apply root_of_parent
    rw [parent_setParent, top', ite_self]
  have upper : (f.setParent a b le).root a = b := by
    rw [← root_parent, parent_setParent, if_pos rfl, lower]
  induction i using f.upward_induction with
  | top i here =>
    rw [root_of_parent here]
    split
    · rename_i same
      rw [same, upper]
    · rename_i differ
      exact root_of_parent ((other (Ne.symm differ)).trans here)
  | step i ih =>
    by_cases same : a = i
    · rw [← same, upper, root_of_parent top, if_pos rfl]
    · rwa [← other same, root_parent, other same, root_parent] at ih

/-- The trees of two members become one, and no other tree changes. -/
theorem root_join (f : Forest n) (i j k : Fin n) : (f.join i j).root k =
    if f.root k = f.root i ∨ f.root k = f.root j then min (f.root i) (f.root j) else f.root k := by
  obtain ⟨roots, first⟩ := root_find (f, i)
  obtain ⟨roots', second⟩ := root_find ((find (f, i)).1, j)
  simp only [roots] at roots' second first
  have top (m : Fin n) : (find ((find (f, i)).1, j)).1.parent (f.root m) = f.root m := by
    rw [← roots', parent_root]
  simp only [join, first, second]
  split
  · rename_i below
    rw [root_setParent (top j) (top i), roots', min_eq_left below.le]
    by_cases same : f.root k = f.root i <;> simp [same]
  · split
    · rename_i above
      rw [root_setParent (top i) (top j), roots', min_eq_right above.le]
      by_cases same : f.root k = f.root j <;> simp [same]
    · rename_i notBelow notAbove
      have same : f.root i = f.root j := le_antisymm (not_lt.mp notAbove) (not_lt.mp notBelow)
      simp only [roots', same, min_self, or_self]
      split
      · assumption
      · rfl

theorem root_join_congr (same : f.root a = f.root b) :
    (f.join i j).root a = (f.join i j).root b := by
  rw [root_join, root_join, same]

theorem root_join_self (f : Forest n) (i j : Fin n) :
    (f.join i j).root i = (f.join i j).root j := by
  rw [root_join, root_join, if_pos (.inl rfl), if_pos (.inr rfl)]

/-- The graph whose edges are the linked pairs. -/
def graph (linked : Fin n → Fin n → Bool) : SimpleGraph (Fin n) :=
  SimpleGraph.fromRel fun i j => linked i j = true

/-- Each tree is in one component of a graph. -/
def Within (G : SimpleGraph (Fin n)) (f : Forest n) : Prop := ∀ i, G.Reachable i (f.root i)

variable {G : SimpleGraph (Fin n)} {linked : Fin n → Fin n → Bool}

theorem within_singletons (G : SimpleGraph (Fin n)) : Within G (singletons n) := by
  intro i
  have top : (singletons n).parent i = i := by simp [parent, singletons]
  rw [root_of_parent top]

theorem Within.join (within : Within G f) (connected : G.Reachable i j) :
    Within G (f.join i j) := by
  intro k
  have across : G.Reachable (f.root i) (f.root j) :=
    (within i).symm.trans (connected.trans (within j))
  rw [root_join]
  split
  · rename_i here
    have toFirst : G.Reachable k (f.root i) := by
      rcases here with same | same
      · exact same ▸ within k
      · exact (same ▸ within k).trans across.symm
    rcases min_choice (f.root i) (f.root j) with least | least
    · rwa [least]
    · rw [least]
      exact toFirst.trans across
  · exact within k

theorem reachable_of_linked (joined : linked i j = true) : (graph linked).Reachable i j := by
  by_cases same : i = j
  · rw [same]
  · exact SimpleGraph.Adj.reachable ((SimpleGraph.fromRel_adj _ i j).mpr ⟨same, .inl joined⟩)

theorem within_foldl_link (pairs : List (Fin n × Fin n)) (within : Within (graph linked) f) :
    Within (graph linked) (pairs.foldl (link linked) f) := by
  induction pairs generalizing f with
  | nil => exact within
  | cons p pairs ih =>
    apply ih
    unfold link
    split
    · rename_i joined
      exact within.join (reachable_of_linked joined)
    · exact within

theorem root_link_congr {p : Fin n × Fin n} (same : f.root i = f.root j) :
    (link linked f p).root i = (link linked f p).root j := by
  unfold link
  split
  · exact root_join_congr same
  · exact same

theorem root_foldl_link_congr (pairs : List (Fin n × Fin n)) (same : f.root i = f.root j) :
    (pairs.foldl (link linked) f).root i = (pairs.foldl (link linked) f).root j := by
  induction pairs generalizing f with
  | nil => exact same
  | cons p pairs ih => exact ih (root_link_congr same)

theorem root_foldl_link_of_mem {pairs : List (Fin n × Fin n)} (mem : (i, j) ∈ pairs)
    (joined : linked i j = true) :
    (pairs.foldl (link linked) f).root i = (pairs.foldl (link linked) f).root j := by
  induction pairs generalizing f with
  | nil => contradiction
  | cons p pairs ih =>
    rcases List.mem_cons.mp mem with rfl | later
    · refine root_foldl_link_congr pairs ?_
      rw [link, if_pos joined]
      exact root_join_self f i j
    · exact ih later

/-- Members have a common root exactly where a chain of links joins them. -/
theorem root_ofLinks (symm : ∀ i j, linked i j = linked j i) :
    (ofLinks linked).root i = (ofLinks linked).root j ↔ (graph linked).Reachable i j := by
  have within : Within (graph linked) (ofLinks linked) :=
    within_foldl_link _ (within_singletons _)
  constructor
  · intro same
    exact (within i).trans (same ▸ (within j).symm)
  · rintro ⟨walk⟩
    induction walk with
    | nil => rfl
    | @cons a b _ adj _ ih =>
      refine Eq.trans ?_ ih
      obtain ⟨apart, joined⟩ := (SimpleGraph.fromRel_adj _ a b).mp adj
      have joined : linked a b = true := joined.elim id fun back => (symm a b).trans back
      rcases Order.mem_couples (List.mem_finRange a) (List.mem_finRange b) apart with here | turned
      · exact root_foldl_link_of_mem here joined
      · exact (root_foldl_link_of_mem turned ((symm b a).trans joined)).symm

theorem roots_eq (f : Forest n) (members : List (Fin n)) : f.roots members = members.map f.root := by
  induction members generalizing f with
  | nil => rfl
  | cons i members ih =>
    obtain ⟨roots, first⟩ := root_find (f, i)
    rw [Forest.roots, List.map_cons]
    simp only [first, ih, roots]

end Geospatial.Forest
