import Geospatial.Proofs.Bounds.Containment
import Geospatial.Proofs.Heap.Arrangement
import Geospatial.Proofs.Index.Run
import Geospatial.Proofs.Scalar.DoubleArithmetic

/-! The nearest entries of an index. No entry below a node is nearer than the node's box, so that
an entry at the head of the heap is nearest of all that are still waiting, below nodes as well. -/
namespace Geospatial.Index

open Scalar (LawfulRounding)

variable {K α : Type} [Scalar K] {p : Position K} {k : Nat}

namespace Node

namespace Candidate

def box : Candidate K α → Bounds K
  | entry e => e.bounds
  | node n => n.bounds

/-- The entries that a candidate stands for. -/
def contents : Candidate K α → Multiset (Entry K α)
  | entry e => {e}
  | node n => n.contents

/-- The visits that a candidate takes, with all below it. -/
def visits : Candidate K α → Nat
  | entry _ => 1
  | node n => n.nodeCount + n.entries.length

end Candidate

/-- A candidate that may wait: ranked by its own box, which is in order below. -/
structure Ready (most fewest : Nat) (p : Position K) (r : Ranked K α) : Prop where
  distance : r.distanceSquared = r.candidate.box.distanceSquared p
  proper : ∀ e ∈ r.candidate.contents, e.bounds.Ordered
  formed : ∀ n, r.candidate = .node n → ∃ h, n.WellFormed most fewest h

/-- The entries that are found are first by the distances of their boxes, `k` of them if there
are that many. -/
structure Selects (p : Position K) (k : Nat) (all : Multiset (Entry K α))
    (found : List (Entry K α × K)) : Prop where
  length : found.length = min k all.card
  distances : ∀ f ∈ found, f.2 = Scalar.sqrt (f.1.bounds.distanceSquared p)
  ascending : found.Pairwise fun f g => f.1.bounds.distanceSquared p ≤ g.1.bounds.distanceSquared p
  rest : ∃ rest : Multiset (Entry K α), (found.map Prod.fst : Multiset (Entry K α)) + rest = all ∧
    ∀ f ∈ found, ∀ e ∈ rest, f.1.bounds.distanceSquared p ≤ e.bounds.distanceSquared p

theorem selects_nil {all : Multiset (Entry K α)} (nothing : k = 0 ∨ all = 0) :
    Selects p k all [] where
  length := by rcases nothing with rfl | rfl <;> simp
  distances := nofun
  ascending := .nil
  rest := ⟨all, by simp, nofun⟩

theorem Selects.cons {all : Multiset (Entry K α)} {found : List (Entry K α × K)}
    (selects : Selects p k all found) {e : Entry K α}
    (first : ∀ f ∈ all, e.bounds.distanceSquared p ≤ f.bounds.distanceSquared p) :
    Selects p (k + 1) (e ::ₘ all) ((e, Scalar.sqrt (e.bounds.distanceSquared p)) :: found) := by
  obtain ⟨length, distances, ascending, rest, total, last⟩ := selects
  have among {f : Entry K α × K} (mem : f ∈ found) : f.1 ∈ all := by
    rw [← total]
    exact Multiset.mem_add.mpr (.inl (List.mem_map_of_mem mem))
  constructor
  · rw [List.length_cons, length, Multiset.card_cons]
    omega
  · intro f mem
    rcases List.mem_cons.mp mem with rfl | mem
    · rfl
    · exact distances f mem
  · exact List.pairwise_cons.mpr ⟨fun f mem => first f.1 (among mem), ascending⟩
  · refine ⟨rest, ?_, ?_⟩
    · rw [List.map_cons, ← Multiset.cons_coe, Multiset.cons_add, total]
    · intro f mem d hd
      rcases List.mem_cons.mp mem with rfl | mem
      · refine first d ?_
        rw [← total]
        exact Multiset.mem_add.mpr (.inr hd)
      · exact last f mem d hd

/-- The entries that some candidates stand for together. -/
def waiting (rs : Multiset (Ranked K α)) : Multiset (Entry K α) :=
  rs.bind fun r => r.candidate.contents

/-- A node stands for the same entries as its children. -/
theorem waiting_ranked (n : Node K α) : waiting ↑(n.ranked p) = n.contents := by
  cases n with
  | leaf b es =>
    rw [waiting, ranked, contents_leaf, ← Multiset.map_coe, Multiset.bind_map]
    exact (Multiset.bind_singleton _ id).trans (Multiset.map_id _)
  | branch b cs =>
    rw [waiting, ranked, contents_branch, ← Multiset.map_coe, Multiset.bind_map]
    rfl

/-- The visits that some candidates take together. -/
def visitsOf (rs : Multiset (Ranked K α)) : Nat := (rs.map fun r => r.candidate.visits).sum

/-- The children of a node take all its visits but the one to itself. -/
theorem visitsOf_ranked (n : Node K α) :
    visitsOf (n.ranked p : Multiset (Ranked K α)) + 1 = (Candidate.node n).visits := by
  cases n with
  | leaf b es =>
    rw [Candidate.visits, nodeCount, entries, visitsOf, ranked, ← Multiset.map_coe, Multiset.map_map]
    simp [Candidate.visits, Nat.add_comm]
  | branch b cs =>
    rw [Candidate.visits, nodeCount, entries, visitsOf, ranked, ← Multiset.map_coe, Multiset.map_map,
      Multiset.map_coe, Multiset.sum_coe]
    induction cs with
    | nil => rfl
    | cons c cs ih =>
      rw [List.map_cons, List.sum_cons, nodeCountAll, entriesOfAll, List.length_append]
      change c.nodeCount + c.entries.length + _ + 1 = _
      omega

omit [Scalar K] in
theorem visits_pos (c : Candidate K α) : 0 < c.visits := by
  cases c with
  | entry e => exact Nat.one_pos
  | node n => cases n <;> rw [Candidate.visits, nodeCount] <;> omega

variable [LawfulRounding K] {most fewest : Nat}

theorem ranks_nearer : Heap.Ranks (nearer : Ranked K α → Ranked K α → Bool) where
  asymm {x y} before := by
    have swap : Scalar.totalOrder y.distanceSquared x.distanceSquared =
        (Scalar.totalOrder x.distanceSquared y.distanceSquared).swap := Std.OrientedCmp.eq_swap
    simp only [nearer, beq_iff_eq] at before ⊢
    rw [swap, before]
    decide
  cotrans {x y z} before := by
    simp only [nearer, beq_iff_eq] at before ⊢
    by_contra neither
    rw [not_or, ← Ordering.isGE_iff_ne_lt, ← Ordering.isGE_iff_ne_lt] at neither
    have after := Std.TransCmp.isGE_trans neither.1 neither.2
    rw [before] at after
    contradiction

namespace Ready

variable {r s : Ranked K α}

/-- What a candidate stands for is not nearer than itself. -/
theorem le (ready : Ready most fewest p r) :
    ∀ e ∈ r.candidate.contents, r.distanceSquared ≤ e.bounds.distanceSquared p := by
  intro e mem
  rw [ready.distance]
  cases here : r.candidate with
  | entry d =>
    rw [here] at mem
    obtain rfl := Multiset.mem_singleton.mp mem
    exact Scalar.le_right (Bounds.distanceSquared_nonneg ..)
  | node n =>
    rw [here] at mem
    obtain ⟨h, wf⟩ := ready.formed n here
    have part := wf.leastOver.covers e.bounds (Multiset.mem_map_of_mem _ mem)
    refine Bounds.distanceSquared_le part (ready.proper e ?_)
    rw [here]
    exact mem

theorem le_of_not_nearer (ready : Ready most fewest p r) (other : Ready most fewest p s)
    (after : ¬nearer s r) : r.distanceSquared ≤ s.distanceSquared := by
  have number (b : Bounds K) := Scalar.le_right (b.distanceSquared_nonneg p)
  rw [ready.distance, other.distance]
  refine Scalar.le_of_not_lt (number _) (number _) fun less => after ?_
  rw [nearer, ready.distance, other.distance, LawfulRounding.totalOrder_of_lt less]
  rfl

omit [LawfulRounding K] in
/-- The children of a node that may wait may do so, too. -/
theorem ranked {n : Node K α} {d : K} (ready : Ready most fewest p ⟨d, .node n⟩) :
    ∀ r ∈ n.ranked p, Ready most fewest p r := by
  obtain ⟨h, wf⟩ := ready.formed n rfl
  have proper := ready.proper
  intro r mem
  cases wf with
  | leaf =>
    obtain ⟨e, he, rfl⟩ := List.mem_map.mp mem
    refine ⟨rfl, fun f hf => ?_, nofun⟩
    obtain rfl := Multiset.mem_singleton.mp hf
    refine proper f ?_
    rw [Candidate.contents, contents_leaf]
    exact Multiset.mem_coe.mpr he
  | branch _ _ wf =>
    obtain ⟨c, hc, rfl⟩ := List.mem_map.mp mem
    refine ⟨rfl, fun f hf => ?_, ?_⟩
    · refine proper f ?_
      rw [Candidate.contents, contents_branch]
      exact Multiset.mem_bind.mpr ⟨c, Multiset.mem_coe.mpr hc, hf⟩
    · rintro _ ⟨⟩
      exact ⟨_, wf c hc⟩

end Ready

/-- The candidates in a heap. -/
def held (heap : Heap (nearer : Ranked K α → Ranked K α → Bool)) : Multiset (Ranked K α) :=
  heap.items.toList

/-- A search that has candidates in order, and fuel for all visits that they take. -/
structure Pending (most fewest : Nat) (p : Position K) (fuel : Nat)
    (heap : Heap (nearer : Ranked K α → Ranked K α → Bool)) : Prop where
  ordered : Heap.Ordered nearer heap.items
  ready : ∀ r ∈ held heap, Ready most fewest p r
  enough : visitsOf (held heap) ≤ fuel

omit [LawfulRounding K] in
theorem held_of_pop? {heap rest : Heap (nearer : Ranked K α → Ranked K α → Bool)} {r : Ranked K α}
    (popped : heap.pop? = some (r, rest)) : held heap = r ::ₘ held rest :=
  Multiset.coe_eq_coe.mpr (Heap.pop?_perm popped)

namespace Pending

variable {fuel : Nat} {heap rest : Heap (nearer : Ranked K α → Ranked K α → Bool)}
  {r : Ranked K α}

theorem first (pending : Pending most fewest p fuel heap) (popped : heap.pop? = some (r, rest)) :
    ∀ e ∈ waiting (held rest), r.distanceSquared ≤ e.bounds.distanceSquared p := by
  intro e mem
  obtain ⟨s, hs, he⟩ := Multiset.mem_bind.mp mem
  have split := held_of_pop? popped
  have ready : Ready most fewest p r := pending.ready r (split ▸ Multiset.mem_cons_self r _)
  have here : s ∈ held heap := split ▸ Multiset.mem_cons_of_mem hs
  have after := Heap.first_of_pop? ranks_nearer pending.ordered popped
    (Array.mem_toList_iff.mp (Multiset.mem_coe.mp here))
  exact Scalar.le_trans (ready.le_of_not_nearer (pending.ready s here) after)
    ((pending.ready s here).le e he)

/-- A step that takes an entry. -/
theorem of_pop? (pending : Pending most fewest p (fuel + 1) heap)
    (popped : heap.pop? = some (r, rest)) : Pending most fewest p fuel rest := by
  have split := held_of_pop? popped
  constructor
  · exact Heap.ordered_pop? ranks_nearer pending.ordered popped
  · exact fun s hs => pending.ready s (split ▸ Multiset.mem_cons_of_mem hs)
  · have enough := pending.enough
    rw [split, visitsOf, Multiset.map_cons, Multiset.sum_cons] at enough
    have := visits_pos r.candidate
    exact Nat.le_of_lt_succ (by rw [visitsOf]; omega)

/-- A step that puts back a node as its children. -/
theorem addAll {n : Node K α} {d : K} (pending : Pending most fewest p (fuel + 1) heap)
    (popped : heap.pop? = some (⟨d, .node n⟩, rest)) :
    Pending most fewest p fuel (rest.addAll (n.ranked p)) ∧
      waiting (held (rest.addAll (n.ranked p))) = waiting (held heap) := by
  have split := held_of_pop? popped
  obtain ⟨ordered, kept⟩ := Heap.addAll_spec ranks_nearer
    (Heap.ordered_pop? ranks_nearer pending.ordered popped) (n.ranked p)
  have joined : held (rest.addAll (n.ranked p)) = held rest + (n.ranked p : Multiset (Ranked K α)) :=
    Multiset.coe_eq_coe.mpr kept
  refine ⟨⟨ordered, ?_, ?_⟩, ?_⟩
  · rw [joined]
    intro s hs
    rcases Multiset.mem_add.mp hs with old | new
    · exact pending.ready s (split ▸ Multiset.mem_cons_of_mem old)
    · exact (pending.ready _ (split ▸ Multiset.mem_cons_self _ _)).ranked s (Multiset.mem_coe.mp new)
  · have enough := pending.enough
    have node := visitsOf_ranked (p := p) n
    rw [split, visitsOf, Multiset.map_cons, Multiset.sum_cons, ← node] at enough
    rw [joined, visitsOf, Multiset.map_add, Multiset.sum_add]
    rw [visitsOf] at enough
    omega
  · rw [joined, split, waiting, waiting, Multiset.add_bind, Multiset.cons_bind, add_comm]
    exact congrArg (· + _) (waiting_ranked n)

end Pending

/-- With fuel for all visits, the entries come out in the order of their distances. -/
theorem visit_selects {fuel : Nat} (k : Nat)
    {heap : Heap (nearer : Ranked K α → Ranked K α → Bool)}
    (pending : Pending most fewest p fuel heap) :
    Selects p k (waiting (held heap)) (visit p fuel k heap) := by
  induction fuel generalizing k heap with
  | zero =>
    have empty : held heap = 0 := by
      refine Multiset.eq_zero_of_forall_notMem fun r mem => ?_
      obtain ⟨rest, split⟩ := Multiset.exists_cons_of_mem mem
      have enough := pending.enough
      rw [split, visitsOf, Multiset.map_cons, Multiset.sum_cons] at enough
      have := visits_pos r.candidate
      omega
    exact selects_nil (.inr (by rw [empty]; rfl))
  | succ fuel ih =>
    cases k with
    | zero => exact selects_nil (.inl rfl)
    | succ k =>
      cases popped : heap.pop? with
      | none =>
        rw [visit, popped, held, Heap.pop?_eq_none popped]
        exact selects_nil (.inr rfl)
      | some taken =>
        obtain ⟨⟨d, e | n⟩, rest⟩ := taken
        · have distance :=
            (pending.ready _ (held_of_pop? popped ▸ Multiset.mem_cons_self _ _)).distance
          obtain rfl : d = e.bounds.distanceSquared p := distance
          rw [visit, popped, held_of_pop? popped, waiting, Multiset.cons_bind]
          exact (ih k (pending.of_pop? popped)).cons (pending.first popped)
        · obtain ⟨pending, same⟩ := pending.addAll popped
          rw [visit, popped, ← same]
          exact ih (k + 1) pending

theorem nearest_selects {h : Nat} {root : Node K α} (wf : root.WellFormed most fewest h)
    (proper : ∀ e ∈ root.contents, e.bounds.Ordered) (p : Position K) (k : Nat) :
    Selects p k root.contents (root.nearest p k) := by
  let start : Ranked K α := ⟨root.bounds.distanceSquared p, .node root⟩
  have only : held (.singleton start) = {start} := rfl
  have pending : Pending most fewest p (root.nodeCount + root.entries.length) (.singleton start) := by
    constructor
    · exact Heap.ordered_singleton start
    · intro r mem
      obtain rfl := Multiset.mem_singleton.mp (only ▸ mem)
      refine ⟨rfl, proper, ?_⟩
      rintro _ ⟨⟩
      exact ⟨h, wf⟩
    · rw [only, visitsOf, Multiset.map_singleton, Multiset.sum_singleton]
      exact le_rfl
  have selects := visit_selects k pending
  rwa [only, waiting, Multiset.singleton_bind] at selects

end Node

variable [LawfulRounding K] [Bounded K α]

/-- The box of the first item is not farther off than that of the second one. -/
def NoFarther (p : Position K) (x y : α) : Prop :=
  ∀ b ∈ (Bounded.bounds? x : Option (Bounds K)), ∀ c ∈ (Bounded.bounds? y : Option (Bounds K)),
    b.distanceSquared p ≤ c.distanceSquared p

/-- Stored items with the distances of their boxes, in ascending order: `k` of them if there are
that many, and none farther off than one that is left out. -/
structure AreNearest (t : Index K α) (p : Position K) (k : Nat) (found : List (α × K)) : Prop where
  length : found.length = min k t.size
  distances : ∀ f ∈ found, ∃ b : Bounds K, Bounded.bounds? f.1 = some b ∧
    f.2 = Scalar.sqrt (b.distanceSquared p)
  ascending : found.Pairwise fun f g => f.2 ≤ g.2 ∧ NoFarther p f.1 g.1
  rest : ∃ rest : Multiset α, (found.map Prod.fst : Multiset α) + rest = t.items ∧
    ∀ f ∈ found, ∀ y ∈ rest, NoFarther p f.1 y

theorem Sound.nearest {t : Index K α} (sound : t.Sound)
    (proper : ∀ x ∈ t.items, ∀ b ∈ (Bounded.bounds? x : Option (Bounds K)), b.Ordered)
    (p : Position K) (k : Nat) : AreNearest t p k (t.nearest p k) := by
  obtain ⟨found, answer, selects⟩ : ∃ found : List (Entry K α × K),
      t.nearest p k = found.map (fun f => (f.1.item, f.2)) ∧
        Node.Selects p k (contents t.root) found := by
    refine ⟨_, rfl, ?_⟩
    cases here : t.root with
    | none => exact Node.selects_nil (.inr rfl)
    | some root =>
      obtain ⟨h, wf, _⟩ := sound.rooted root here
      refine Node.nearest_selects wf (fun e mem => ?_) p k
      have stored : e ∈ contents t.root := by rwa [here]
      refine proper e.item ?_ e.bounds (sound.boxes e stored)
      rw [items_eq]
      exact Multiset.mem_map_of_mem _ stored
  obtain ⟨length, distances, ascending, rest, total, last⟩ := selects
  have stored {f : Entry K α × K} (mem : f ∈ found) : f.1 ∈ contents t.root := by
    rw [← total]
    exact Multiset.mem_add.mpr (.inl (List.mem_map_of_mem mem))
  have noFarther {d e : Entry K α} (hd : d ∈ contents t.root) (he : e ∈ contents t.root)
      (le : d.bounds.distanceSquared p ≤ e.bounds.distanceSquared p) :
      NoFarther p d.item e.item := by
    intro b hb c hc
    obtain rfl := Option.some.inj ((sound.boxes d hd).symm.trans hb)
    obtain rfl := Option.some.inj ((sound.boxes e he).symm.trans hc)
    exact le
  rw [answer]
  constructor
  · rw [List.length_map, length, sound.size, items_eq, Multiset.card_map]
  · intro f mem
    obtain ⟨g, hg, rfl⟩ := List.mem_map.mp mem
    exact ⟨g.1.bounds, sound.boxes g.1 (stored hg), distances g hg⟩
  · refine List.pairwise_map.mpr (ascending.imp_of_mem fun hf hg le => ⟨?_, ?_⟩)
    · rw [distances _ hf, distances _ hg]
      exact LawfulRounding.sqrt_le_sqrt (Bounds.distanceSquared_nonneg ..) le
    · exact noFarther (stored hf) (stored hg) le
  · refine ⟨rest.map Entry.item, ?_, ?_⟩
    · rw [items_eq, ← total, Multiset.map_add, Multiset.map_coe, List.map_map, List.map_map]
      rfl
    · intro f mem y hy
      obtain ⟨g, hg, rfl⟩ := List.mem_map.mp mem
      obtain ⟨e, he, rfl⟩ := Multiset.mem_map.mp hy
      refine noFarther (stored hg) ?_ (last g hg e he)
      rw [← total]
      exact Multiset.mem_add.mpr (.inr he)

/-- The nearest items of an index whose boxes are in order, for any position, be its coordinates
numbers or not. -/
theorem run_nearest [BEq α] {t₀ : Index K α} (initial : Initial t₀) (cs : List (Command α))
    (proper : ∀ x ∈ (t₀.run cs).items, ∀ b ∈ (Bounded.bounds? x : Option (Bounds K)), b.Ordered)
    (p : Position K) (k : Nat) : AreNearest (t₀.run cs) p k ((t₀.run cs).nearest p k) :=
  (initial.sound.run cs).nearest proper p k

/-- Below a root with several leaves, three of the points that are left, from the nearest on. -/
theorem run_nearest_points :
    let s : Settings Float := { Settings.default with nodeCapacity := 2, leastFill := 1 }
    let t₀ : Index Float (Position Float) := ⟨none, 0, s.nodeCapacity, s.leastFill⟩
    let cs := [.insertMany [⟨3, 4, none⟩, ⟨0, 1, none⟩, ⟨9, 12, none⟩, ⟨0, 0, none⟩, ⟨6, 8, none⟩],
      .remove ⟨0, 1, none⟩]
    let p : Position Float := ⟨0, 0, none⟩
    Initial t₀ ∧ (∀ x ∈ (t₀.run cs).items, ∀ b ∈ (Bounded.bounds? x : Option (Bounds Float)),
        b.Ordered) ∧ ((t₀.run cs).nearest p 3).map Prod.snd = [0, 5, 10] ∧
      AreNearest (t₀.run cs) p 3 ((t₀.run cs).nearest p 3) := by
  intro s t₀ cs p
  have initial : Initial t₀ :=
    initial_of_check (Settings.check_eq_ok_iff.mpr (by decide +kernel))
  have proper : ∀ x ∈ (t₀.run cs).items, ∀ b ∈ (Bounded.bounds? x : Option (Bounds Float)),
      b.Ordered := by
    rintro x - _ ⟨⟩
    exact Bounds.ordered_ofPosition x
  exact ⟨initial, proper, by decide +kernel, run_nearest initial cs proper p 3⟩

end Geospatial.Index
