import Mathlib.Data.List.Induction
import Mathlib.Data.String.Basic
import Geospatial.Proofs.Network.Answer
import Geospatial.Proofs.Heap

/-! Best-first search under costs of at least zero, with an estimate that no edge lowers by
more than its cost. The label that is taken first is as cheap as any walk to its node, since
every walk there passes a waiting label that is no more promising. So nodes are settled once and
for all. -/
namespace Geospatial.Network

variable {K : Type}

/-- The number of arcs that leave nodes that are not settled. -/
def pending [Scalar K] (n : Network K) (settled : List String) : Nat :=
  (n.arcs.filter fun p => !settled.contains p.1).length

theorem pending_cons [Scalar K] (n : Network K) {v : String} {settled : List String}
    (new : v ∉ settled) :
    n.pending (v :: settled) + (n.arcs.filter (·.1 == v)).length = n.pending settled := by
  unfold pending
  induction n.arcs with
  | nil => rfl
  | cons p ps ih =>
    by_cases here : p.1 = v
    · simp [here, new] at ih ⊢
      omega
    · by_cases settled : p.1 ∈ settled <;> simp [here, settled] at ih ⊢ <;> omega

/-- When an edge is passed over: its end is beyond the limit, settled, or no better. -/
theorem passed_iff [Scalar K] {limit : Option K} {settled : List String} {l : Label K}
    {labels : List (Label K)} :
    ((limit.any fun m => m < l.cost) || settled.contains l.node || !l.improves labels) = true ↔
      (∃ m ∈ limit, m < l.cost) ∨ l.node ∈ settled ∨ ¬l.improves labels := by
  simp [Option.any_eq_true, or_assoc]

variable [Exact K]

section Order

variable {estimate : String → K}

theorem Label.precedes_iff {a b : Label K} : Label.precedes estimate a b ↔
    a.cost + estimate a.node < b.cost + estimate b.node ∨
      a.cost + estimate a.node = b.cost + estimate b.node ∧ a.node < b.node := by
  have names : compare a.node b.node = .lt ↔ a.node < b.node := compareOfLessAndEq_eq_lt
  simp [Label.precedes, Scalar.order_eq_lt, Exact.order_eq_eq, Ordering.then_eq_lt, names]

theorem Label.ranks : Heap.Ranks (Label.precedes estimate) where
  asymm {a b} first := by
    rw [Label.precedes_iff] at first ⊢
    rintro (less | ⟨level, name⟩)
    · rcases first with less' | ⟨level, _⟩
      · exact lt_asymm less less'
      · exact less.ne level.symm
    · rcases first with less | ⟨_, name'⟩
      · exact less.ne level.symm
      · exact lt_asymm name name'
  cotrans {a b c} first := by
    simp only [Label.precedes_iff] at first ⊢
    rcases lt_trichotomy (a.cost + estimate a.node) (b.cost + estimate b.node) with
      less | level | greater
    · exact Or.inl (Or.inl less)
    · rw [level] at first ⊢
      rcases first with less | ⟨level', name⟩
      · exact Or.inr (Or.inl less)
      · rcases lt_or_ge a.node b.node with before | after
        · exact Or.inl (Or.inr ⟨rfl, before⟩)
        · exact Or.inr (Or.inr ⟨level', after.trans_lt name⟩)
    · right; left
      rcases first with less | ⟨level', _⟩
      · exact greater.trans less
      · exact greater.trans_eq level'

theorem Label.le_of_not_precedes {a b : Label K} (behind : ¬Label.precedes estimate b a) :
    a.cost + estimate a.node ≤ b.cost + estimate b.node := by
  rw [Label.precedes_iff, not_or, not_lt] at behind
  exact behind.1

end Order

/-- The limit, if there is one, is not exceeded. -/
def Admits (limit : Option K) (cost : K) : Prop := ∀ m ∈ limit, cost ≤ m

theorem admits_none (cost : K) : Admits none cost :=
  fun m hm => absurd hm (Option.not_mem_none m)

/-- A label at a node gives one at the end of the arc, if the limit admits that. -/
def Follows (limit : Option K) (labels : List (Label K)) (u : String) (a : Arc K) : Prop :=
  ∀ cost, Label.Within labels u cost → Admits limit (cost + a.edge.cost) →
    Label.Within labels a.head (cost + a.edge.cost)

/-- The state of a search between two of its steps. -/
structure Underway (n : Network K) (start : String) (limit : Option K) {estimate : String → K}
    (x : Exploration estimate) : Prop where
  sound : n.Sound start x.labels
  ordered : Heap.Ordered (Label.precedes estimate) x.waiting.items
  /-- A waiting label is the best one of its node or has been overtaken. -/
  overtaken : ∀ l ∈ x.waiting.items, Label.Within x.labels l.node l.cost
  admitted : ∀ v l, Label.find? x.labels v = some l → Admits limit l.cost
  waits : ∀ v l, Label.find? x.labels v = some l → v ∉ x.settled → l ∈ x.waiting.items
  settled : ∀ v ∈ x.settled, ∀ as, n.Walk start as v → Label.Within x.labels v (costOf as)

/-- All edges of settled nodes have been followed. -/
def Followed (n : Network K) (limit : Option K) {estimate : String → K}
    (x : Exploration estimate) : Prop :=
  ∀ u ∈ x.settled, ∀ a ∈ n.outgoing u, Follows limit x.labels u a

variable {n : Network K} {start : String} {limit : Option K} {estimate : String → K}

/-- Labels improve where nothing is settled. -/
structure Advances (x y : Exploration estimate) : Prop where
  settled : y.settled = x.settled
  refine : Label.Refine x.labels y.labels
  kept : ∀ v ∈ x.settled, Label.find? y.labels v = Label.find? x.labels v

namespace Advances

theorem refl (x : Exploration estimate) : Advances x x :=
  ⟨rfl, .refl x.labels, fun _ _ => rfl⟩

theorem trans {x y z : Exploration estimate} (first : Advances x y) (second : Advances y z) :
    Advances x z where
  settled := second.settled.trans first.settled
  refine := first.refine.trans second.refine
  kept v hv := (second.kept v (first.settled ▸ hv)).trans (first.kept v hv)

theorem follows {x y : Exploration estimate} (advances : Advances x y) {u : String} {a : Arc K}
    (settled : u ∈ x.settled) (follows : Follows limit x.labels u a) :
    Follows limit y.labels u a := by
  intro cost within admitted
  rw [Label.Within, advances.kept u settled] at within
  exact advances.refine _ _ (follows cost within admitted)

theorem set {x : Exploration estimate} {l : Label K} (better : l.improves x.labels)
    (unsettled : l.node ∉ x.settled) (waiting : Heap (Label.precedes estimate)) :
    Advances x { x with labels := l.set x.labels, waiting } where
  settled := rfl
  refine := Label.refine_set better
  kept := by
    intro v hv
    have other : l.node ≠ v := by
      rintro rfl
      exact unsettled hv
    exact Label.find?_set_of_ne other x.labels

end Advances

namespace Underway

variable {x : Exploration estimate}

/-- A label that is set waits from then on. -/
theorem add (underway : n.Underway start limit x) (noCycle : ¬n.HasNegativeCycle start)
    {l : Label K} {a : Arc K} (new : n.Improves x.labels l a)
    (admitted : Admits limit (l.cost + a.edge.cost)) :
    n.Underway start limit
      { x with labels := (l.extend a).set x.labels, waiting := x.waiting.add (l.extend a) } where
  sound := underway.sound.set noCycle new
  ordered := Heap.ordered_add Label.ranks underway.ordered _
  overtaken := by
    intro l' waiting
    rcases Heap.mem_add.mp waiting with rfl | waiting
    · exact ⟨l.extend a, Label.find?_set_self _ _, le_rfl⟩
    · exact Label.refine_set new.better _ _ (underway.overtaken l' waiting)
  admitted := by
    intro v l' found
    rw [Label.find?_set] at found
    split at found
    · rw [← Option.some.inj found]
      exact admitted
    · exact underway.admitted v l' found
  waits := by
    intro v l' found unsettled
    rw [Label.find?_set] at found
    split at found
    · exact Heap.mem_add.mpr (Or.inl (Option.some.inj found).symm)
    · exact Heap.mem_add.mpr (Or.inr (underway.waits v l' found unsettled))
  settled v hv as walk := Label.refine_set new.better _ _ (underway.settled v hv as walk)

/-- Nothing is lost where the end of an edge is passed over. -/
theorem follows_of_passed (underway : n.Underway start limit x) {l : Label K} {a : Arc K}
    (known : Label.find? x.labels l.node = some l) (here : a.edge ∈ n.edges)
    (joins : a.edge.Joins l.node a.head)
    (passed : (∃ m ∈ limit, m < l.cost + a.edge.cost) ∨ a.head ∈ x.settled ∨
      ¬(l.extend a).improves x.labels) : Follows limit x.labels l.node a := by
  intro cost within admitted
  have le := (Label.within_iff known).mp within
  rcases passed with ⟨m, hm, beyond⟩ | settled | worse
  · have within := admitted m hm
    exact absurd beyond (by linarith)
  · obtain ⟨as, walk, attained⟩ := underway.sound.attained _ l known
    apply (underway.settled _ settled _ (walk.append (.single here joins))).mono
    simpa [attained] using le
  · exact (Label.not_improves_iff.mp worse).mono (by simpa using le)

/-- Following an edge of a node that has just been settled. -/
theorem sight (underway : n.Underway start limit x) (consistent : n.Consistent)
    (noCycle : ¬n.HasNegativeCycle start) {l : Label K} {a : Arc K} (settled : l.node ∈ x.settled)
    (known : Label.find? x.labels l.node = some l) (leaves : a ∈ n.outgoing l.node) :
    n.Underway start limit (x.sight limit l a) ∧ Advances x (x.sight limit l a) ∧
      Follows limit (x.sight limit l a).labels l.node a ∧
      (x.sight limit l a).waiting.items.size ≤ x.waiting.items.size + 1 := by
  obtain ⟨here, joins⟩ := consistent.mem_outgoing.mp leaves
  unfold Exploration.sight
  simp only [passed_iff]
  split
  · rename_i passed
    exact ⟨underway, .refl x, underway.follows_of_passed known here joins passed, Nat.le_succ _⟩
  · rename_i improves
    simp only [not_or, not_exists, not_and, not_lt, not_not] at improves
    obtain ⟨admitted, unsettled, better⟩ := improves
    have advances := Advances.set better unsettled (x.waiting.add (l.extend a))
    refine ⟨underway.add noCycle ⟨known, here, joins, better⟩ admitted, advances, ?_, ?_⟩
    · intro cost within _
      rw [Label.Within, advances.kept _ settled] at within
      have le := (Label.within_iff known).mp within
      exact ⟨l.extend a, Label.find?_set_self _ _, by simpa using le⟩
    · exact (Heap.size_add x.waiting (l.extend a)).le

/-- Following all edges of a node that has just been settled. -/
theorem sightAll (underway : n.Underway start limit x) (consistent : n.Consistent)
    (noCycle : ¬n.HasNegativeCycle start) {l : Label K} {as : List (Arc K)}
    (settled : l.node ∈ x.settled) (known : Label.find? x.labels l.node = some l)
    (leave : as ⊆ n.outgoing l.node) :
    n.Underway start limit (as.foldl (Exploration.sight limit l) x) ∧
      Advances x (as.foldl (Exploration.sight limit l) x) ∧
      (∀ a ∈ as, Follows limit (as.foldl (Exploration.sight limit l) x).labels l.node a) ∧
      (as.foldl (Exploration.sight limit l) x).waiting.items.size ≤
        x.waiting.items.size + as.length := by
  induction as generalizing x with
  | nil => exact ⟨underway, .refl x, nofun, le_rfl⟩
  | cons a as ih =>
    obtain ⟨leaves, rest⟩ := List.cons_subset.mp leave
    obtain ⟨first, advances, follows, size⟩ :=
      underway.sight consistent noCycle settled known leaves
    have settled' : l.node ∈ (x.sight limit l a).settled := advances.settled ▸ settled
    have known' := (advances.kept _ settled).trans known
    obtain ⟨last, advances', follow, size'⟩ := ih first settled' known' rest
    rw [List.foldl_cons]
    refine ⟨last, advances.trans advances', ?_, ?_⟩
    · intro b hb
      rcases List.mem_cons.mp hb with rfl | hb
      · exact advances'.follows settled' follows
      · exact follow b hb
    · rw [List.length_cons]
      omega

/-- A node within the cost of a walk is settled or waits itself. -/
theorem settled_or_waits (underway : n.Underway start limit x) {v : String} {cost : K}
    (within : Label.Within x.labels v cost) :
    v ∈ x.settled ∨ ∃ l ∈ x.waiting.items, l.cost + estimate l.node ≤ cost + estimate v := by
  obtain ⟨l, found, le⟩ := within
  by_cases settled : v ∈ x.settled
  · exact Or.inl settled
  · refine Or.inr ⟨l, underway.waits v l found settled, ?_⟩
    rw [Label.node_of_find? found]
    linarith

/-- A label that is taken first costs as much as the best one of its node. -/
theorem exists_best (underway : n.Underway start limit x) {l : Label K}
    {rest : Heap (Label.precedes estimate)} (popped : x.waiting.pop? = some (l, rest))
    (unsettled : l.node ∉ x.settled) :
    ∃ best, Label.find? x.labels l.node = some best ∧ best.node = l.node ∧ best.cost = l.cost := by
  have waiting : l ∈ x.waiting.items := (Heap.mem_of_pop? popped).mpr (Or.inl rfl)
  obtain ⟨best, found, le⟩ := underway.overtaken l waiting
  have least := Label.le_of_not_precedes
    (Heap.first_of_pop? Label.ranks underway.ordered popped (underway.waits _ best found unsettled))
  have same := Label.node_of_find? found
  rw [same] at least
  exact ⟨best, found, same, le.antisymm (by linarith)⟩

/-- Taking a label whose node is settled by then. -/
theorem take (underway : n.Underway start limit x) {l : Label K}
    {rest : Heap (Label.precedes estimate)} (popped : x.waiting.pop? = some (l, rest))
    {settled : List String} (more : x.settled ⊆ settled) (taken : l.node ∈ settled)
    (least : ∀ v ∈ settled, ∀ as, n.Walk start as v → Label.Within x.labels v (costOf as)) :
    n.Underway start limit { x with settled, waiting := rest } where
  sound := underway.sound
  ordered := Heap.ordered_pop? Label.ranks underway.ordered popped
  overtaken l' waiting := underway.overtaken l' ((Heap.mem_of_pop? popped).mpr (Or.inr waiting))
  admitted := underway.admitted
  settled := least
  waits := by
    intro v l' found unsettled
    have waiting := underway.waits v l' found fun settled => unsettled (more settled)
    rcases (Heap.mem_of_pop? popped).mp waiting with rfl | waiting
    · exact absurd (Label.node_of_find? found ▸ taken) unsettled
    · exact waiting

/-- What follows over the edges of a label depends on its node and cost alone. -/
theorem sight_congr {l l' : Label K} (node : l.node = l'.node) (cost : l.cost = l'.cost) :
    (Exploration.sight limit l : Exploration estimate → _) = Exploration.sight limit l' := by
  funext x a
  have alike : l.extend a = l'.extend a := by rw [Label.extend, Label.extend, node, cost]
  rw [Exploration.sight, Exploration.sight, alike]

section Settling

variable (underway : n.Underway start limit x) (consistent : n.Consistent)
  (costs : ∀ e ∈ n.edges, 0 ≤ e.cost) (feasible : n.Feasible estimate)
  (followed : n.Followed limit x)

include underway consistent costs feasible followed

/-- A walk to a node that is not settled passes a label that waits. -/
theorem frontier {as : List (Arc K)} {v : String} (walk : n.Walk start as v)
    (admitted : Admits limit (costOf as)) :
    v ∈ x.settled ∨
      ∃ l ∈ x.waiting.items, l.cost + estimate l.node ≤ costOf as + estimate v := by
  -- Up to the last arc, the walk ends at a settled node or has passed a waiting label before.
  induction as using List.reverseRecOn generalizing v with
  | nil =>
    cases walk
    exact underway.settled_or_waits ⟨_, underway.sound.origin, le_rfl⟩
  | append_singleton as a ih =>
    obtain ⟨u, first, here, joins, rfl⟩ := Walk.concat_iff.mp walk
    have dearer := costs _ here
    simp only [costOf_append, costOf_cons, costOf_nil, add_zero] at admitted ⊢
    have earlier : Admits limit (costOf as) := fun m hm => by linarith [admitted m hm]
    rcases ih first earlier with settled | ⟨l, waiting, le⟩
    · have leaves := consistent.mem_outgoing.mpr ⟨here, joins⟩
      have within := underway.settled u settled as first
      exact underway.settled_or_waits (followed u settled a leaves _ within admitted)
    · have drop := feasible _ here _ _ joins
      exact Or.inr ⟨l, waiting, by linarith⟩

/-- No walk to the node of the label that is taken first costs less. -/
theorem within_of_pop? {l : Label K} {rest : Heap (Label.precedes estimate)}
    (popped : x.waiting.pop? = some (l, rest)) (unsettled : l.node ∉ x.settled)
    {as : List (Arc K)} (walk : n.Walk start as l.node) :
    Label.Within x.labels l.node (costOf as) := by
  obtain ⟨best, found, _, same⟩ := underway.exists_best popped unsettled
  refine ⟨best, found, ?_⟩
  -- Walks beyond the limit cost more than any label; the others pass the frontier.
  by_cases admitted : Admits limit (costOf as)
  · rcases underway.frontier consistent costs feasible followed walk admitted with
      settled | ⟨f, waiting, le⟩
    · exact absurd settled unsettled
    · have least := Label.le_of_not_precedes
        (Heap.first_of_pop? Label.ranks underway.ordered popped waiting)
      linarith
  · simp only [Admits, not_forall, not_le] at admitted
    obtain ⟨m, hm, beyond⟩ := admitted
    exact (underway.admitted _ best found m hm).trans beyond.le

theorem settle {l : Label K} {rest : Heap (Label.precedes estimate)}
    (popped : x.waiting.pop? = some (l, rest)) (unsettled : l.node ∉ x.settled) :
    n.Underway start limit { x with settled := l.node :: x.settled, waiting := rest } := by
  apply underway.take popped (List.subset_cons_self _ _) List.mem_cons_self
  intro v hv as walk
  rcases List.mem_cons.mp hv with rfl | hv
  · exact underway.within_of_pop? consistent costs feasible followed popped unsettled walk
  · exact underway.settled v hv as walk

/-- Settling a node and following its edges. What it makes wait is paid for by its arcs. -/
theorem expand {l : Label K} {rest : Heap (Label.precedes estimate)}
    (popped : x.waiting.pop? = some (l, rest)) (unsettled : l.node ∉ x.settled)
    {y : Exploration estimate} (next : y = (n.outgoing l.node).foldl (Exploration.sight limit l)
      { x with settled := l.node :: x.settled, waiting := rest }) :
    n.Underway start limit y ∧ n.Followed limit y ∧
      y.waiting.items.size + n.pending y.settled < x.waiting.items.size + n.pending x.settled := by
  have settled := underway.settle consistent costs feasible followed popped unsettled
  have noCycle := feasible.not_hasNegativeCycle start
  -- The label that was taken may not be the best one itself, but it does the same.
  obtain ⟨best, found, node, cost⟩ := underway.exists_best popped unsettled
  rw [← sight_congr node cost, ← node] at next
  rw [← node] at found settled unsettled
  obtain ⟨last, advances, follow, size⟩ := settled.sightAll consistent noCycle
    List.mem_cons_self found (List.Subset.refl (n.outgoing best.node))
  rw [← next] at last advances follow size
  refine ⟨last, ?_, ?_⟩
  · intro u hu a ha
    rw [advances.settled] at hu
    rcases List.mem_cons.mp hu with rfl | hu'
    · exact follow a ha
    · exact advances.follows hu (followed u hu' a ha)
  · have fewer := consistent.length_outgoing_le best.node
    have pending := n.pending_cons unsettled
    have taken := Heap.size_pop? popped
    rw [advances.settled]
    simp only at size ⊢
    omega

end Settling

/-- Every round takes one label that waits, and a node that is settled makes no more labels wait
than there are arcs from it. -/
theorem run (consistent : n.Consistent) (costs : ∀ e ∈ n.edges, 0 ≤ e.cost)
    (feasible : n.Feasible estimate) (target : Option String) {rounds : Nat}
    (underway : n.Underway start limit x) (followed : n.Followed limit x)
    (enough : x.waiting.items.size + n.pending x.settled ≤ rounds) :
    n.Underway start limit (x.run n target limit rounds) ∧
      ((∃ t ∈ target, t ∈ (x.run n target limit rounds).settled) ∨
        n.Followed limit (x.run n target limit rounds) ∧
          (x.run n target limit rounds).waiting.items = #[]) := by
  induction rounds generalizing x with
  | zero =>
    have empty : x.waiting.items = #[] := Array.eq_empty_of_size_eq_zero (by omega)
    exact ⟨underway, Or.inr ⟨followed, empty⟩⟩
  | succ rounds ih =>
    rw [Exploration.run]
    cases popped : x.waiting.pop? with
    | none => exact ⟨underway, Or.inr ⟨followed, Heap.pop?_eq_none popped⟩⟩
    | some next =>
      obtain ⟨l, rest⟩ := next
      simp only [List.contains_iff_mem]
      split
      · rename_i settled
        have passed := underway.take popped (List.Subset.refl _) settled underway.settled
        have taken := Heap.size_pop? popped
        exact ih passed followed (by simp only; omega)
      · rename_i unsettled
        split
        · rename_i reached
          have reached : target = some l.node := by simpa using reached
          have settled := underway.settle consistent costs feasible followed popped unsettled
          exact ⟨settled, Or.inl ⟨l.node, reached, List.mem_cons_self⟩⟩
        · obtain ⟨next, followed', fewer⟩ :=
            underway.expand consistent costs feasible followed popped unsettled rfl
          exact ih next followed' (by omega)

end Underway

/-- What best-first search finds: of each node that it was to reach, a label as cheap as any
walk there that the limit admits. -/
structure Explored (n : Network K) (start : String) (target : Option String) (limit : Option K)
    (labels : List (Label K)) : Prop where
  sound : n.Sound start labels
  admitted : ∀ v l, Label.find? labels v = some l → Admits limit l.cost
  least : ∀ v, (∀ t ∈ target, t = v) → ∀ as, n.Walk start as v → Admits limit (costOf as) →
    Label.Within labels v (costOf as)

theorem underway_start (n : Network K) (start : String) (admits : Admits limit 0) :
    n.Underway start limit (.start start : Exploration estimate) where
  sound := sound_start n start
  ordered := Heap.ordered_singleton _
  overtaken := by
    intro l waiting
    obtain rfl : l = ⟨start, 0, none⟩ := by
      simpa [Exploration.start, Heap.singleton] using waiting
    exact ⟨_, (sound_start n start).origin, le_rfl⟩
  admitted := by
    intro v l found
    obtain ⟨rfl, rfl⟩ := find?_start found
    exact admits
  waits := by
    intro v l found _
    obtain ⟨rfl, rfl⟩ := find?_start found
    exact Array.mem_singleton.mpr rfl
  settled := nofun

theorem bestFirst_explored (consistent : n.Consistent) (costs : ∀ e ∈ n.edges, 0 ≤ e.cost)
    (feasible : n.Feasible estimate) (start : String) (target : Option String)
    (admits : Admits limit 0) :
    n.Explored start target limit (n.bestFirst start target limit estimate) := by
  have nowhere : n.Followed limit (.start start : Exploration estimate) := nofun
  have enough : (Exploration.start start : Exploration estimate).waiting.items.size +
      n.pending [] ≤ n.arcs.length + 1 := by
    simp [Exploration.start, Heap.singleton, pending, Nat.add_comm]
  obtain ⟨underway, reached⟩ :=
    (underway_start n start admits).run consistent costs feasible target nowhere enough
  refine ⟨underway.sound, underway.admitted, ?_⟩
  intro v wanted as walk admitted
  have settled : v ∈ (Exploration.run n target limit (n.arcs.length + 1)
      (.start start : Exploration estimate)).settled := by
    rcases reached with ⟨t, ht, settled⟩ | ⟨followed, empty⟩
    · exact wanted t ht ▸ settled
    · rcases underway.frontier consistent costs feasible followed walk admitted with
        settled | ⟨l, waiting, _⟩
      · exact settled
      · rw [empty] at waiting
        exact absurd waiting (Array.not_mem_empty l)
  exact underway.settled v settled as walk

end Geospatial.Network
