import Geospatial.Proofs.Network.Walk
import Geospatial.Network.Route

/-! Labels of a search, and the routes that they lead to. A label is set only where it is
cheaper than the one before. So long as no walk in reach goes round at a negative cost, the last
steps lead from every labelled node back to the start, and they pass no node twice. -/
namespace Geospatial.Network

variable {K : Type}

namespace Label

theorem node_of_find? {labels : List (Label K)} {v : String} {l : Label K}
    (found : find? labels v = some l) : l.node = v := by
  simpa using List.find?_some found

theorem find?_set (l : Label K) (labels : List (Label K)) (v : String) :
    find? (l.set labels) v = if l.node = v then some l else find? labels v := by
  induction labels with
  | nil => by_cases same : l.node = v <;> simp [set, find?, same]
  | cons old rest ih =>
    unfold set
    by_cases replaced : old.node = l.node
    · by_cases same : l.node = v <;> simp [find?, replaced, same]
    · rw [if_neg (by simpa using replaced)]
      by_cases first : old.node = v
      · have other : l.node ≠ v := fun same => replaced (first.trans same.symm)
        simp [find?, first, other]
      · simpa [find?, first] using ih

theorem find?_set_self (l : Label K) (labels : List (Label K)) :
    find? (l.set labels) l.node = some l := by
  rw [find?_set, if_pos rfl]

theorem find?_set_of_ne {l : Label K} {v : String} (other : l.node ≠ v) (labels : List (Label K)) :
    find? (l.set labels) v = find? labels v := by
  rw [find?_set, if_neg other]

section Extend

variable [Scalar K]

@[simp] theorem node_extend (l : Label K) (a : Arc K) : (l.extend a).node = a.head := rfl

@[simp] theorem cost_extend (l : Label K) (a : Arc K) :
    (l.extend a).cost = l.cost + a.edge.cost := rfl

@[simp] theorem via_extend (l : Label K) (a : Arc K) :
    (l.extend a).via = some ⟨l.node, a.edge.id⟩ := rfl

theorem improves_iff {l : Label K} {labels : List (Label K)} :
    l.improves labels ↔ ∀ old, find? labels l.node = some old → l.cost < old.cost := by
  unfold improves
  cases find? labels l.node <;> simp

end Extend

variable [Exact K]

/-- The node has a label of at most the given cost. -/
def Within (labels : List (Label K)) (v : String) (cost : K) : Prop :=
  ∃ l, find? labels v = some l ∧ l.cost ≤ cost

theorem within_iff {labels : List (Label K)} {v : String} {l : Label K} {cost : K}
    (found : find? labels v = some l) : Within labels v cost ↔ l.cost ≤ cost := by
  constructor
  · rintro ⟨l', found', le⟩
    obtain rfl := Option.some.inj (found.symm.trans found')
    exact le
  · intro le
    exact ⟨l, found, le⟩

theorem Within.mono {labels : List (Label K)} {v : String} {cost cost' : K}
    (within : Within labels v cost) (le : cost ≤ cost') : Within labels v cost' := by
  obtain ⟨l, found, le'⟩ := within
  exact ⟨l, found, le'.trans le⟩

theorem not_improves_iff {l : Label K} {labels : List (Label K)} :
    ¬l.improves labels ↔ Within labels l.node l.cost := by
  simp only [improves_iff, not_forall, not_lt, exists_prop, Within]

/-- Every label is still there or has given way to a cheaper one. -/
def Refine (labels labels' : List (Label K)) : Prop :=
  ∀ v cost, Within labels v cost → Within labels' v cost

theorem Refine.refl (labels : List (Label K)) : Refine labels labels := fun _ _ within => within

theorem Refine.trans {first second third : List (Label K)} (before : Refine first second)
    (after : Refine second third) : Refine first third :=
  fun v cost within => after v cost (before v cost within)

theorem refine_set {l : Label K} {labels : List (Label K)} (improves : l.improves labels) :
    Refine labels (l.set labels) := by
  rintro v cost ⟨old, found, le⟩
  by_cases same : l.node = v
  · subst same
    exact ⟨l, find?_set_self l labels, (improves_iff.mp improves old found).le.trans le⟩
  · exact ⟨old, by rw [find?_set_of_ne same, found], le⟩

end Label

open Label

/-- The label of `v` was set over an edge from `u`, whose label may have become cheaper since. -/
structure Link [Scalar K] (n : Network K) (labels : List (Label K)) (start u v : String)
    (e : Edge K) (before last : Label K) : Prop where
  there : find? labels u = some before
  found : find? labels v = some last
  apart : v ≠ start
  via : last.via = some ⟨u, e.id⟩
  here : e ∈ n.edges
  joins : e.Joins u v
  follows : before.cost + e.cost ≤ last.cost

/-- The last steps lead from a node back to the start along the arcs. -/
inductive Trace [Scalar K] (n : Network K) (labels : List (Label K)) (start : String) :
    List (Arc K) → String → Prop
  | start : Trace n labels start [] start
  | step {as : List (Arc K)} {u v : String} {e : Edge K} {before last : Label K} :
      Trace n labels start as u → Link n labels start u v e before last →
      Trace n labels start (as ++ [⟨e, v⟩]) v

@[simp] theorem visited_concat (u : String) (as : List (Arc K)) (a : Arc K) :
    visited u (as ++ [a]) = visited u as ++ [a.head] := by
  simp [visited]

namespace Trace

variable [Exact K] {n : Network K} {labels : List (Label K)} {start v : String} {as : List (Arc K)}

theorem walk (trace : n.Trace labels start as v) : n.Walk start as v := by
  induction trace with
  | start => exact .stay start
  | step _ link ih => exact ih.append (.single link.here link.joins)

theorem costOf_le (origin : find? labels start = some ⟨start, 0, none⟩)
    (trace : n.Trace labels start as v) {l : Label K} (found : find? labels v = some l) :
    costOf as ≤ l.cost := by
  induction trace generalizing l with
  | start =>
    obtain rfl := Option.some.inj (origin.symm.trans found)
    exact le_rfl
  | step _ link ih =>
    obtain rfl := Option.some.inj (link.found.symm.trans found)
    have first := ih link.there
    have follows := link.follows
    simp only [costOf_append, costOf_cons, costOf_nil]
    linarith

/-- There is one way back only. -/
theorem length_unique (trace : n.Trace labels start as v) {bs : List (Arc K)}
    (other : n.Trace labels start bs v) : as.length = bs.length := by
  induction trace generalizing bs with
  | start =>
    cases other with
    | start => rfl
    | step _ link => exact absurd rfl link.apart
  | step _ link ih =>
    cases other with
    | start => exact absurd rfl link.apart
    | step trace' link' =>
      obtain rfl := Option.some.inj (link.found.symm.trans link'.found)
      obtain ⟨rfl, _⟩ := Step.mk.inj (Option.some.inj (link.via.symm.trans link'.via))
      simp [ih trace']

/-- The way back to the start from a node that is passed is no longer. -/
theorem of_mem_visited (trace : n.Trace labels start as v) {w : String}
    (passes : w ∈ visited start as) :
    ∃ bs, n.Trace labels start bs w ∧ bs.length ≤ as.length := by
  induction trace with
  | start =>
    obtain rfl : w = start := by simpa [visited] using passes
    exact ⟨[], .start, le_rfl⟩
  | step trace link ih =>
    rw [visited_concat, List.mem_append, List.mem_singleton] at passes
    rcases passes with passes | rfl
    · obtain ⟨bs, back, shorter⟩ := ih passes
      exact ⟨bs, back, shorter.trans (by simp)⟩
    · exact ⟨_, .step trace link, le_rfl⟩

theorem simple (trace : n.Trace labels start as v) : (visited start as).Nodup := by
  induction trace with
  | start => exact List.nodup_singleton start
  | step trace link ih =>
    rw [visited_concat, List.nodup_append_comm, List.singleton_append, List.nodup_cons]
    refine ⟨?_, ih⟩
    -- If the node were passed before, it would have a way back that is shorter than its own.
    intro again
    obtain ⟨bs, back, shorter⟩ := trace.of_mem_visited again
    have longer := (Trace.step trace link).length_unique back
    simp only [List.length_append, List.length_singleton] at longer
    omega

theorem length_lt (origin : find? labels start = some ⟨start, 0, none⟩)
    (trace : n.Trace labels start as v) : as.length < labels.length := by
  have labelled : visited start as ⊆ labels.map (·.node) := by
    intro w passes
    obtain ⟨bs, back, _⟩ := trace.of_mem_visited passes
    have known : ∃ l, find? labels w = some l := by
      cases back with
      | start => exact ⟨_, origin⟩
      | step _ link => exact ⟨_, link.found⟩
    obtain ⟨l, found⟩ := known
    exact List.mem_map.mpr ⟨l, List.mem_of_find?_eq_some found, node_of_find? found⟩
  exact Nat.lt_of_succ_le (by simpa [visited] using (trace.simple.subperm labelled).length_le)

theorem edgesTo? (trace : n.Trace labels start as v) {fuel : Nat} (enough : as.length ≤ fuel) :
    Label.edgesTo? labels start fuel v = some (as.map (·.edge.id)) := by
  induction trace generalizing fuel with
  | start => cases fuel <;> simp [Label.edgesTo?]
  | @step as u v e before last trace link ih =>
    cases fuel with
    | zero => simp at enough
    | succ fuel =>
      have earlier : Label.edgesTo? labels start fuel u = some (as.map (·.edge.id)) :=
        ih (by simpa using enough)
      simp [Label.edgesTo?, link.apart, link.found, link.via, earlier]

end Trace

/-- Labels on the way of a search: each one tells the cost of a walk, and can be walked back. -/
structure Sound [Exact K] (n : Network K) (start : String) (labels : List (Label K)) : Prop where
  origin : find? labels start = some ⟨start, 0, none⟩
  attained : ∀ v l, find? labels v = some l → ∃ as, n.Walk start as v ∧ costOf as = l.cost
  traced : ∀ v l, find? labels v = some l → ∃ as, n.Trace labels start as v

theorem find?_start [Exact K] {start v : String} {l : Label K}
    (found : Label.find? [⟨start, 0, none⟩] v = some l) : v = start ∧ l = ⟨start, 0, none⟩ := by
  obtain rfl := List.mem_singleton.mp (List.mem_of_find?_eq_some found)
  exact ⟨(Label.node_of_find? found).symm, rfl⟩

theorem sound_start [Exact K] (n : Network K) (start : String) :
    n.Sound start [⟨start, 0, none⟩] where
  origin := by simp [Label.find?]
  attained := by
    intro v l found
    obtain ⟨rfl, rfl⟩ := find?_start found
    exact ⟨[], .stay v, rfl⟩
  traced := by
    intro v l found
    obtain ⟨rfl, rfl⟩ := find?_start found
    exact ⟨[], .start⟩

/-- The arc leaves the node of a label of the search, and gives its end a better one. -/
structure Improves [Exact K] (n : Network K) (labels : List (Label K)) (l : Label K) (a : Arc K) :
    Prop where
  found : find? labels l.node = some l
  here : a.edge ∈ n.edges
  joins : a.edge.Joins l.node a.head
  better : (l.extend a).improves labels

namespace Improves

variable [Exact K] {n : Network K} {labels : List (Label K)} {start : String}
  {l : Label K} {a : Arc K}

theorem cheaper (new : n.Improves labels l a) {old : Label K}
    (known : find? labels a.head = some old) : l.cost + a.edge.cost < old.cost :=
  improves_iff.mp new.better old known

/-- A walk from the end of the arc back to its tail would make a loop of negative cost. -/
theorem not_back (new : n.Improves labels l a) (sound : n.Sound start labels)
    (noCycle : ¬n.HasNegativeCycle start) {old : Label K} (known : find? labels a.head = some old)
    {as : List (Arc K)} (back : n.Walk a.head as l.node) : l.cost < old.cost + costOf as := by
  have negative := new.cheaper known
  -- The end of the arc is in reach, since it has a label.
  obtain ⟨ps, reach, _⟩ := sound.attained a.head old known
  have loop := back.append (.single new.here new.joins)
  have gain : 0 ≤ costOf (as ++ [a]) :=
    not_lt.mp fun less => noCycle ⟨a.head, as ++ [a], ⟨ps, reach⟩, loop, less⟩
  simp only [costOf_append, costOf_cons, costOf_nil] at gain
  linarith

theorem head_ne_node (new : n.Improves labels l a) (sound : n.Sound start labels)
    (noCycle : ¬n.HasNegativeCycle start) : a.head ≠ l.node := by
  intro same
  have back : n.Walk a.head [] l.node := same ▸ .stay a.head
  have less := new.not_back sound noCycle (same ▸ new.found) back
  simp at less

theorem head_ne_start (new : n.Improves labels l a) (sound : n.Sound start labels)
    (noCycle : ¬n.HasNegativeCycle start) : a.head ≠ start := by
  intro same
  obtain ⟨as, walk, cost⟩ := sound.attained l.node l new.found
  have less := new.not_back sound noCycle (same ▸ sound.origin) (same ▸ walk)
  simp [cost] at less

/-- A link to a node that keeps its label stays. -/
theorem exists_link (new : n.Improves labels l a) {u v : String} {e : Edge K}
    {before last : Label K} (link : n.Link labels start u v e before last) (kept : a.head ≠ v) :
    ∃ before', n.Link ((l.extend a).set labels) start u v e before' last := by
  obtain ⟨before', there, cheaper⟩ :=
    refine_set new.better u before.cost ⟨before, link.there, le_rfl⟩
  have found : find? ((l.extend a).set labels) v = some last := by
    rw [find?_set_of_ne kept, link.found]
  have follows : before'.cost + e.cost ≤ last.cost := by linarith [link.follows]
  exact ⟨before', there, found, link.apart, link.via, link.here, link.joins, follows⟩

/-- The way back from a node is left alone by a new label, unless it passes the node of that
label. -/
theorem kept_or_passes (new : n.Improves labels l a) {as : List (Arc K)} {v : String}
    (trace : n.Trace labels start as v) {lv : Label K} (labelled : find? labels v = some lv) :
    (∃ bs, n.Trace ((l.extend a).set labels) start bs v) ∨
      ∃ old bs, find? labels a.head = some old ∧ n.Walk a.head bs v ∧
        old.cost + costOf bs ≤ lv.cost := by
  induction trace generalizing lv with
  | start => exact Or.inl ⟨[], .start⟩
  | @step as u v e before last trace link ih =>
    obtain rfl := Option.some.inj (link.found.symm.trans labelled)
    by_cases renewed : a.head = v
    · subst renewed
      exact Or.inr ⟨last, [], link.found, .stay a.head, by simp⟩
    · -- The link to this node stays, so that it goes as with the node before.
      rcases ih link.there with ⟨bs, back⟩ | ⟨old, bs, known, walk, cost⟩
      · obtain ⟨_, link'⟩ := new.exists_link link renewed
        exact Or.inl ⟨_, .step back link'⟩
      · have on : n.Walk u [⟨e, v⟩] v := .step link.here link.joins (.stay v)
        refine Or.inr ⟨old, _, known, walk.append on, ?_⟩
        have follows := link.follows
        simp only [costOf_append, costOf_cons, costOf_nil]
        linarith

/-- The way back from the new label goes over the tail of the arc, which does not pass the end
of the arc. -/
theorem traced_head (new : n.Improves labels l a) (sound : n.Sound start labels)
    (noCycle : ¬n.HasNegativeCycle start) :
    ∃ as, n.Trace ((l.extend a).set labels) start as a.head := by
  obtain ⟨as, trace⟩ := sound.traced l.node l new.found
  rcases new.kept_or_passes trace new.found with ⟨bs, kept⟩ | ⟨old, bs, known, round, le⟩
  · have there : find? ((l.extend a).set labels) l.node = some l := by
      rw [find?_set_of_ne (new.head_ne_node sound noCycle), new.found]
    have link : n.Link ((l.extend a).set labels) start l.node a.head a.edge l (l.extend a) :=
      ⟨there, find?_set_self (l.extend a) labels, new.head_ne_start sound noCycle, via_extend l a,
        new.here, new.joins, le_rfl⟩
    exact ⟨_, .step kept link⟩
  · exact absurd le (new.not_back sound noCycle known round).not_ge

theorem traced (new : n.Improves labels l a) (sound : n.Sound start labels)
    (noCycle : ¬n.HasNegativeCycle start) {as : List (Arc K)} {v : String}
    (trace : n.Trace labels start as v) :
    ∃ bs, n.Trace ((l.extend a).set labels) start bs v := by
  induction trace with
  | start => exact ⟨[], .start⟩
  | @step as u v e before last trace link ih =>
    by_cases renewed : a.head = v
    · exact renewed ▸ new.traced_head sound noCycle
    · obtain ⟨bs, back⟩ := ih
      obtain ⟨_, link'⟩ := new.exists_link link renewed
      exact ⟨_, .step back link'⟩

end Improves

theorem Sound.set [Exact K] {n : Network K} {labels : List (Label K)} {start : String} {l : Label K}
    {a : Arc K} (sound : n.Sound start labels) (noCycle : ¬n.HasNegativeCycle start)
    (new : n.Improves labels l a) : n.Sound start ((l.extend a).set labels) := by
  constructor
  · rw [find?_set_of_ne (new.head_ne_start sound noCycle)]
    exact sound.origin
  · intro v l' found
    rw [find?_set, node_extend] at found
    split at found
    · rename_i same
      obtain rfl := Option.some.inj found
      obtain ⟨as, walk, cost⟩ := sound.attained l.node l new.found
      exact ⟨as ++ [a], same ▸ walk.append (.single new.here new.joins), by simp [cost]⟩
    · exact sound.attained v l' found
  · intro v l' found
    rw [find?_set, node_extend] at found
    split at found
    · rename_i same
      exact same ▸ new.traced_head sound noCycle
    · obtain ⟨as, trace⟩ := sound.traced v l' found
      exact new.traced sound noCycle trace

end Geospatial.Network
