import Mathlib.Data.List.Nodup
import Geospatial.Clustering.Agglomeration
import Geospatial.Proofs.Order
import Geospatial.Proofs.Outcome

/-! Merging told by its groups. A group has its members and goes by an index, under which the table
has its distances. What is updated in place tells just this: the active indices are those of the
groups, with their sizes, their points and their distances from each other. -/
namespace Geospatial.Clustering

variable {K : Type}

/-- Points joined so far; the group goes by one of its members in the table of distances. -/
structure Group where
  index : ℕ
  members : List ℕ

/-- Average distances between groups, by their indices. -/
structure Linkage (K : Type) where
  table : Array (Array K)

/-- Groups in the order of their indices, and their distances. -/
structure Grouping (K : Type) where
  groups : List Group
  linkage : Linkage K

/-- The group of the members of two, by the name of the first one. -/
def Group.union (a b : Group) : Group := { a with members := a.members ++ b.members }

theorem Group.union_index (a b : Group) : (a.union b).index = a.index := rfl

section

variable [Scalar K]

namespace Linkage

/-- A square table of `n` rows. -/
def ofFn (n : ℕ) (f : ℕ → ℕ → K) : Linkage K :=
  ⟨Array.ofFn fun r : Fin n => Array.ofFn fun c : Fin n => f r c⟩

def get (t : Linkage K) (r c : ℕ) : K := (t.table.getD r #[]).getD c 0

/-- Distance of any group from the union of two, by their sizes. -/
def mergedDistance (t : Linkage K) (a b : Group) (other : ℕ) : K :=
  let na : K := (a.members.length : K)
  let nb : K := (b.members.length : K)
  (na * t.get a.index other + nb * t.get b.index other) / (na + nb)

/-- The table after `a` has taken in `b`. -/
def merge (t : Linkage K) (a b : Group) : Linkage K :=
  ofFn t.table.size fun r c =>
    if r = a.index then t.mergedDistance a b c
    else if c = a.index then t.mergedDistance a b r
    else t.get r c

theorem get_ofFn {n r c : ℕ} (f : ℕ → ℕ → K) (hr : r < n) (hc : c < n) :
    (ofFn n f).get r c = f r c := by
  simp [ofFn, get, hr, hc]

end Linkage

namespace Grouping

/-- The first pair of groups at the least finite distance. -/
def closest? (g : Grouping K) : Option (Group × Group) :=
  let distance (p : Group × Group) : K := g.linkage.get p.1.index p.2.index
  Order.least? (Order.on distance Scalar.order)
    ((Order.couples g.groups).filter fun p => Scalar.isFinite (distance p))

/-- Joins the second group to the first one. -/
def join (g : Grouping K) (a b : Group) : Grouping K where
  groups := (g.groups.filter fun c => c.index != b.index).map fun c =>
    if c.index = a.index then a.union b else c
  linkage := g.linkage.merge a b

/-- Joins the closest groups, as many times as asked for. -/
def reduce (signal : Signal) : ℕ → Grouping K → Outcome K (Grouping K)
  | 0, g => .ok g
  | times + 1, g => do
    signal.check
    match g.closest? with
    | some (a, b) => reduce signal times (g.join a b)
    | none => return g

end Grouping

end

/-- Each point on its own. -/
def singletons (distance : Position K → Position K → K) (points : List (Position K)) :
    Grouping K where
  groups := (List.range points.length).map fun i => ⟨i, [i]⟩
  linkage := ⟨(points.map fun p => (points.map (distance p)).toArray).toArray⟩

/-- The index of the group that a point is in. -/
def Grouping.groupOf? (g : Grouping K) (i : ℕ) : Option ℕ :=
  (g.groups.find? fun c => c.members.contains i).map (·.index)

section Join

variable [Scalar K] {g : Grouping K} {a b : Group}

/-- Two groups give way to their union. The other groups stay and go by other names. -/
structure Joining (g : Grouping K) (a b : Group) (rest : List Group) : Prop where
  before : g.groups.Perm (a :: b :: rest)
  after : (g.join a b).groups.Perm (a.union b :: rest)
  notLeft : ∀ c ∈ rest, a.index ≠ c.index
  notRight : ∀ c ∈ rest, b.index ≠ c.index
  distinct : rest.Pairwise fun c d => c.index ≠ d.index

theorem exists_joining (distinct : g.groups.Pairwise fun a b => a.index ≠ b.index)
    (ha : a ∈ g.groups) (hb : b ∈ g.groups) (apart : a.index ≠ b.index) :
    ∃ rest, Joining g a b rest := by
  obtain ⟨before, after, split⟩ := List.append_of_mem ha
  have first : g.groups.Perm (a :: (before ++ after)) := by
    rw [split]
    exact List.perm_middle
  have hb : b ∈ before ++ after :=
    (List.mem_cons.mp (first.mem_iff.mp hb)).resolve_left fun same => apart (same ▸ rfl)
  obtain ⟨before', after', split'⟩ := List.append_of_mem hb
  have perm : g.groups.Perm (a :: b :: (before' ++ after')) := by
    apply first.trans (List.Perm.cons a _)
    rw [split']
    exact List.perm_middle
  generalize before' ++ after' = rest at perm
  obtain ⟨notLeft, others⟩ := List.pairwise_cons.mp ((perm.pairwise_iff Ne.symm).mp distinct)
  obtain ⟨notRight, distinct⟩ := List.pairwise_cons.mp others
  have notLeft (c : Group) (hc : c ∈ rest) := notLeft c (List.mem_cons_of_mem b hc)
  have kept : (a :: b :: rest).filter (fun c => c.index != b.index) = a :: rest := by
    rw [List.filter_cons_of_pos (by simpa using apart), List.filter_cons_of_neg (by simp),
      List.filter_eq_self.mpr fun c hc => by simpa using (notRight c hc).symm]
  have still : (rest.map fun c => if c.index = a.index then a.union b else c) = rest := by
    apply (List.map_congr_left _).trans (List.map_id rest)
    intro c hc
    exact if_neg (notLeft c hc).symm
  have joined : (g.join a b).groups.Perm (a.union b :: rest) := by
    have after := (perm.filter fun c => c.index != b.index).map fun c =>
      if c.index = a.index then a.union b else c
    rwa [kept, List.map_cons, if_pos rfl, still] at after
  exact ⟨rest, perm, joined, notLeft, notRight, distinct⟩

namespace Joining

variable {rest : List Group} {c : Group} (joining : Joining g a b rest)
include joining

theorem left : a ∈ g.groups := joining.before.mem_iff.mpr List.mem_cons_self

theorem right : b ∈ g.groups :=
  joining.before.mem_iff.mpr (List.mem_cons_of_mem a List.mem_cons_self)

theorem kept (hc : c ∈ rest) : c ∈ g.groups :=
  joining.before.mem_iff.mpr (List.mem_cons_of_mem a (List.mem_cons_of_mem b hc))

theorem mem_join : c ∈ (g.join a b).groups ↔ c = a.union b ∨ c ∈ rest :=
  joining.after.mem_iff.trans List.mem_cons

theorem length_join : (g.join a b).groups.length + 1 = g.groups.length := by
  rw [joining.after.length_eq, joining.before.length_eq]
  rfl

end Joining

end Join

section Table

variable {m : Merging K} {n i j r c : ℕ}

/-- The table has as many columns in each row as it has rows. -/
structure Merging.Square (n : ℕ) (m : Merging K) : Prop where
  height : m.table.size = n
  width : ∀ r < n, (m.table.getD r #[]).size = n

namespace Merging

theorem Square.write (square : m.Square n) (r c : ℕ) (v : K) : (m.write r c v).Square n where
  height := by simp [Merging.write, square.height]
  width r' hr := by
    have width := square.width r' hr
    have inside : r' < m.table.size := square.height ▸ hr
    simp only [Merging.write, Array.getD_eq_getD_getElem?, Array.getElem?_modify] at width ⊢
    by_cases same : r = r' <;> simp_all

variable [Scalar K]

theorem get_write (square : m.Square n) (hr : r < n) (hc : c < n) (v : K) (r' c' : ℕ) :
    (m.write r c v).get r' c' = if r' = r ∧ c' = c then v else m.get r' c' := by
  have width := square.width r hr
  have inside : r < m.table.size := square.height ▸ hr
  simp only [get, write, Array.getD_eq_getD_getElem?, Array.getElem?_modify] at width ⊢
  by_cases row : r = r'
  · subst row
    by_cases column : c = c'
    · simp_all
    · simp_all [Ne.symm column]
  · simp [row, Ne.symm row]

theorem Square.relink (square : m.Square n) (i j other : ℕ) : (m.relink i j other).Square n :=
  (square.write ..).write ..

/-- One entry changes, and the one across the diagonal. -/
theorem get_relink (square : m.Square n) (hi : i < n) {other : ℕ} (ho : other < n) (r c : ℕ) :
    (relink i j m other).get r c =
      if r = i ∧ c = other ∨ r = other ∧ c = i then m.mergedDistance i j other
      else m.get r c := by
  rw [Merging.relink, get_write (square.write ..) ho hi, get_write square hi ho]
  by_cases first : r = i ∧ c = other <;> by_cases second : r = other ∧ c = i <;>
    simp [first, second]

theorem mergedDistance_relink (square : m.Square n) (hi : i < n) (apart : j ≠ i) {o other : ℕ}
    (ho : o < n) (notRight : o ≠ j) (distinct : other ≠ o) (away : other ≠ i) :
    (relink i j m o).mergedDistance i j other = m.mergedDistance i j other := by
  have sizes : (relink i j m o).sizes = m.sizes := rfl
  have left : (relink i j m o).get i other = m.get i other := by
    rw [get_relink square hi ho, if_neg (by simp [distinct, away])]
  have right : (relink i j m o).get j other = m.get j other := by
    rw [get_relink square hi ho, if_neg (by simp [apart, distinct, notRight.symm])]
  rw [mergedDistance, mergedDistance, sizes, left, right]

/-- All distances from a union are worked out from the table as it was before. -/
theorem get_foldl_relink (square : m.Square n) (hi : i < n) (apart : j ≠ i) {others : List ℕ}
    (distinct : others.Nodup) (inside : ∀ o ∈ others, o < n ∧ o ≠ i ∧ o ≠ j) (r c : ℕ) :
    (others.foldl (relink i j) m).get r c =
      if r = i ∧ c ∈ others then m.mergedDistance i j c
      else if c = i ∧ r ∈ others then m.mergedDistance i j r
      else m.get r c := by
  induction others generalizing m with
  | nil => simp
  | cons o others ih =>
    obtain ⟨fresh, distinct⟩ := List.nodup_cons.mp distinct
    obtain ⟨⟨ho, notLeft, notRight⟩, inside⟩ := List.forall_mem_cons.mp inside
    have later {other : ℕ} (mem : other ∈ others) :
        (relink i j m o).mergedDistance i j other = m.mergedDistance i j other :=
      mergedDistance_relink square hi apart ho notRight
        (fun same => fresh (same ▸ mem)) (inside other mem).2.1
    rw [List.foldl_cons, ih (square.relink i j o) distinct inside, get_relink square hi ho]
    -- an entry is written for the first group, for one of the later groups, or for none of them
    have away : i ∉ others := fun mem => (inside i mem).2.1 rfl
    grind

theorem Square.foldl_relink (square : m.Square n) (i j : ℕ) (others : List ℕ) :
    (others.foldl (Merging.relink i j) m).Square n := by
  induction others generalizing m with
  | nil => exact square
  | cons o others ih => exact ih (square.relink i j o)

theorem foldl_relink_eq (i j : ℕ) (others : List ℕ) : others.foldl (relink i j) m =
    { m with table := (others.foldl (relink i j) m).table } := by
  induction others generalizing m with
  | nil => rfl
  | cons o others ih =>
    rw [List.foldl_cons, ih]
    rfl

theorem join_eq (m : Merging K) (i j : ℕ) : m.join i j = {
    table := ((m.live.filter fun other => other != i && other != j).foldl (relink i j) m).table
    sizes := m.sizes.setIfInBounds i (m.sizes.getD i 0 + m.sizes.getD j 0)
    active := m.active.setIfInBounds j false
    assignment := m.assignment.map fun a => if a = j then i else a } := by
  rw [join, foldl_relink_eq]

theorem live_join (m : Merging K) (i j : ℕ) :
    (m.join i j).live = m.live.filter fun c => c != j := by
  have active : (m.join i j).active = m.active.setIfInBounds j false := by rw [join_eq]
  simp only [live, active, Array.size_setIfInBounds, List.filter_filter]
  refine List.filter_congr fun c hc => ?_
  have inside : c < m.active.size := List.mem_range.mp hc
  simp only [Array.getD_eq_getD_getElem?, Array.getElem?_setIfInBounds]
  by_cases same : j = c
  · simp [same, inside]
  · simp [same, Ne.symm same]

theorem Square.join (square : m.Square n) (i j : ℕ) : (m.join i j).Square n := by
  have kept := square.foldl_relink i j (m.live.filter fun other => other != i && other != j)
  rw [join_eq]
  exact ⟨kept.height, kept.width⟩

theorem get_join (square : m.Square n) (hi : i < n) (apart : j ≠ i) (inside : ∀ c ∈ m.live, c < n)
    (r c : ℕ) : (m.join i j).get r c =
      if r = i ∧ c ∈ m.live ∧ c ≠ i ∧ c ≠ j then m.mergedDistance i j c
      else if c = i ∧ r ∈ m.live ∧ r ≠ i ∧ r ≠ j then m.mergedDistance i j r
      else m.get r c := by
  have distinct : m.live.Nodup := List.nodup_range.filter _
  have others {o : ℕ} : o ∈ m.live.filter (fun other => other != i && other != j) ↔
      o ∈ m.live ∧ o ≠ i ∧ o ≠ j := by simp [List.mem_filter]
  have written := get_foldl_relink square hi apart (distinct.filter _)
    (fun o ho => ⟨inside o (others.mp ho).1, (others.mp ho).2⟩) r c
  simp only [others] at written
  rw [join_eq]
  exact written

end Merging

end Table

section Tracks

variable [Scalar K] {m : Merging K} {g : Grouping K} {n : ℕ} {a b : Group}

/-- The state that is updated in place tells the groups. Of the table, only the distances of
groups from others are told. -/
structure Tracks (n : ℕ) (m : Merging K) (g : Grouping K) : Prop where
  square : m.Square n
  counted : m.sizes.size = n
  switched : m.active.size = n
  assigned : m.assignment.size = n
  tabled : g.linkage.table.size = n
  live : m.live = g.groups.map (·.index)
  sizes : ∀ c ∈ g.groups, m.sizes.getD c.index 0 = c.members.length
  members : ∀ c ∈ g.groups, ∀ i, i ∈ c.members ↔ m.assignment[i]? = some c.index
  linked : ∀ c ∈ g.groups, ∀ d ∈ g.groups, c.index ≠ d.index →
    m.get c.index d.index = g.linkage.get c.index d.index

namespace Tracks

variable (tracks : Tracks n m g)
include tracks

theorem distinct : g.groups.Pairwise fun a b => a.index ≠ b.index := by
  refine List.pairwise_map.mp (tracks.live ▸ ?_)
  exact List.nodup_range.filter _

theorem inside_live {i : ℕ} (hi : i ∈ m.live) : i < n :=
  tracks.switched ▸ List.mem_range.mp (List.mem_filter.mp hi).1

theorem inside {c : Group} (hc : c ∈ g.groups) : c.index < n :=
  tracks.inside_live (tracks.live ▸ List.mem_map_of_mem hc)

/-- The same groups are the closest ones. -/
theorem closest? : m.closest? = g.closest?.map fun p => (p.1.index, p.2.index) := by
  have entry {p : Group × Group} (hp : p ∈ Order.couples g.groups) :
      m.get p.1.index p.2.index = g.linkage.get p.1.index p.2.index := by
    obtain ⟨hc, hd, apart⟩ := Order.of_mem_couples tracks.distinct hp
    exact tracks.linked _ hc _ hd apart
  have measured : ((Order.couples m.live).filter fun p => Scalar.isFinite (m.get p.1 p.2)) =
      ((Order.couples g.groups).filter fun p =>
        Scalar.isFinite (g.linkage.get p.1.index p.2.index)).map
          (Prod.map Group.index Group.index) := by
    rw [tracks.live, ← Order.map_couples, List.filter_map]
    congr 1
    refine List.filter_congr fun p hp => ?_
    simp only [Function.comp_apply, Prod.map_fst, Prod.map_snd, entry hp]
  rw [Merging.closest?, measured]
  refine Order.least?_map fun p hp q hq => ?_
  simp only [Order.on, Prod.map_fst, Prod.map_snd, entry (List.mem_of_mem_filter hp),
    entry (List.mem_of_mem_filter hq)]

theorem mergedDistance (ha : a ∈ g.groups) (hb : b ∈ g.groups) {c : Group} (hc : c ∈ g.groups)
    (notLeft : a.index ≠ c.index) (notRight : b.index ≠ c.index) :
    m.mergedDistance a.index b.index c.index = g.linkage.mergedDistance a b c.index := by
  rw [Merging.mergedDistance, Linkage.mergedDistance, tracks.sizes a ha, tracks.sizes b hb,
    tracks.linked a ha c hc notLeft, tracks.linked b hb c hc notRight]

omit tracks in
theorem indices_join (g : Grouping K) (a b : Group) : (g.join a b).groups.map (·.index) =
    (g.groups.map (·.index)).filter fun i => i != b.index := by
  rw [Grouping.join, List.map_map, List.filter_map]
  refine List.map_congr_left fun c _ => ?_
  by_cases same : c.index = a.index <;> simp [same, Group.union_index]

section Join

variable {rest : List Group} (joining : Joining g a b rest)
include joining

theorem sizes_join {c : Group} (hc : c ∈ (g.join a b).groups) :
    (m.join a.index b.index).sizes.getD c.index 0 = c.members.length := by
  have first : a.index < m.sizes.size := by
    rw [tracks.counted]
    exact tracks.inside joining.left
  rw [Merging.join_eq, Array.getD_eq_getD_getElem?, Array.getElem?_setIfInBounds]
  rcases joining.mem_join.mp hc with rfl | hc
  · rw [Group.union_index, if_pos rfl, if_pos first, Option.getD_some,
      tracks.sizes a joining.left, tracks.sizes b joining.right, Group.union, List.length_append]
  · rw [if_neg (joining.notLeft c hc), ← Array.getD_eq_getD_getElem?,
      tracks.sizes c (joining.kept hc)]

theorem members_join {c : Group} (hc : c ∈ (g.join a b).groups) (i : ℕ) :
    i ∈ c.members ↔ (m.join a.index b.index).assignment[i]? = some c.index := by
  have before {c : Group} (hc : c ∈ g.groups) := tracks.members c hc i
  rw [Merging.join_eq, Array.getElem?_map]
  rcases joining.mem_join.mp hc with rfl | hc
  · rw [Group.union, List.mem_append, before joining.left, before joining.right]
    cases m.assignment[i]? <;> grind
  · rw [before (joining.kept hc)]
    have left := joining.notLeft c hc
    have right := joining.notRight c hc
    cases m.assignment[i]? <;> grind

theorem inside_join {c : Group} (hc : c ∈ (g.join a b).groups) : c.index < n := by
  rcases joining.mem_join.mp hc with rfl | hc
  · exact tracks.inside (c := a) joining.left
  · exact tracks.inside (joining.kept hc)

theorem linked_join (apart : a.index ≠ b.index) {c d : Group} (hc : c ∈ (g.join a b).groups)
    (hd : d ∈ (g.join a b).groups) (distinct : c.index ≠ d.index) :
    (m.join a.index b.index).get c.index d.index = (g.join a b).linkage.get c.index d.index := by
  have live {c : Group} (hc : c ∈ rest) :
      c.index ∈ m.live ∧ c.index ≠ a.index ∧ c.index ≠ b.index :=
    ⟨tracks.live ▸ List.mem_map_of_mem (joining.kept hc), (joining.notLeft c hc).symm,
      (joining.notRight c hc).symm⟩
  have merged {c : Group} (hc : c ∈ rest) := tracks.mergedDistance joining.left joining.right
    (joining.kept hc) (joining.notLeft c hc) (joining.notRight c hc)
  have bound {c : Group} (hc : c ∈ (g.join a b).groups) : c.index < g.linkage.table.size :=
    tracks.tabled.symm ▸ tracks.inside_join joining hc
  rw [Merging.get_join tracks.square (tracks.inside joining.left) apart.symm
      fun c hc => tracks.inside_live hc,
    Grouping.join, Linkage.merge, Linkage.get_ofFn _ (bound hc) (bound hd)]
  rcases joining.mem_join.mp hc with rfl | hc
  · have hd := (joining.mem_join.mp hd).resolve_left fun same => distinct (same ▸ rfl)
    rw [if_pos ⟨rfl, live hd⟩, Group.union_index, if_pos rfl, merged hd]
  · have below := live hc
    rw [if_neg fun same => below.2.1 same.1, if_neg below.2.1]
    rcases joining.mem_join.mp hd with rfl | hd
    · rw [if_pos ⟨rfl, below⟩, Group.union_index, if_pos rfl, merged hc]
    · rw [if_neg fun same => (live hd).2.1 same.1, if_neg (live hd).2.1]
      exact tracks.linked c (joining.kept hc) d (joining.kept hd) distinct

end Join

/-- Joining two groups in place joins them. -/
theorem join (ha : a ∈ g.groups) (hb : b ∈ g.groups) (apart : a.index ≠ b.index) :
    Tracks n (m.join a.index b.index) (g.join a b) := by
  obtain ⟨rest, joining⟩ := exists_joining tracks.distinct ha hb apart
  exact {
    square := tracks.square.join ..
    counted := by simp [Merging.join_eq, tracks.counted]
    switched := by simp [Merging.join_eq, tracks.switched]
    assigned := by simp [Merging.join_eq, tracks.assigned]
    tabled := Array.size_ofFn.trans tracks.tabled
    live := by rw [Merging.live_join, tracks.live, indices_join]
    sizes := fun _ hc => tracks.sizes_join joining hc
    members := fun _ hc => tracks.members_join joining hc
    linked := fun _ hc _ hd => tracks.linked_join joining apart hc hd }

/-- Merging in place takes the groups through the same joins. -/
theorem reduce {s : Signal} {times : ℕ} {final : Grouping K}
    (ran : g.reduce s times = .ok final) :
    ∃ m', m.reduce s times = .ok m' ∧ Tracks n m' final := by
  induction times generalizing m g with
  | zero =>
    obtain rfl := Except.ok.inj ran
    exact ⟨m, rfl, tracks⟩
  | succ times ih =>
    rw [Grouping.reduce] at ran
    rw [Merging.reduce, tracks.closest?]
    cases checked : s.check (K := K) with
    | error fault =>
      rw [checked] at ran
      contradiction
    | ok =>
      rw [checked] at ran
      cases chosen : g.closest? with
      | none =>
        rw [chosen] at ran
        obtain rfl := Except.ok.inj ran
        exact ⟨m, rfl, tracks⟩
      | some p =>
        rw [chosen] at ran
        have couple := List.mem_of_mem_filter (Order.mem_of_least? chosen)
        obtain ⟨ha, hb, apart⟩ := Order.of_mem_couples tracks.distinct couple
        exact ih (tracks.join ha hb apart) ran

end Tracks

theorem tracks_singletons (distance : Position K → Position K → K) (points : List (Position K)) :
    Tracks points.length (.start (singletons distance points).linkage.table)
      (singletons distance points) where
  square := ⟨by simp [Merging.start, singletons], fun r hr => by
    simp [Merging.start, singletons, hr]⟩
  counted := by simp [Merging.start, singletons]
  switched := by simp [Merging.start, singletons]
  assigned := by simp [Merging.start, singletons]
  tabled := by simp [singletons]
  live := by
    simp only [Merging.live, Merging.start, singletons, List.size_toArray, List.length_map,
      Array.size_replicate, List.map_map, Function.comp_def, List.map_id']
    refine List.filter_eq_self.mpr fun i hi => ?_
    simp [Array.getD_eq_getD_getElem?, List.mem_range.mp hi]
  sizes c hc := by
    obtain ⟨i, hi, rfl⟩ := List.mem_map.mp hc
    simp [Merging.start, singletons, List.mem_range.mp hi]
  members c hc j := by
    obtain ⟨i, hi, rfl⟩ := List.mem_map.mp hc
    have inside := List.mem_range.mp hi
    simp only [Merging.start, singletons, List.mem_singleton, Array.getElem?_range, List.size_toArray,
      List.length_map]
    by_cases same : j = i
    · simp [same, inside]
    · simp [same]
  linked _ _ _ _ _ := rfl

end Tracks

end Geospatial.Clustering
