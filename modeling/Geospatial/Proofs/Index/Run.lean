import Geospatial.Proofs.Index.Store
import Geospatial.Proofs.Scalar.Double

/-! Runs of an index: commands one after the other, each with its reply. A run starts from an
empty index, made by default or from settings in range. A search finds what a look at every item
finds: below a box that does not meet the query there is nothing to find, since the box contains
every box below it. So an index behaves as a multiset of items. What a command may do is said on
multisets, with the reply that goes with it; the tree, its boxes and the order of the items do not
appear. -/
namespace Geospatial.Index

section Command

inductive Command (α : Type) where
  | insert (x : α)
  | insertMany (xs : List α)
  | remove (x : α)
  | clear
  /-- A new index of all items that are not refused takes the place of the old one. -/
  | collect (xs : List α)

inductive Reply (K : Type) where
  | done
  | refused (f : Fault K)
  | removed
  | absent

variable {K α : Type} [Scalar K]

/-- An index that nothing was put into yet. -/
inductive Initial : Index K α → Prop where
  | empty : Initial empty
  | ofSettings {s : Settings K} {t : Index K α} : ofSettings s = .ok t → Initial t

theorem initial_of_check {s : Settings K} (valid : s.check = .ok ()) :
    Initial (⟨none, 0, s.nodeCapacity, s.leastFill⟩ : Index K α) := by
  apply Initial.ofSettings (s := s)
  rw [ofSettings, valid]
  rfl

variable [Bounded K α] [BEq α]

/-- The index after a command. A command that is refused leaves what it did before that. -/
def perform (t : Index K α) : Command α → Index K α × Reply K
  | .insert x =>
    match t.insert x with
    | .ok t' => (t', .done)
    | .error f => (t, .refused f)
  | .insertMany xs =>
    match t.insertMany xs with
    | (t', .ok ()) => (t', .done)
    | (t', .error f) => (t', .refused f)
  | .remove x =>
    match t.remove? x with
    | some t' => (t', .removed)
    | none => (t, .absent)
  | .clear => (t.clear, .done)
  | .collect xs => (ofList xs, .done)

/-- The index after some commands. -/
def run (t : Index K α) (cs : List (Command α)) : Index K α :=
  cs.foldl (fun t c => (t.perform c).1) t

omit [BEq α] in
theorem Initial.sound {t : Index K α} (initial : Initial t) : t.Sound := by
  cases initial with
  | empty => exact sound_empty
  | ofSettings made =>
    obtain ⟨limits, rfl⟩ := ofSettings_eq_ok made
    exact sound_of_limits limits

omit [Bounded K α] [BEq α] in
theorem Initial.items {t : Index K α} (initial : Initial t) : t.items = 0 := by
  cases initial with
  | empty => rfl
  | ofSettings made =>
    obtain ⟨_, rfl⟩ := ofSettings_eq_ok made
    rfl

namespace Sound

variable [Scalar.LawfulOrder K] {t : Index K α}

/-- One step of a run. -/
theorem perform (sound : t.Sound) (c : Command α) : (t.perform c).1.Sound := by
  cases c with
  | insert x =>
    rw [Index.perform]
    split
    · rename_i stored
      exact (sound.insert stored).1
    · exact sound
  | insertMany xs =>
    rw [Index.perform]
    split
    · rename_i stored
      exact (sound.insertMany stored).1
    · rename_i stored
      exact (sound.insertMany stored).1
  | remove x =>
    rw [Index.perform]
    split
    · rename_i removed
      exact (sound.remove? removed).1
    · exact sound
  | clear => exact sound.clear
  | collect xs => exact (Sound.ofList xs).1

theorem run (sound : t.Sound) (cs : List (Command α)) : (t.run cs).Sound := by
  induction cs generalizing t with
  | nil => exact sound
  | cons c cs ih => exact ih (sound.perform c)

end Sound

end Command

section Search

variable {K α : Type} [Scalar K]

namespace Node

theorem coe_searchAll (query : Bounds K) (cs : List (Node K α)) :
    (searchAll query cs : Multiset (Entry K α)) =
      (cs : Multiset (Node K α)).bind fun c => c.search query := by
  induction cs with
  | nil => rw [searchAll, Multiset.coe_nil, Multiset.coe_nil, Multiset.zero_bind]
  | cons c cs ih =>
    rw [searchAll, ← Multiset.coe_add, ih, ← Multiset.cons_coe, Multiset.cons_bind, add_comm]

variable [Scalar.LawfulOrder K] {most fewest h : Nat}

/-- Nothing that meets the query lies below a box that does not. -/
theorem filter_eq_zero {n : Node K α} (wf : n.WellFormed most fewest h) {query : Bounds K}
    (apart : ¬n.bounds.intersects query = true) :
    n.contents.filter (fun e => e.bounds.intersects query = true) = 0 := by
  apply Multiset.filter_eq_nil.mpr
  intro e he meets
  have covered := wf.leastOver.covers e.bounds (Multiset.mem_map_of_mem _ he)
  exact apart (Bounds.intersects_of_contains covered meets)

theorem coe_search {n : Node K α} (wf : n.WellFormed most fewest h) (query : Bounds K) :
    (n.search query : Multiset (Entry K α)) =
      n.contents.filter (fun e => e.bounds.intersects query = true) := by
  induction wf with
  | @leaf es b bound finite least =>
    have wf : (leaf b es).WellFormed most fewest 1 := .leaf bound finite least
    rw [search]
    split
    · rw [contents_leaf, Multiset.filter_coe]
      simp only [Bool.decide_eq_true]
    · rename_i apart
      rw [filter_eq_zero wf apart, Multiset.coe_nil]
  | @branch cs h b bound fill wf least ih =>
    rw [search]
    split
    · rw [contents_branch, coe_searchAll, Multiset.filter_bind]
      exact Multiset.bind_congr ih
    · rename_i apart
      rw [filter_eq_zero (.branch bound fill wf least) apart, Multiset.coe_nil]

end Node

variable [Scalar.LawfulOrder K] [Bounded K α]

theorem Sound.coe_search {t : Index K α} (sound : t.Sound) {query : Bounds K}
    (finite : query.isFinite = true) : (t.search query : Multiset α) = t.items.filter fun x =>
      (Bounded.bounds? x : Option (Bounds K)).any (·.intersects query) = true := by
  have found : (t.search query : Multiset α) =
      ((contents t.root).filter (fun e => e.bounds.intersects query = true)).map Entry.item := by
    rw [search, if_pos finite, ← Multiset.map_coe]
    cases here : t.root with
    | none => rfl
    | some root =>
      obtain ⟨h, wf, _⟩ := sound.rooted root here
      exact congrArg _ (Node.coe_search wf query)
  rw [found, items_eq, Multiset.filter_map]
  congr 1
  apply Multiset.filter_congr
  intro e he
  rw [Function.comp_apply, sound.boxes e he, Option.any_some]

/-- A search with a finite box finds every item whose own box meets it, as often as the item
is stored, and nothing else. -/
theorem run_search [BEq α] {t₀ : Index K α} (initial : Initial t₀) (cs : List (Command α))
    {query : Bounds K} (finite : query.isFinite = true) :
    ((t₀.run cs).search query : Multiset α) = (t₀.run cs).items.filter fun x =>
      (Bounded.bounds? x : Option (Bounds K)).any (·.intersects query) = true :=
  (initial.sound.run cs).coe_search finite

/-- Below a root with several leaves, two points lie on the sides of the box, one of them
twice. -/
theorem run_search_points :
    let s : Settings Float := { Settings.default with nodeCapacity := 2, leastFill := 1 }
    let t₀ : Index Float (Position Float) := ⟨none, 0, s.nodeCapacity, s.leastFill⟩
    let cs := [.insertMany [⟨0, 0, none⟩, ⟨2, 1, none⟩, ⟨3, 1, none⟩, ⟨2, 1, none⟩, ⟨1, 2, none⟩],
      .remove ⟨3, 1, none⟩]
    let query : Bounds Float := Bounds.ofCorners 1 1 2 2
    Initial t₀ ∧ query.isFinite = true ∧ ((t₀.run cs).search query).length = 3 ∧
      ((t₀.run cs).search query : Multiset (Position Float)) = (t₀.run cs).items.filter fun x =>
        (Bounded.bounds? x : Option (Bounds Float)).any (·.intersects query) = true := by
  intro s t₀ cs query
  have initial : Initial t₀ :=
    initial_of_check (Settings.check_eq_ok_iff.mpr (by decide +kernel))
  have finite : query.isFinite = true := by decide +kernel
  exact ⟨initial, finite, by decide +kernel, run_search initial cs finite⟩

end Search

section Bag

variable {K α : Type} [Scalar K] [Bounded K α] [BEq α]

/-- Commands on a multiset of items. Of several items equal to the one to remove, any may go. -/
inductive Effect : Multiset α → Command α → Reply K → Multiset α → Prop where
  | insert : storable K x = true → Effect s (.insert x) .done (x ::ₘ s)
  | refuse {x : α} {f : Fault K} : Refused x f → Effect s (.insert x) (.refused f) s
  | insertAll : (∀ x ∈ xs, storable K x = true) → Effect s (.insertMany xs) .done (s + ↑xs)
  | insertBefore {x : α} {f : Fault K} : (∀ y ∈ before, storable K y = true) → Refused x f →
      Effect s (.insertMany (before ++ x :: after)) (.refused f) (s + ↑before)
  | remove : (y == x) = true → Effect (y ::ₘ s) (.remove x) .removed s
  | miss : (∀ y ∈ s, (y == x) = false) → Effect s (.remove x) .absent s
  | clear : Effect s .clear .done 0
  | collect : Effect s (.collect xs) .done ↑(xs.filter (storable K))

/-- A command changes the items as it changes a multiset, and the count of items with them. An
item that is refused and a removal without success leave the index as it was. -/
structure ActsAsBag (t : Index K α) (c : Command α) : Prop where
  effect : Effect t.items c (t.perform c).2 (t.perform c).1.items
  size : (t.perform c).1.size = (t.perform c).1.toList.length
  refused : ∀ x f, c = .insert x → (t.perform c).2 = .refused f → (t.perform c).1 = t
  absent : (t.perform c).2 = .absent → (t.perform c).1 = t

theorem perform_of_refused {t : Index K α} {x : α} {f : Fault K}
    (refused : (t.perform (.insert x)).2 = .refused f) : (t.perform (.insert x)).1 = t := by
  rw [perform] at refused ⊢
  split at refused
  · contradiction
  · rfl

theorem perform_of_absent {t : Index K α} {c : Command α} (absent : (t.perform c).2 = .absent) :
    (t.perform c).1 = t := by
  cases c with
  | insert x =>
    rw [perform] at absent
    split at absent <;> contradiction
  | insertMany xs =>
    rw [perform] at absent
    split at absent <;> contradiction
  | remove x =>
    rw [perform] at absent ⊢
    split at absent
    · contradiction
    · rfl
  | clear => contradiction
  | collect xs => contradiction

variable [Scalar.LawfulOrder K]

theorem Sound.effect [LawfulBounded K α] {t : Index K α} (sound : t.Sound) (c : Command α) :
    Effect t.items c (t.perform c).2 (t.perform c).1.items := by
  cases c with
  | insert x =>
    rw [Index.perform]
    split
    · rename_i stored
      obtain ⟨_, isStorable, added⟩ := sound.insert stored
      rw [added]
      exact .insert isStorable
    · rename_i refused
      exact .refuse (refused_of_insert refused)
  | insertMany xs =>
    rw [Index.perform]
    split
    · rename_i stored
      obtain ⟨_, ⟨_, storables, added⟩ | ⟨_, _, _, _, _, ok, _⟩⟩ := sound.insertMany stored
      · rw [added]
        exact .insertAll storables
      · contradiction
    · rename_i stored
      obtain ⟨_, ⟨ok, _⟩ | ⟨before, x, after, f, rfl, same, refused, storables, added⟩⟩ :=
        sound.insertMany stored
      · contradiction
      · obtain rfl := Except.error.inj same
        rw [added]
        exact .insertBefore storables refused
  | remove x =>
    rw [Index.perform]
    split
    · rename_i removed
      obtain ⟨_, y, equal, taken⟩ := sound.remove? removed
      rw [taken]
      exact .remove equal
    · rename_i missing
      exact .miss (sound.remove?_eq_none missing)
  | clear => exact .clear
  | collect xs =>
    rw [Index.perform, (Sound.ofList xs).2]
    exact .collect

/-- Every command of every run acts on a multiset of items, which is empty at first. -/
theorem run_actsAsBag [LawfulBounded K α] {t₀ : Index K α} (initial : Initial t₀) :
    (t₀.toList = [] ∧ t₀.size = 0) ∧
      ∀ (cs : List (Command α)) (c : Command α), (t₀.run cs).ActsAsBag c := by
  constructor
  · have nothing := initial.items
    have size := initial.sound.size
    rw [nothing, Multiset.card_zero] at size
    exact ⟨(Multiset.coe_eq_zero _).mp nothing, size⟩
  · intro cs c
    have sound := initial.sound.run cs
    exact {
      effect := sound.effect c
      size := (sound.perform c).size
      refused := by
        rintro x f rfl refused
        exact perform_of_refused refused
      absent := perform_of_absent }

/-- Three points below a root with two leaves, one of which a removal leaves empty. -/
theorem run_actsAsBag_points :
    let s : Settings Float := { Settings.default with nodeCapacity := 2, leastFill := 1 }
    let t₀ : Index Float (Position Float) := ⟨none, 0, s.nodeCapacity, s.leastFill⟩
    let cs := [.insertMany [⟨0, 0, none⟩, ⟨4, 1, none⟩, ⟨8, 2, none⟩]]
    Initial t₀ ∧ (t₀.run cs).stats.leaves = 2 ∧
      (t₀.run cs).ActsAsBag (.remove ⟨0, 0, none⟩) := by
  intro s t₀ cs
  have initial : Initial t₀ :=
    initial_of_check (Settings.check_eq_ok_iff.mpr (by decide +kernel))
  exact ⟨initial, by decide +kernel, (run_actsAsBag initial).2 cs _⟩

end Bag

end Geospatial.Index
