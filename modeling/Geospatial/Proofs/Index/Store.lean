import Mathlib.Data.Multiset.Bind
import Mathlib.Data.Nat.Cast.Defs
import Geospatial.Index
import Geospatial.Proofs.Geometry.Equality
import Geospatial.Proofs.Index.Removal
import Geospatial.Settings

/-! Operations of an index as changes of the multiset of its items. The count of items is kept
apart from the tree, so that it has to agree with it after every operation. An index is made from
settings in range; and a removal looks for an item below the boxes that contain the item's own box,
so equal items must have equal boxes. -/
namespace Geospatial

namespace Settings

variable {K : Type}

theorem ite_refuse_eq_ok {c : Prop} [Decidable c] {f : SettingFault K} {o : Outcome K Unit} :
    (if c then refuse f else o) = .ok () ↔ ¬c ∧ o = .ok () := by
  split
  · rename_i h
    simp [refuse, h]
  · rename_i h
    simp [h]

theorem check_eq_ok_iff [Scalar K] {s : Settings K} : s.check = .ok () ↔
    (Scalar.isFinite s.earthRadius = true ∧ 0 < s.earthRadius) ∧ 2 ≤ s.nodeCapacity ∧
      (1 ≤ s.leastFill ∧ s.leastFill ≤ leastFillBound s.nodeCapacity) ∧ 3 ≤ s.bufferSteps ∧
      Scalar.within 0 180 s.spikeAngle = true ∧ s.iterationCap ≠ 0 ∧
      Scalar.isFinite s.observerHeight = true := by
  simp only [check, ite_refuse_eq_ok, Bool.not_eq_true', Bool.not_eq_false, Bool.and_eq_true,
    Bool.or_eq_true, decide_eq_true_eq, not_or, Nat.not_lt, and_true, ne_eq]

/-- Settings in range leave room for both halves of an overfull node. -/
theorem limits_of_check [Scalar K] {s : Settings K} (valid : s.check = .ok ()) :
    Index.Node.Limits s.nodeCapacity s.leastFill := by
  obtain ⟨_, two_le, ⟨pos, bound⟩, _⟩ := check_eq_ok_iff.mp valid
  have reduced := Nat.mod_le (s.nodeCapacity + 1) UInt64.size
  rw [leastFillBound] at bound
  exact ⟨two_le, pos, by omega⟩

end Settings

/-- Equal items have equal boxes. -/
class LawfulBounded (K α : Type) [Scalar K] [Bounded K α] [BEq α] : Prop where
  bounds?_beq {x y : α} : (x == y) = true →
    ((Bounded.bounds? x : Option (Bounds K)) == Bounded.bounds? y) = true

section

variable {K : Type} [Scalar K]

instance : LawfulBounded K (Bounds K) where
  bounds?_beq same := by simpa [Bounded.bounds?] using same

instance : LawfulBounded K (Position K) where
  bounds?_beq same := by simpa [Bounded.bounds?] using Bounds.ofPosition_beq same

variable [Scalar.LawfulOrder K]

instance : LawfulBounded K (Geometry K) where
  bounds?_beq := Geometry.bounds?_beq

instance : LawfulBounded K (Feature K) where
  bounds?_beq {f g} same := by
    change f.beq g = true at same
    simp only [Feature.beq, Bool.and_eq_true] at same
    exact Geometry.bounds?_beq same.1.2

end

namespace Index

section Item

variable {K α : Type} [Scalar K] [Bounded K α]

/-- An item that has a finite box. -/
def storable (K : Type) [Scalar K] [Bounded K α] (x : α) : Bool :=
  (Bounded.bounds? x : Option (Bounds K)).any Bounds.isFinite

/-- An item that is not storable, with the fault that says why. -/
inductive Refused (x : α) : Fault K → Prop where
  | unbounded : (Bounded.bounds? x : Option (Bounds K)) = none → Refused x (.input .unboundedItem)
  | nonFinite {b : Bounds K} : Bounded.bounds? x = some b → b.isFinite = false →
      Refused x (.input .nonFiniteItem)

theorem boxOf_eq_ok {x : α} {b : Bounds K} (ok : boxOf x = .ok b) :
    Bounded.bounds? x = some b ∧ b.isFinite = true := by
  rw [boxOf] at ok
  split at ok
  · contradiction
  · rename_i c has
    split at ok
    · rename_i finite
      obtain rfl := Except.ok.inj ok
      exact ⟨has, finite⟩
    · contradiction

theorem boxOf_eq_error {x : α} {f : Fault K} (refused : boxOf x = .error f) : Refused x f := by
  rw [boxOf] at refused
  split at refused
  · rename_i missing
    obtain rfl := Except.error.inj refused
    exact .unbounded missing
  · rename_i b has
    split at refused
    · contradiction
    · rename_i infinite
      obtain rfl := Except.error.inj refused
      exact .nonFinite has (Bool.not_eq_true _ ▸ infinite)

theorem Refused.not_storable {x : α} {f : Fault K} (refused : Refused x f) :
    storable K x = false := by
  cases refused with
  | unbounded missing => rw [storable, missing, Option.any_none]
  | nonFinite has infinite => rw [storable, has, Option.any_some, infinite]

end Item

section Items

variable {K α : Type} [Scalar K]

/-- The items of an index, without their order. -/
def items (t : Index K α) : Multiset α := t.toList

omit [Scalar K] in
theorem contents_root (t : Index K α) : contents t.root = t.entries := by
  rw [entries]
  cases t.root <;> rfl

omit [Scalar K] in
theorem items_eq (t : Index K α) : t.items = (contents t.root).map Entry.item := by
  rw [items, toList, contents_root, Multiset.map_coe]

/-- An index made from settings is empty, within limits that the settings give. -/
theorem ofSettings_eq_ok {s : Settings K} {t : Index K α} (made : ofSettings s = .ok t) :
    Node.Limits s.nodeCapacity s.leastFill ∧ t = ⟨none, 0, s.nodeCapacity, s.leastFill⟩ := by
  rw [ofSettings] at made
  cases valid : s.check with
  | error f =>
    rw [valid] at made
    contradiction
  | ok =>
    rw [valid] at made
    exact ⟨Settings.limits_of_check valid, (Except.ok.inj made).symm⟩

variable [Bounded K α]

/-- What holds of an index between two operations. -/
structure Sound (t : Index K α) : Prop where
  limits : Node.Limits t.capacity t.leastFill
  rooted : Rooted t.capacity t.leastFill t.root
  boxes : ∀ e ∈ contents t.root, Bounded.bounds? e.item = some e.bounds
  size : t.size = t.items.card

theorem sound_of_limits {most fewest : Nat} (limits : Node.Limits most fewest) :
    (⟨none, 0, most, fewest⟩ : Index K α).Sound where
  limits := limits
  rooted := nofun
  boxes := nofun
  size := rfl

theorem sound_empty : (empty : Index K α).Sound :=
  sound_of_limits ⟨by decide, by decide, by decide⟩

theorem refused_of_insert {t : Index K α} {x : α} {f : Fault K} (refused : t.insert x = .error f) :
    Refused x f := by
  rw [insert] at refused
  cases box : (boxOf x : Outcome K (Bounds K)) with
  | ok b =>
    rw [box] at refused
    contradiction
  | error g =>
    rw [box] at refused
    obtain rfl := Except.error.inj refused
    exact boxOf_eq_error box

namespace Sound

variable {t t' : Index K α} {x : α}

theorem clear (sound : t.Sound) : t.clear.Sound := sound_of_limits sound.limits

variable [Scalar.LawfulOrder K]

theorem insert (sound : t.Sound) (stored : t.insert x = .ok t') :
    t'.Sound ∧ storable K x = true ∧ t'.items = x ::ₘ t.items := by
  rw [Index.insert] at stored
  cases box : (boxOf x : Outcome K (Bounds K)) with
  | error f =>
    rw [box] at stored
    contradiction
  | ok b =>
    rw [box] at stored
    obtain rfl := Except.ok.inj stored
    obtain ⟨has, finite⟩ := boxOf_eq_ok box
    obtain ⟨rooted, total⟩ := insertEntry_rooted sound.limits sound.rooted (e := ⟨b, x⟩) finite
    have added : ({ t with
        root := some (insertEntry t.capacity ⟨b, x⟩ t.root), size := t.size + 1 } :
        Index K α).items = x ::ₘ t.items := by
      rw [items_eq, items_eq, total, Multiset.map_cons]
    refine ⟨⟨sound.limits, rooted, ?_, ?_⟩, ?_, added⟩
    · rw [total]
      intro e he
      rcases Multiset.mem_cons.mp he with rfl | he
      · exact has
      · exact sound.boxes e he
    · rw [added, Multiset.card_cons, ← sound.size]
    · rw [storable, has, Option.any_some, finite]

/-- Many items are stored up to the first one that is refused. -/
theorem insertMany {xs : List α} {r : Outcome K Unit} (sound : t.Sound)
    (stored : t.insertMany xs = (t', r)) : t'.Sound ∧
      ((r = .ok () ∧ (∀ x ∈ xs, storable K x = true) ∧ t'.items = t.items + xs) ∨
        ∃ (before : List α) (x : α) (after : List α) (f : Fault K),
          xs = before ++ x :: after ∧ r = .error f ∧ Refused x f ∧
          (∀ y ∈ before, storable K y = true) ∧ t'.items = t.items + before) := by
  induction xs generalizing t with
  | nil =>
    rw [Index.insertMany] at stored
    obtain ⟨rfl, rfl⟩ := Prod.mk.inj stored
    exact ⟨sound, Or.inl ⟨rfl, nofun, (add_zero _).symm⟩⟩
  | cons x xs ih =>
    rw [Index.insertMany] at stored
    cases one : t.insert x with
    | error f =>
      rw [one] at stored
      obtain ⟨rfl, rfl⟩ := Prod.mk.inj stored
      exact ⟨sound, Or.inr ⟨[], x, xs, f, rfl, rfl, refused_of_insert one, nofun,
        (add_zero _).symm⟩⟩
    | ok u =>
      rw [one] at stored
      obtain ⟨soundOne, isStorable, added⟩ := sound.insert one
      have total (ys : List α) : u.items + ys = t.items + (x :: ys : List α) := by
        rw [added, Multiset.cons_add, ← Multiset.add_cons, Multiset.cons_coe]
      obtain ⟨soundAll, all | ⟨before, y, after, f, rfl, rfl, refused, storables, all⟩⟩ :=
        ih soundOne stored
      · obtain ⟨rfl, storables, all⟩ := all
        exact ⟨soundAll, Or.inl ⟨rfl, List.forall_mem_cons.mpr ⟨isStorable, storables⟩,
          all.trans (total xs)⟩⟩
      · exact ⟨soundAll, Or.inr ⟨x :: before, y, after, f, rfl, rfl, refused,
          List.forall_mem_cons.mpr ⟨isStorable, storables⟩, all.trans (total before)⟩⟩

omit [Scalar.LawfulOrder K] in
/-- Steps that store one item, or skip it where it is refused, store all items that are not. -/
theorem foldl_of_step {step : Index K α → α → Index K α}
    (each : ∀ t : Index K α, t.Sound → ∀ x,
      (step t x).Sound ∧ (step t x).items = t.items + ([x].filter (storable K) : List α))
    (sound : t.Sound) (xs : List α) :
    (xs.foldl step t).Sound ∧ (xs.foldl step t).items = t.items + xs.filter (storable K) := by
  induction xs generalizing t with
  | nil => exact ⟨sound, (add_zero _).symm⟩
  | cons x xs ih =>
    obtain ⟨soundOne, one⟩ := each t sound x
    obtain ⟨soundAll, all⟩ := ih soundOne
    refine ⟨soundAll, ?_⟩
    rw [List.foldl_cons, all, one, add_assoc, Multiset.coe_add, ← List.filter_append,
      List.singleton_append]

/-- Collecting skips what is refused. -/
theorem ofList (xs : List α) : (Index.ofList xs : Index K α).Sound ∧
    (Index.ofList xs : Index K α).items = xs.filter (storable K) := by
  have nothing : (empty : Index K α).items = 0 := rfl
  rw [Index.ofList, ← zero_add (xs.filter (storable K) : Multiset α), ← nothing]
  refine foldl_of_step (fun t sound x => ?_) sound_empty xs
  cases one : t.insert x with
  | error f =>
    have skipped : [x].filter (storable K) = [] := by
      rw [List.filter_singleton, (refused_of_insert one).not_storable]
      rfl
    rw [skipped]
    exact ⟨sound, (add_zero _).symm⟩
  | ok u =>
    obtain ⟨soundOne, isStorable, added⟩ := sound.insert one
    have kept : [x].filter (storable K) = [x] := by
      rw [List.filter_singleton, isStorable]
      rfl
    rw [kept, Multiset.coe_singleton, add_comm, Multiset.singleton_add]
    exact ⟨soundOne, added⟩

variable [BEq α]

/-- A removal that succeeds takes out one item, an equal one. -/
theorem remove? (sound : t.Sound) (removed : t.remove? x = some t') :
    t'.Sound ∧ ∃ y, (y == x) = true ∧ t.items = y ::ₘ t'.items := by
  obtain ⟨box, _, removed⟩ := Option.bind_eq_some_iff.mp removed
  obtain ⟨root, here, removed⟩ := Option.bind_eq_some_iff.mp removed
  obtain ⟨reduced, found, removed⟩ := Option.bind_eq_some_iff.mp removed
  obtain rfl := Option.some.inj removed
  obtain ⟨rooted, e, isWanted, taken⟩ :=
    removeRoot_rooted sound.limits (here ▸ sound.rooted) found
  have before : contents t.root = root.contents := by
    rw [here]
    rfl
  rw [← before] at taken
  have items : t.items = e.item ::ₘ ({ t with
      root := reduced.orphans.foldl (fun root e => some (insertEntry t.capacity e root))
        reduced.node.collapse, size := t.size - 1 } : Index K α).items := by
    rw [items_eq, items_eq, taken, Multiset.map_cons]
  refine ⟨⟨sound.limits, rooted, ?_, ?_⟩, e.item, isWanted, items⟩
  · intro d hd
    apply sound.boxes d
    rw [taken]
    exact Multiset.mem_cons_of_mem hd
  · have size := sound.size
    rw [items, Multiset.card_cons] at size
    exact Nat.sub_eq_of_eq_add size

/-- A removal that fails has no equal item to take out. -/
theorem remove?_eq_none [LawfulBounded K α] (sound : t.Sound) (missing : t.remove? x = none) :
    ∀ y ∈ t.items, (y == x) = false := by
  rw [items_eq]
  intro y hy
  obtain ⟨e, he, rfl⟩ := Multiset.mem_map.mp hy
  cases equal : e.item == x with
  | false => rfl
  | true =>
    have same := LawfulBounded.bounds?_beq (K := K) equal
    rw [sound.boxes e he] at same
    cases box : (Bounded.bounds? x : Option (Bounds K)) with
    | none =>
      rw [box] at same
      contradiction
    | some b =>
      rw [box] at same
      cases here : t.root with
      | none =>
        rw [here] at he
        contradiction
      | some root =>
        obtain ⟨h, wf, _⟩ := sound.rooted root here
        rw [here] at he
        have failed : root.remove? t.leastFill b (· == x) = none := by
          cases failed : root.remove? t.leastFill b (· == x) with
          | none => rfl
          | some reduced => simp [Index.remove?, box, here, failed] at missing
        have inSight : e.bounds.contains b = true := Bounds.contains_of_beq same
        rw [← equal]
        exact Node.remove?_eq_none wf failed e he inSight

end Sound

end Items

end Index
end Geospatial
