import Mathlib.Data.List.Nodup
import Mathlib.Data.List.Induction
import Geospatial.Clustering

/-! Labels read one after the other come to the same as a look at all of them. The names are the
labels that occur, in the order in which they do first; the number of a label is its place among the
names, and its members are the indices at which it stands. -/
namespace Geospatial.Clustering

variable {α : Type} [BEq α]

/-- Indices of the elements that carry a label. -/
def membersOf (raw : List (Option α)) (label : α) : List ℕ :=
  (raw.zipIdx.filter fun (l, _) => l == some label).map (·.2)

/-- The labels that occur, in the order in which they do first. -/
def names (labels : List (Option α)) : List α := (labels.filterMap id).eraseDups

/-- The number of a label. -/
def numberOf? (labels : List (Option α)) (l : α) : Option ℕ := (names labels).findIdx? (· == l)

theorem names_concat_none (labels : List (Option α)) :
    names (labels ++ [none]) = names labels := by
  simp [names]

theorem membersOf_concat (labels : List (Option α)) (next : Option α) (l : α) :
    membersOf (labels ++ [next]) l =
      if next == some l then membersOf labels l ++ [labels.length] else membersOf labels l := by
  rw [membersOf, List.zipIdx_append, List.filter_append, List.map_append]
  cases same : next == some l <;> simp [membersOf, same]

variable [LawfulBEq α] {labels : List (Option α)} {l : α} {i : ℕ}

theorem mem_membersOf : i ∈ membersOf labels l ↔ labels[i]? = some (some l) := by
  simp [membersOf, List.mem_zipIdx_iff_getElem?]

theorem nodup_eraseDups : (xs : List α) → xs.eraseDups.Nodup
  | [] => List.nodup_nil
  | x :: xs => by
    have shorter := List.length_filter_le (fun y => !y == x) xs
    rw [List.eraseDups_cons]
    exact List.nodup_cons.mpr ⟨by simp, nodup_eraseDups _⟩
termination_by xs => xs.length
decreasing_by exact Nat.lt_succ_of_le shorter

theorem nodup_names (labels : List (Option α)) : (names labels).Nodup := nodup_eraseDups _

theorem mem_names : l ∈ names labels ↔ some l ∈ labels := by
  simp [names]

theorem names_concat_of_mem (known : some l ∈ labels) :
    names (labels ++ [some l]) = names labels := by
  simp [names, List.eraseDups_append, List.removeAll, known]

theorem names_concat_of_not_mem (new : some l ∉ labels) :
    names (labels ++ [some l]) = names labels ++ [l] := by
  simp [names, List.eraseDups_append, List.removeAll, new, List.eraseDups_cons]

theorem exists_number (here : some l ∈ labels) : ∃ k, numberOf? labels l = some k := by
  apply Option.isSome_iff_exists.mp
  rw [numberOf?, List.findIdx?_isSome, List.any_eq_true]
  exact ⟨l, mem_names.mpr here, beq_self_eq_true l⟩

theorem numberOf?_eq_none (missing : some l ∉ labels) : numberOf? labels l = none := by
  refine List.findIdx?_eq_none_iff.mpr fun m known => ?_
  rw [beq_eq_false_iff_ne]
  rintro rfl
  exact missing (mem_names.mp known)

/-- The number of a label is its place among the names. -/
theorem number_eq_iff {i : ℕ} : numberOf? labels l = some i ↔ (names labels)[i]? = some l := by
  constructor
  · intro numbered
    obtain ⟨inside, same, _⟩ := List.findIdx?_eq_some_iff_getElem.mp numbered
    rw [List.getElem?_eq_getElem inside, eq_of_beq same]
  · intro here
    obtain ⟨j, numbered⟩ := exists_number (mem_names.mp (List.mem_of_getElem? here))
    obtain ⟨inside, same, _⟩ := List.findIdx?_eq_some_iff_getElem.mp numbered
    have again : (names labels)[j]? = (names labels)[i]? := by
      rw [List.getElem?_eq_getElem inside, eq_of_beq same, here]
    rw [numbered, (List.getElem?_inj inside (nodup_names labels)).mp again]

theorem number_injective {m : α} {k : ℕ} (first : numberOf? labels l = some k)
    (second : numberOf? labels m = some k) : l = m :=
  Option.some.inj ((number_eq_iff.mp first).symm.trans (number_eq_iff.mp second))

/-- What is behind a label that has its number already does not change the number. -/
theorem numberOf?_concat_of_mem (known : some l ∈ labels) (next : Option α) :
    numberOf? (labels ++ [next]) l = numberOf? labels l := by
  obtain ⟨k, number⟩ := exists_number known
  have here := number_eq_iff.mp number
  have inside := (List.getElem?_eq_some_iff.mp here).1
  rw [number, number_eq_iff]
  cases next with
  | none => rw [names_concat_none, here]
  | some m =>
    by_cases old : some m ∈ labels
    · rw [names_concat_of_mem old, here]
    · rw [names_concat_of_not_mem old, List.getElem?_append_left inside, here]

namespace Renumbering

/-- What has been read of the labels, as it comes out of all of them. -/
structure ReadOff (labels : List (Option α)) (s : Renumbering α) : Prop where
  numbers : ∀ l, s.numbers.lookup l = numberOf? labels l
  members : s.members = (names labels).map (membersOf labels)
  labels : s.labels = labels.map fun l => l.bind (numberOf? labels)

omit [LawfulBEq α] in
theorem readOff_nil : ReadOff (α := α) [] ⟨[], [], []⟩ := ⟨fun _ => rfl, rfl, rfl⟩

variable {s : Renumbering α}

/-- A label gets the number that it has among all labels up to this one. -/
theorem ReadOff.number (read : s.ReadOff labels) (l : α) : ∃ id s', s.number l = (id, s') ∧
    numberOf? (labels ++ [some l]) l = some id ∧
    (∀ m, s'.numbers.lookup m = numberOf? (labels ++ [some l]) m) ∧
    s'.members = (names (labels ++ [some l])).map (membersOf labels) ∧ s'.labels = s.labels := by
  rw [Renumbering.number, read.numbers]
  by_cases known : some l ∈ labels
  · obtain ⟨id, number⟩ := exists_number known
    have same : numberOf? (labels ++ [some l]) = numberOf? labels := by
      funext m
      rw [numberOf?, names_concat_of_mem known, numberOf?]
    rw [number, same, names_concat_of_mem known]
    exact ⟨id, s, rfl, number, read.numbers, read.members, rfl⟩
  · have length : s.members.length = (names labels).length := by rw [read.members, List.length_map]
    have number : numberOf? (labels ++ [some l]) l = some s.members.length := by
      rw [number_eq_iff, names_concat_of_not_mem known, length]
      exact List.getElem?_concat_length
    have others (m : α) (other : m ≠ l) :
        numberOf? (labels ++ [some l]) m = numberOf? labels m := by
      by_cases old : some m ∈ labels
      · exact numberOf?_concat_of_mem old _
      · rw [numberOf?_eq_none old, numberOf?_eq_none]
        simp [old, other]
    have nothing : membersOf labels l = [] := by
      apply List.eq_nil_iff_forall_not_mem.mpr
      intro i member
      exact known (List.mem_of_getElem? (mem_membersOf.mp member))
    rw [numberOf?_eq_none known]
    refine ⟨_, _, rfl, number, fun m => ?_, ?_, rfl⟩
    · rw [List.lookup_cons]
      by_cases same : m = l
      · rw [same, beq_self_eq_true, number]
      · rw [beq_false_of_ne same, others m same, ← read.numbers]
    · rw [names_concat_of_not_mem known, List.map_append, List.map_singleton, nothing, read.members]

/-- An index goes to the members of its label. -/
theorem modify_membersOf {id : ℕ} (number : numberOf? (labels ++ [some l]) l = some id) :
    ((names (labels ++ [some l])).map (membersOf labels)).modify id (· ++ [labels.length]) =
      (names (labels ++ [some l])).map (membersOf (labels ++ [some l])) := by
  have here := number_eq_iff.mp number
  apply List.ext_getElem?
  intro i
  rw [List.getElem?_modify, List.getElem?_map, List.getElem?_map]
  cases named : (names (labels ++ [some l]))[i]? with
  | none => rfl
  | some m =>
    by_cases same : id = i
    · subst same
      obtain rfl := Option.some.inj (here.symm.trans named)
      simp [membersOf_concat]
    · have other : l ≠ m := by
        rintro rfl
        have again := number_eq_iff.mpr named
        exact same (Option.some.inj (number.symm.trans again))
      simp [membersOf_concat, same, other]

theorem labels_concat (next : Option α) :
    labels.map (fun l => l.bind (numberOf? (labels ++ [next]))) =
      labels.map fun l => l.bind (numberOf? labels) := by
  apply List.map_congr_left
  intro l? here
  cases l? with
  | none => rfl
  | some l => exact numberOf?_concat_of_mem here next

theorem ReadOff.read (read : s.ReadOff labels) (next : Option α) :
    (s.read (next, labels.length)).ReadOff (labels ++ [next]) := by
  cases next with
  | none =>
    have same : numberOf? (labels ++ [none]) = numberOf? labels := by
      funext m
      rw [numberOf?, names_concat_none, numberOf?]
    have members : membersOf (labels ++ [none]) = membersOf labels := by
      funext m
      rw [membersOf_concat]
      rfl
    refine ⟨fun l => ?_, ?_, ?_⟩
    · rw [same]
      exact read.numbers l
    · rw [names_concat_none, members]
      exact read.members
    · rw [List.map_append, same, ← read.labels]
      rfl
  | some l =>
    obtain ⟨id, s', numbered, number, numbers, members, kept⟩ := read.number l
    have after : s.read (some l, labels.length) = { s' with
        members := s'.members.modify id (· ++ [labels.length])
        labels := s'.labels ++ [some id] } := by
      rw [Renumbering.read, numbered]
    rw [after]
    refine ⟨numbers, ?_, ?_⟩
    · rw [members]
      exact modify_membersOf number
    · rw [List.map_append, labels_concat, ← read.labels, kept, List.map_singleton,
        Option.bind_some, number]

/-- One pass over the labels gives each its number, and each number its members. -/
theorem readOff_ofList (labels : List (Option α)) : (ofList labels).ReadOff labels := by
  -- from the end, as a label is read after those before it
  induction labels using List.reverseRecOn with
  | nil => exact readOff_nil
  | append_singleton labels next ih =>
    rw [ofList, List.zipIdx_append, List.foldl_append, Nat.zero_add]
    exact ih.read next

end Renumbering

variable {K : Type} [Scalar K]

/-- The clusters of labels, all at once. -/
theorem ofLabels_eq (points : List (Position K)) (labels : List (Option α)) :
    ofLabels points labels =
      { clusters := (names labels).zipIdx.filterMap fun (l, i) =>
          clusterOf? points i (membersOf labels l)
        labels := labels.map fun l => l.bind (numberOf? labels) } := by
  have read := Renumbering.readOff_ofList labels
  rw [ofLabels, read.members, read.labels, List.zipIdx_map, List.filterMap_map]
  rfl

end Geospatial.Clustering
