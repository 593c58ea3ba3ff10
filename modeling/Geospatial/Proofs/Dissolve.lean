import Geospatial.Proofs.Forest
import Geospatial.Proofs.Hull.Ring
import Geospatial.Proofs.Outcome
import Geospatial.Proofs.Relation.Laws
import Geospatial.Proofs.Scalar.Double
import Geospatial.Dissolve

/-! Polygons that are merged where they meet. The groups are the components of the graph whose edges
are the meeting pairs, in the order of their first members; a member that meets no other one stays as
it is, and the members of a larger group give their convex hull. -/
namespace Geospatial.Dissolve

section GroupBy

variable {α β : Type} [BEq β] [LawfulBEq β] {key : α → β} {xs group : List α}

theorem mem_groupBy : group ∈ groupBy key xs ↔ ∃ x ∈ xs, xs.filter (key · == key x) = group := by
  simp [groupBy, List.mem_eraseDups]

/-- The first group has all with the key of the first element; the others are groups of the rest. -/
theorem groupBy_cons (key : α → β) (x : α) (xs : List α) : groupBy key (x :: xs) =
    (x :: xs.filter (key · == key x)) :: groupBy key (xs.filter fun y => !key y == key x) := by
  simp only [groupBy, List.map_cons, List.eraseDups_cons, List.filter_map, Function.comp_def,
    List.filter_cons_of_pos, beq_self_eq_true]
  refine congrArg₂ _ rfl (List.map_congr_left fun k mem => ?_)
  obtain ⟨y, hy, rfl⟩ := List.mem_map.mp (List.mem_eraseDups.mp mem)
  have other : key y ≠ key x := by simpa using (List.mem_filter.mp hy).2
  rw [List.filter_cons_of_neg (by simpa using other.symm), List.filter_filter]
  refine List.filter_congr fun z _ => ?_
  by_cases same : key z = key y <;> simp [same, other]

/-- The groups have each element once. -/
theorem flatten_groupBy_perm (key : α → β) (xs : List α) : (groupBy key xs).flatten.Perm xs := by
  induction h : xs.length using Nat.strongRecOn generalizing xs with
  | ind m ih =>
    cases xs with
    | nil => exact .nil
    | cons x xs =>
      rw [groupBy_cons, List.flatten_cons, List.cons_append]
      have fewer : (xs.filter fun y => !key y == key x).length < m := by
        rw [← h, List.length_cons]
        exact Nat.lt_succ_of_le (List.length_filter_le _ xs)
      exact ((List.Perm.append_left _ (ih _ fewer _ rfl)).trans
        (List.filter_append_perm _ xs)).cons x

/-- The groups of a list in order stand in the order of their first elements. -/
theorem pairwise_groupBy {R : α → α → Prop} (key : α → β) (ordered : xs.Pairwise R) :
    (groupBy key xs).Pairwise fun g h => ∀ x ∈ g.head?, ∀ y ∈ h, R x y := by
  induction h : xs.length using Nat.strongRecOn generalizing xs with
  | ind m ih =>
    cases xs with
    | nil => exact .nil
    | cons x xs =>
      obtain ⟨first, rest⟩ := List.pairwise_cons.mp ordered
      rw [groupBy_cons]
      refine List.pairwise_cons.mpr ⟨?_, ih _ ?_ (rest.sublist List.filter_sublist) rfl⟩
      · rintro group mem _ ⟨⟩ y hy
        obtain ⟨z, -, rfl⟩ := mem_groupBy.mp mem
        exact first y (List.mem_of_mem_filter (List.mem_of_mem_filter hy))
      · rw [← h, List.length_cons]
        exact Nat.lt_succ_of_le (List.length_filter_le _ xs)

omit [LawfulBEq β] in
theorem groupBy_map {γ : Type} (key : α → β) (f : γ → α) (xs : List γ) :
    groupBy key (xs.map f) = (groupBy (key ∘ f) xs).map (List.map f) := by
  simp [groupBy, List.filter_map, Function.comp_def]

end GroupBy

variable {n : ℕ}

theorem groups_eq (f : Forest n) : groups f = groupBy f.root (List.finRange n) := by
  have named : (List.finRange n).zip (f.roots (List.finRange n)) =
      (List.finRange n).map fun i => (i, f.root i) := by
    rw [Forest.roots_eq]
    simpa using (List.zip_map' : ((List.finRange n).map id).zip ((List.finRange n).map f.root) = _)
  simp only [groups, named]
  rw [groupBy_map, List.map_map]
  simp [Function.comp_def]

/-- Lists of the members of the components of a graph: they part its vertices, each of them has in
ascending order what its members reach, and they stand in the order of their first members. -/
structure IsComponents (G : SimpleGraph (Fin n)) (groups : List (List (Fin n))) : Prop where
  parts : groups.flatten.Perm (List.finRange n)
  filled : ∀ group ∈ groups, group ≠ []
  reach : ∀ group ∈ groups, ∀ i ∈ group, ∀ j, j ∈ group ↔ G.Reachable i j
  ascending : ∀ group ∈ groups, group.Pairwise (· < ·)
  ordered : groups.Pairwise fun g h => ∀ i ∈ g.head?, ∀ j ∈ h.head?, i < j

theorem isComponents_groups {linked : Fin n → Fin n → Bool}
    (symm : ∀ i j, linked i j = linked j i) :
    IsComponents (Forest.graph linked) (groups (Forest.ofLinks linked)) := by
  have rising : (List.finRange n).Pairwise (· < ·) := List.pairwise_lt_finRange n
  rw [groups_eq]
  constructor
  · exact flatten_groupBy_perm _ _
  · intro group mem
    obtain ⟨i, hi, rfl⟩ := mem_groupBy.mp mem
    exact List.ne_nil_of_mem (List.mem_filter.mpr ⟨hi, beq_self_eq_true _⟩)
  · intro group mem i hi j
    obtain ⟨k, -, rfl⟩ := mem_groupBy.mp mem
    simp only [List.mem_filter, List.mem_finRange, true_and, beq_iff_eq] at hi ⊢
    rw [← Forest.root_ofLinks symm, hi, eq_comm]
  · intro group mem
    obtain ⟨k, -, rfl⟩ := mem_groupBy.mp mem
    exact rising.sublist List.filter_sublist
  · exact (pairwise_groupBy _ rising).imp fun apart i hi j hj =>
      apart i hi j (List.mem_of_mem_head? hj)

section Polygons

variable {K : Type} [Scalar K]

/-- The graph whose edges are the pairs of members that meet. -/
def meeting (gs : List (Geometry K)) : SimpleGraph (Fin gs.length) :=
  Forest.graph fun i j => (gs.get i).intersects (gs.get j)

/-- The groups in which the members are merged. -/
def meetingGroups (gs : List (Geometry K)) : List (List (Fin gs.length)) :=
  groups (Forest.ofLinks fun i j => (gs.get i).intersects (gs.get j))

theorem isComponents_meetingGroups (gs : List (Geometry K)) :
    IsComponents (meeting gs) (meetingGroups gs) :=
  isComponents_groups fun i j => Geometry.intersects_comm (gs.get i) (gs.get j)

/-- What comes of the members of a group: a single one stays, several give the hull of all their
positions, or nothing where there is none. -/
inductive Merges (gs : List (Geometry K)) : List (Fin gs.length) → Option (Geometry K) → Prop where
  | single (i : Fin gs.length) : Merges gs [i] (some (gs.get i))
  | several {group : List (Fin gs.length)} (many : 2 ≤ group.length) :
      Merges gs group (Hull.polygon? (group.flatMap fun i => (gs.get i).positions))

theorem merges_groupPolygon? {gs : List (Geometry K)} {group : List (Fin gs.length)}
    (filled : group ≠ []) : Merges gs group (groupPolygon? (group.map fun i => gs.get i)) := by
  match group with
  | [] => contradiction
  | [i] => exact .single i
  | i :: j :: rest =>
    have merged : Merges gs (i :: j :: rest) _ := .several (by simp)
    rwa [← List.flatMap_map] at merged

omit [Scalar K] in
theorem requirePolygonal_all {gs : List (Geometry K)} (polygonal : ∀ g ∈ gs, g.isPolygonal = true)
    (operation : OverlayKind) : gs.forM (Geometry.requirePolygonal operation) = .ok () := by
  induction gs with
  | nil => rfl
  | cons g gs ih =>
    obtain ⟨first, rest⟩ := List.forall_mem_cons.mp polygonal
    rw [List.forM_eq_forM, List.forM_cons, Geometry.requirePolygonal, if_pos first]
    exact ih rest

theorem geometries_eq {gs : List (Geometry K)} (polygonal : ∀ g ∈ gs, g.isPolygonal = true) :
    geometries gs = .ok ((meetingGroups gs).filterMap fun group =>
      groupPolygon? (group.map fun i => gs.get i)) := by
  rw [geometries, requirePolygonal_all polygonal]
  rfl

end Polygons

/-- Merging parts the members into the components of the graph of those that meet, in the order of
their first members, and gives for each component its only member or the hull of all positions of
its members. In exact arithmetic the hull is the ring of left turns round the positions, and it is
missing only where they are on one line. The search for a root, on which the components rest, ends
in each forest after no more rounds than there are earlier members. -/
theorem geometries_components :
    (∀ (K : Type) [Scalar K] (gs : List (Geometry K)), (∀ g ∈ gs, g.isPolygonal = true) →
      ∃ groups, IsComponents (meeting gs) groups ∧ ∃ merged,
        List.Forall₂ (Merges gs) groups merged ∧ geometries gs = .ok merged.reduceOption) ∧
    (∀ (K : Type) [Exact K] (points : Path K),
      (Hull.polygon? points = none ↔ Hull.OnOneLine points) ∧
      ∀ g, Hull.polygon? points = some g →
        ∃ ring, g = .polygon [ring] ∧ Hull.IsHull (points.map Position.planar) ring) ∧
    ∀ (n : ℕ) (s : Forest n × Fin n), ∃ rounds ≤ s.2.val,
      (∀ k < rounds, ¬Forest.AtRoot (Forest.climb^[k] s)) ∧
        Forest.AtRoot (Forest.climb^[rounds] s) ∧ Forest.find s = Forest.climb^[rounds] s := by
  refine ⟨fun K _ gs polygonal => ?_, fun K _ points => ⟨?_, ?_⟩, fun n s => Forest.find_ends s⟩
  · have components := isComponents_meetingGroups gs
    refine ⟨_, components, (meetingGroups gs).map fun group =>
      groupPolygon? (group.map fun i => gs.get i), ?_, ?_⟩
    · exact List.forall₂_map_right_iff.mpr (List.forall₂_same.mpr fun group mem =>
        merges_groupPolygon? (components.filled group mem))
    · change _ = Except.ok (((meetingGroups gs).map _).filterMap id)
      rw [geometries_eq polygonal, List.filterMap_map]
      rfl
  · rw [← Hull.ring?_eq_none, Hull.polygon?, Option.map_eq_none_iff]
  · intro g found
    obtain ⟨ring, hull, rfl⟩ := Option.map_eq_some_iff.mp found
    exact ⟨ring, rfl, Hull.isHull_of_ring? hull⟩

section Row

/-- A closed square over its lower left corner. -/
def square (x y size : Float) : Geometry Float :=
  .polygon [[⟨x, y, none⟩, ⟨x + size, y, none⟩, ⟨x + size, y + size, none⟩,
    ⟨x, y + size, none⟩, ⟨x, y, none⟩]]

/-- Three squares in a row, of which the outer ones do not meet, and one that stands apart. -/
def row : List (Geometry Float) := [square 0 0 2, square 10 10 1, square 1 0 2, square 2.5 0 2]

theorem geometries_components_row : (∀ g ∈ row, g.isPolygonal = true) ∧
    ((meetingGroups row).map fun group => group.map Fin.val) = [[0, 2, 3], [1]] ∧
    ∃ groups, IsComponents (meeting row) groups ∧ ∃ merged,
      List.Forall₂ (Merges row) groups merged ∧ geometries row = .ok merged.reduceOption := by
  have polygonal : ∀ g ∈ row, g.isPolygonal = true := by decide +kernel
  exact ⟨polygonal, by decide +kernel, geometries_components.1 Float row polygonal⟩

end Row

end Geospatial.Dissolve
