import Geospatial.Proofs.Query.Prefilter

/-! Geometries without positions have no box: an index leaves them out, and finds nothing for
them. Beside disjointness, equality is the one relation that may hold for them, so that an index
changes the answer to a query for the features that are equal to such a geometry, and to no other
query for one. -/
namespace Geospatial

variable {K : Type} [Scalar K]

namespace Geometry

variable {a b : Geometry K}

theorem bounds?_eq_none : a.bounds? = none ↔ a.positions = [] := by
  rw [bounds?]
  cases a.positions <;> simp [Bounds.ofPositions?]

theorem positions_eq_nil_of_beq (same : (a == b) = true) (empty : a.positions = []) :
    b.positions = [] := by
  have listed := positions_beq a b same
  rw [empty] at listed
  cases none : b.positions with
  | nil => rfl
  | cons p ps =>
    rw [none] at listed
    contradiction

section

variable (unbounded : a.bounds? = none ∨ b.bounds? = none)
include unbounded

theorem intersects_eq_false : a.intersects b = false := by
  have apart : boundsApart a b = true := by
    unfold boundsApart
    rcases unbounded with own | other
    · rw [own]
    · rw [other]
      cases a.bounds? <;> rfl
  rw [intersects, apart]
  rfl

theorem contains_eq_false : a.contains b = false := by
  unfold contains
  rcases unbounded with own | other
  · rw [own]
  · rw [other]
    cases a.bounds? <;> rfl

/-- A relation that needs a common point needs two boxes. -/
theorem relate_of_unbounded {r : Relation} (joint : r ≠ .disjoint) :
    a.relate b r = true ↔ r = .equals ∧ (a == b) = true := by
  have meet := intersects_eq_false unbounded
  have inside := contains_eq_false unbounded
  have outside := contains_eq_false (a := b) (b := a) unbounded.symm
  cases r with
  | equals => simp [relate]
  | disjoint => contradiction
  | intersects => simp [relate, meet]
  | contains => simp [relate, inside]
  | within => simp [relate, within, outside]
  | overlaps => simp [relate, overlaps, meet]
  | touches => simp [relate, touches, meet]
  | crosses => simp [relate, crosses, meet]

end

end Geometry

namespace Query

variable {q : Query K} {g : Geometry K}

/-- An outcome depends on what passes both filters, however it was looked for. -/
theorem execute_congr {features features' : List (Feature K)}
    {index index' : Option (Index K (Slot K))}
    (same : ∀ p : Feature K → Bool,
      (q.candidates features index).filter (fun f => q.admits f && p f) =
        (q.candidates features' index').filter fun f => q.admits f && p f) :
    q.execute features index = q.execute features' index' := by
  unfold execute
  simp only [same]

omit [Scalar K] in
theorem relation_getD_ne_disjoint (joint : q.relation ≠ some .disjoint) :
    q.relation.getD .intersects ≠ .disjoint := by
  cases relation : q.relation with
  | none => exact nofun
  | some r =>
    rintro rfl
    exact joint relation

variable (asked : q.geometry = some g) (empty : g.positions = [])
include asked empty

theorem candidates_some_of_empty (joint : q.relation ≠ some .disjoint)
    (features : List (Feature K)) (t : Index K (Slot K)) :
    q.candidates features (some t) = [] := by
  unfold candidates
  rw [if_neg (by simpa using joint), asked]
  simp only [Geometry.bounds?_eq_none.mpr empty]

theorem admits_of_empty (joint : q.relation ≠ some .disjoint) (f : Feature K) :
    q.admits f = true ↔ q.relation = some .equals ∧ (f.geometry == g) = true := by
  have unbounded := Or.inr (a := f.geometry.bounds? = none) (Geometry.bounds?_eq_none.mpr empty)
  rw [admits, asked]
  refine (Geometry.relate_of_unbounded unbounded (relation_getD_ne_disjoint joint)).trans ?_
  refine and_congr_left fun _ => ?_
  cases q.relation <;> simp

theorem execute_some_of_equals (equality : q.relation = some .equals)
    (features : List (Feature K)) (t : Index K (Slot K)) :
    q.execute features (some t) = q.execute [] none := by
  apply execute_congr
  intro p
  have joint : q.relation ≠ some .disjoint := by simp [equality]
  rw [candidates_some_of_empty asked empty joint, candidates_none]

theorem execute_none_of_equals (equality : q.relation = some .equals)
    (features : List (Feature K)) :
    q.execute features none = q.execute (features.filter (·.geometry == g)) none := by
  apply execute_congr
  intro p
  have joint : q.relation ≠ some .disjoint := by simp [equality]
  rw [candidates_none, candidates_none, List.filter_filter]
  apply List.filter_congr
  intro f _
  rw [Bool.eq_iff_iff]
  simp only [Bool.and_eq_true, admits_of_empty asked empty joint, equality, true_and]
  exact ⟨fun ⟨same, holds⟩ => ⟨⟨same, holds⟩, same⟩, fun ⟨both, _⟩ => both⟩

theorem execute_some_of_ne_equals (other : q.relation ≠ some .equals)
    (features : List (Feature K)) (t : Index K (Slot K)) :
    q.execute features (some t) = q.execute features none := by
  apply execute_congr
  intro p
  rw [candidates_none]
  by_cases disjoint : q.relation = some .disjoint
  · unfold candidates
    rw [if_pos (by simp [disjoint])]
  · rw [candidates_some_of_empty asked empty disjoint, List.filter_nil, eq_comm,
      List.filter_eq_nil_iff]
    intro f _ passed
    rw [Bool.and_eq_true, admits_of_empty asked empty disjoint] at passed
    exact other passed.1.1

omit asked empty

/-- For a geometry without positions no relation holds but disjointness and, with a geometry that
has none either, equality. A query for a geometry without positions has the same outcome with and
without an index unless it asks for equality. In that case it finds the features equal to the
geometry without an index, and none with one. -/
theorem execute_without_positions (K : Type) [Scalar K] :
    (∀ (f g : Geometry K) (r : Relation), f.positions = [] → r ≠ .disjoint →
      (f.relate g r = true ↔ r = .equals ∧ g.positions = [] ∧ (f == g) = true)) ∧
    ∀ (q : Query K) (g : Geometry K) (features : List (Feature K)) (t : Index K (Slot K)),
      q.geometry = some g → g.positions = [] →
      (q.relation ≠ some .equals → q.execute features (some t) = q.execute features none) ∧
      (q.relation = some .equals →
        q.execute features (some t) = q.execute [] none ∧
        q.execute features none = q.execute (features.filter (·.geometry == g)) none) := by
  constructor
  · intro f g r empty joint
    rw [Geometry.relate_of_unbounded (.inl (Geometry.bounds?_eq_none.mpr empty)) joint]
    refine and_congr_right fun _ => ⟨fun same => ⟨?_, same⟩, And.right⟩
    exact Geometry.positions_eq_nil_of_beq same empty
  · intro q g features t asked empty
    refine ⟨fun other => execute_some_of_ne_equals asked empty other features t, fun equality => ?_⟩
    exact ⟨execute_some_of_equals asked empty equality features t,
      execute_none_of_equals asked empty equality features⟩

/-- Of four features without positions two are equal to a collection of an empty line. -/
theorem execute_without_positions_line :
    let line : Geometry Float := .collection [.lineString []]
    let features : List (Feature Float) := [{ geometry := line }, { geometry := .collection [] },
      { geometry := .multiPolygon [[[]]] }, { geometry := line, properties := [("a", .null)] }]
    let q : Query Float := { geometry := some line, relation := some .equals }
    (line.relate line .equals = true ↔
      Relation.equals = .equals ∧ line.positions = [] ∧ (line == line) = true) ∧
    ∃ t, indexFeatures features = .ok t ∧ q.execute features (some t) = q.execute [] none ∧
      q.execute features none = q.execute (features.filter (·.geometry == line)) none ∧
      (q.execute features none).toOption.map List.length = some 2 := by
  intro line features q
  refine ⟨(execute_without_positions Float).1 line line .equals rfl nofun, ?_⟩
  cases indexed : indexFeatures features with
  | error f =>
    have passed : (indexFeatures features).isOk = true := by decide +kernel
    rw [indexed] at passed
    contradiction
  | ok t =>
    obtain ⟨nothing, equal⟩ :=
      ((execute_without_positions Float).2 q line features t rfl rfl).2 rfl
    exact ⟨t, rfl, nothing, equal, by decide +kernel⟩

/-- An empty collection is equal to itself, and a query for it misses it in an index. -/
theorem execute_empty_collection :
    let empty : Geometry Float := .collection []
    let features : List (Feature Float) := [{ geometry := empty }]
    let q : Query Float := { geometry := some empty, relation := some .equals }
    empty.positions = [] ∧ empty.relate empty .equals = true ∧
    (q.execute features none).toOption.map List.length = some 1 ∧
    ∃ t, indexFeatures features = .ok t ∧
      (q.execute features (some t)).toOption.map List.length = some 0 :=
  ⟨rfl, by decide +kernel, by decide +kernel, .empty, rfl, by decide +kernel⟩

end Query
end Geospatial
