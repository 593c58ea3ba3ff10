import Geospatial.Proofs.Position
import Geospatial.Proofs.Outcome
import Geospatial.Interpolation

/-! Samples: which positions and values are accepted as such, and how far they are from a position
in exact arithmetic. -/
namespace Geospatial.Sample

section

variable {K : Type} [Scalar K] {points : List (Position K)} {values : List K}
  {samples moved : List (Sample K)}

/-- Position and value are finite. -/
def Finite (s : Sample K) : Prop := s.position.isFinite = true ∧ Scalar.isFinite s.value = true

omit [Scalar K] in
theorem zipWith_eq_iff : points.length = values.length ∧ List.zipWith mk points values = samples ↔
    points = samples.map (·.position) ∧ values = samples.map (·.value) := by
  constructor
  · rintro ⟨lengths, rfl⟩
    constructor <;> exact List.ext_getElem (by simp [lengths]) fun i _ _ => by simp
  · rintro ⟨rfl, rfl⟩
    exact ⟨by simp, List.ext_getElem (by simp) fun i _ _ => by simp⟩

/-- Samples are accepted where there are some, with a value for each position, and all finite. -/
theorem ofLists_eq_ok : ofLists points values = .ok samples ↔
    (points = samples.map (·.position) ∧ values = samples.map (·.value)) ∧
      samples ≠ [] ∧ ∀ s ∈ samples, Finite s := by
  simp only [ofLists, Outcome.refuse_unless_eq_ok]
  constructor
  · rintro ⟨filled, lengths, finite, paired⟩
    obtain ⟨rfl, rfl⟩ := zipWith_eq_iff.mp ⟨not_not.mp lengths, Except.ok.inj paired⟩
    refine ⟨⟨rfl, rfl⟩, by simpa using filled, fun s hs => ?_⟩
    simp only [List.any_map, Bool.or_eq_true, List.any_eq_true, not_or, not_exists, not_and,
      Function.comp_apply, Bool.not_eq_true', Bool.not_eq_false] at finite
    exact ⟨finite.1 s hs, finite.2 s hs⟩
  · rintro ⟨⟨rfl, rfl⟩, filled, finite⟩
    refine ⟨by simpa using filled, by simp, ?_, congrArg _ (zipWith_eq_iff.mpr ⟨rfl, rfl⟩).2⟩
    simp only [List.any_map, Bool.or_eq_true, List.any_eq_true, not_or, not_exists, not_and,
      Function.comp_apply, Bool.not_eq_true', Bool.not_eq_false]
    exact ⟨fun s hs => (finite s hs).1, fun s hs => (finite s hs).2⟩

/-- What is accepted is so in any order. -/
theorem ofLists_perm (accepted : ofLists points values = .ok samples)
    (reordered : moved.Perm samples) :
    ofLists (moved.map (·.position)) (moved.map (·.value)) = .ok moved := by
  obtain ⟨-, filled, finite⟩ := ofLists_eq_ok.mp accepted
  refine ofLists_eq_ok.mpr ⟨⟨rfl, rfl⟩, fun empty => filled ?_, fun s hs => ?_⟩
  · exact List.nil_perm.mp (empty ▸ reordered)
  · exact finite s (reordered.mem_iff.mp hs)

end

theorem distanceTo_congr {K : Type} [Exact K] {p q : Position K} (same : p.sameXY q = true)
    (s : Sample K) : s.distanceTo p = s.distanceTo q := by
  obtain ⟨x, y⟩ := Position.sameXY_iff.mp same
  rw [distanceTo, distanceTo, x, y]

variable {K : Type} [Euclidean K] {s : Sample K} {p : Position K}

theorem distanceTo_eq_zero : s.distanceTo p = 0 ↔ s.position.sameXY p = true := by
  rw [Position.sameXY_comm]
  exact Position.distance_eq_zero

theorem distanceTo_self (s : Sample K) : s.distanceTo s.position = 0 :=
  distanceTo_eq_zero.mpr (Position.sameXY_self _)

theorem distanceTo_pos (apart : s.position.sameXY p = false) : 0 < s.distanceTo p :=
  Position.distance_pos ((Position.sameXY_comm p s.position).trans apart)

/-- Along a parallel the distance is that of the abscissas. -/
theorem distanceTo_of_level (level : s.position.y = p.y) : s.distanceTo p = |s.position.x - p.x| := by
  rw [distanceTo, level, sub_self, Euclidean.hypot_zero_right]

/-- The distance of two samples is the same both ways. -/
theorem distanceTo_comm (s t : Sample K) : s.distanceTo t.position = t.distanceTo s.position :=
  Position.distance_comm _ _

end Geospatial.Sample
