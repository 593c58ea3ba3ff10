import Mathlib.Analysis.SpecialFunctions.Complex.Arg
import Geospatial.Clustering
import Geospatial.Proofs.Position
import Geospatial.Proofs.Scalar.Real

/-! What clustering asks of its points and of a distance. -/
namespace Geospatial

/-- Distances between finite positions are the same both ways, and positions at one place have
none. No path need be shortest. -/
structure Dissimilarity {K : Type} [Scalar K] (distance : Position K → Position K → K) :
    Prop where
  symm {p q : Position K} : p.isFinite = true → q.isFinite = true → distance p q = distance q p
  coincident {p q : Position K} : p.isFinite = true → q.isFinite = true → p.sameXY q = true →
    distance p q = 0

/-- Distances between finite positions are finite. -/
def FiniteDistances {K : Type} [Scalar K] (distance : Position K → Position K → K) : Prop :=
  ∀ {p q}, p.isFinite = true → q.isFinite = true → Scalar.isFinite (distance p q) = true

namespace Clustering

variable {K : Type} {points : List (Position K)}

theorem requireFinite_eq_ok [Scalar K] :
    requireFinite points = .ok () ↔ ∀ p ∈ points, p.isFinite = true := by
  unfold requireFinite
  cases found : points.findIdx? fun p => !p.isFinite with
  | none => simpa using List.findIdx?_eq_none_iff.mp found
  | some i =>
    obtain ⟨inside, bad, _⟩ := List.findIdx?_eq_some_iff_getElem.mp found
    constructor
    · intro refused
      cases refused
    · intro finite
      simp [finite _ (List.getElem_mem inside)] at bad

theorem requireCount_eq_ok {k : ℕ} :
    requireCount k points = .ok () ↔ 1 ≤ k ∧ k ≤ points.length := by
  unfold requireCount
  split
  · refine iff_of_false (nomatch ·) ?_
    omega
  · refine iff_of_true rfl ?_
    omega

end Clustering

namespace ClusterMetric

theorem euclidean_eq (p q : Position ℝ) :
    euclidean.distance p q = √((p.x - q.x) ^ 2 + (p.y - q.y) ^ 2) := rfl

theorem manhattan_eq (p q : Position ℝ) :
    manhattan.distance p q = |p.x - q.x| + |p.y - q.y| := rfl

/-- The square of the half chord of a great circle, for a sphere of radius one. -/
noncomputable def halfChordSquared (p q : Position ℝ) : ℝ :=
  Real.sin ((q.y - p.y) * (Real.pi / 180) / 2) ^ 2 +
    Real.cos (p.y * (Real.pi / 180)) * Real.cos (q.y * (Real.pi / 180)) *
      Real.sin ((q.x - p.x) * (Real.pi / 180) / 2) ^ 2

theorem haversine_eq (p q : Position ℝ) : haversine.distance p q = Position.earthRadius *
    (2 * Complex.arg ⟨√(1 - halfChordSquared p q), √(halfChordSquared p q)⟩) := by
  rw [halfChordSquared, sq, sq]
  rfl

theorem halfChordSquared_symm (p q : Position ℝ) :
    halfChordSquared p q = halfChordSquared q p := by
  have flip (a b : ℝ) : Real.sin ((b - a) * (Real.pi / 180) / 2) ^ 2 =
      Real.sin ((a - b) * (Real.pi / 180) / 2) ^ 2 := by
    rw [← neg_sub a b, neg_mul, neg_div, Real.sin_neg, neg_sq]
  rw [halfChordSquared, halfChordSquared, flip, flip p.x, mul_comm (Real.cos (p.y * _))]

/-- All metrics are such distances over the reals. -/
theorem dissimilarity (m : ClusterMetric) :
    Dissimilarity fun p q : Position ℝ => m.distance p q where
  symm {p q} _ _ := by
    cases m with
    | euclidean => rw [euclidean_eq, euclidean_eq, sub_sq_comm, sub_sq_comm p.y]
    | manhattan => rw [manhattan_eq, manhattan_eq, abs_sub_comm, abs_sub_comm p.y]
    | haversine => rw [haversine_eq, haversine_eq, halfChordSquared_symm]
  coincident {p q} _ _ place := by
    obtain ⟨hx, hy⟩ := Position.sameXY_iff.mp place
    cases m with
    | euclidean => simp [euclidean_eq, hx, hy]
    | manhattan => simp [manhattan_eq, hx, hy]
    | haversine =>
      have level : halfChordSquared p q = 0 := by simp [halfChordSquared, hx, hy]
      have still : Complex.arg ⟨√(1 - 0), √0⟩ = 0 := by
        rw [sub_zero, Real.sqrt_one, Real.sqrt_zero]
        exact Complex.arg_one
      rw [haversine_eq, level, still, mul_zero, mul_zero]

end ClusterMetric
end Geospatial
