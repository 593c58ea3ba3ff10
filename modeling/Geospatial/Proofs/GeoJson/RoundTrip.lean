import Geospatial.GeoJson.Shape
import Geospatial.Proofs.Geometry.WellFormed
import Geospatial.Proofs.Outcome

/-! Geometries and features written to GeoJSON and read back. Reading gives the same value where
every geometry is well formed, and else the fault that the structural check finds first. The
trees are compared here, not their texts. -/
namespace Geospatial.GeoJson

variable {K : Type}

/-- Items that are each read back are read back as a list. -/
theorem mapM_map_eq_ok {α β ε : Type} {read : β → Except ε α} {write : α → β} {xs : List α}
    (back : ∀ x ∈ xs, read (write x) = .ok x) : (xs.map write).mapM read = .ok xs := by
  induction xs with
  | nil => rfl
  | cons x xs ih =>
    rw [List.map_cons, List.mapM_cons, back x List.mem_cons_self,
      ih fun y hy => back y (List.mem_cons_of_mem x hy)]
    rfl

theorem position?_coordinates (p : Position K) : position? p.coordinates = .ok p := by
  obtain ⟨x, y, z⟩ := p
  cases z <;> rfl

theorem path?_coordinates (line : Path K) : path? (line.map Position.coordinates) = .ok line :=
  mapM_map_eq_ok fun p _ => position?_coordinates p

theorem mapM_path?_coordinates (rings : List (Path K)) :
    (rings.map fun r => r.map Position.coordinates).mapM path? = .ok rings :=
  mapM_map_eq_ok fun r _ => path?_coordinates r

namespace Shape

variable [Scalar K]

mutual

/-- The members of a collection are checked when they are read and once more with it, so that
the second time finds nothing new. -/
theorem toGeometry?_ofGeometry (g : Geometry K) :
    toGeometry? (ofGeometry g) = g.check.map fun _ => g := by
  cases g with
  | point p =>
    rw [ofGeometry, toGeometry?, position?_coordinates]
    rfl
  | lineString line =>
    rw [ofGeometry, toGeometry?, path?_coordinates]
    exact Geometry.createLineString_agrees line
  | polygon rings =>
    rw [ofGeometry, toGeometry?, mapM_path?_coordinates]
    exact Geometry.createPolygon_agrees rings
  | multiPoint points =>
    rw [ofGeometry, toGeometry?, path?_coordinates]
    exact Geometry.createMultiPoint_agrees points
  | multiLineString lines =>
    rw [ofGeometry, toGeometry?, mapM_path?_coordinates]
    exact Geometry.createMultiLineString_agrees lines
  | multiPolygon ps =>
    rw [ofGeometry, toGeometry?, mapM_map_eq_ok fun rings _ => mapM_path?_coordinates rings]
    exact Geometry.createMultiPolygon_agrees ps
  | collection gs =>
    have again := Geometry.createCollection_agrees gs
    rw [ofGeometry, toGeometry?, toGeometries?_ofGeometries]
    rw [Geometry.Agrees, Geometry.check] at again
    rw [Geometry.check]
    cases members : Geometry.checkAll gs with
    | error f => rfl
    | ok =>
      rw [members] at again
      exact again

theorem toGeometries?_ofGeometries (gs : List (Geometry K)) :
    toGeometries? (ofGeometries gs) = (Geometry.checkAll gs).map fun _ => gs := by
  cases gs with
  | nil => rfl
  | cons g gs =>
    rw [ofGeometries, toGeometries?, toGeometry?_ofGeometry g, toGeometries?_ofGeometries gs,
      Geometry.checkAll]
    cases g.check with
    | error f => rfl
    | ok => cases Geometry.checkAll gs <;> rfl

end

theorem toGeometry?_ofGeometry_eq_ok (g : Geometry K) :
    toGeometry? (ofGeometry g) = .ok g ↔ g.WellFormed := by
  rw [toGeometry?_ofGeometry, ← g.check_eq_ok]
  cases g.check <;> simp [Except.map]

end Shape

theorem toFeatureId_ofFeatureId (id : FeatureId) :
    (Identifier.ofFeatureId id).toFeatureId = id := by
  cases id with
  | text s => rfl
  | number n =>
    have range : Int64.minValue.toInt ≤ n.toInt ∧ n.toInt ≤ Int64.maxValue.toInt :=
      ⟨n.minValue_le_toInt, n.toInt_le⟩
    simp only [Identifier.ofFeatureId, Identifier.toFeatureId, range.1, range.2, decide_true,
      Bool.and_self, if_true, Int64.ofInt_toInt]

theorem toFeature?_ofFeature [Scalar K] (f : Feature K) :
    (FeatureObject.ofFeature f).toFeature? = f.geometry.check.map fun _ => f := by
  have id : (f.id.map Identifier.ofFeatureId).map Identifier.toFeatureId = f.id := by
    simp [Option.map_map, Function.comp_def, toFeatureId_ofFeatureId]
  rw [FeatureObject.ofFeature, FeatureObject.toFeature?]
  simp only [Shape.toGeometry?_ofGeometry, id]
  cases f.geometry.check <;> rfl

/-- The documents of a geometry, a feature and a collection of features give back what they were
made of. What fails the check gives its fault, and of several features the first that fails does,
without those before it. The constructors by which geometries are read fail where the check does. -/
theorem read_written [Scalar K] :
    (∀ g : Geometry K, g.checked = g.check.map fun _ => g) ∧
      (∀ g : Geometry K, Shape.toGeometry? (Shape.ofGeometry g) = g.check.map fun _ => g) ∧
      (∀ g : Geometry K, Shape.toGeometry? (Shape.ofGeometry g) = .ok g ↔ g.WellFormed) ∧
      (∀ f : Feature K, (FeatureObject.ofFeature f).toFeature? = f.geometry.check.map fun _ => f) ∧
      (∀ fs : List (Feature K), (∀ f ∈ fs, f.geometry.check = .ok ()) →
        (Document.features (fs.map .ofFeature)).toFeatures? = .ok fs) ∧
      ∀ (before after : List (Feature K)) (f : Feature K) (e : StructureFault),
        (∀ b ∈ before, b.geometry.check = .ok ()) → f.geometry.check = .error e →
          (Document.features ((before ++ f :: after).map .ofFeature)).toFeatures? = .error e := by
  refine ⟨Geometry.checked_agrees, Shape.toGeometry?_ofGeometry,
    Shape.toGeometry?_ofGeometry_eq_ok, toFeature?_ofFeature, ?_, ?_⟩
  · intro fs sane
    apply mapM_map_eq_ok
    intro f hf
    rw [toFeature?_ofFeature, sane f hf]
    rfl
  · intro before after f e sane fails
    rw [Document.toFeatures?, List.map_append, List.map_cons]
    refine mapM_eq_error.mpr ⟨_, _, _, before, rfl, ?_, ?_⟩
    · refine List.forall₂_map_left_iff.mpr (List.forall₂_same.mpr fun b hb => ?_)
      rw [toFeature?_ofFeature, sane b hb]
      rfl
    · rw [toFeature?_ofFeature, fails]
      rfl

end Geospatial.GeoJson
