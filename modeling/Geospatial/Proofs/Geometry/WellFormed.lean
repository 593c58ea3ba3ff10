import Geospatial.Geometry.Check

/-! Well-formed geometries, said without the order in which faults are looked for. The structural
check passes exactly these, and the constructors agree with it. -/
namespace Geospatial.Geometry

variable {K : Type} [Scalar K]

/-- Rings of a polygon: at least one, each of four positions or more that return to the start. -/
def RingsFormed (rings : List (Path K)) : Prop :=
  rings ≠ [] ∧ ∀ r ∈ rings, 4 ≤ r.length ∧ r.endsMeet = true

inductive WellFormed : Geometry K → Prop where
  | point (p : Position K) : WellFormed (.point p)
  | lineString : 2 ≤ line.length → WellFormed (.lineString line)
  | polygon : RingsFormed rings → WellFormed (.polygon rings)
  | multiPoint : points ≠ [] → WellFormed (.multiPoint points)
  | multiLineString : lines ≠ [] → (∀ l ∈ lines, 2 ≤ l.length) →
      WellFormed (.multiLineString lines)
  | multiPolygon : ps ≠ [] → (∀ rings ∈ ps, RingsFormed rings) → WellFormed (.multiPolygon ps)
  | collection : (∀ g ∈ gs, WellFormed g) → WellFormed (.collection gs)

omit [Scalar K] in
theorem checkLine_eq_ok (part : Part) (line : Path K) :
    checkLine part line = .ok () ↔ 2 ≤ line.length := by
  unfold checkLine
  split
  · rename_i short
    exact iff_of_false nofun (Nat.not_le.mpr short)
  · rename_i long
    exact iff_of_true rfl (Nat.not_lt.mp long)

theorem checkRing_eq_ok (part : Part) (i : Nat) (ring : Path K) :
    checkRing part i ring = .ok () ↔ 4 ≤ ring.length ∧ ring.endsMeet = true := by
  unfold checkRing
  split
  · rename_i short
    simp [Nat.not_le.mpr short]
  · rename_i long
    split
    · rename_i apart
      simpa using fun _ => by simpa using apart
    · rename_i closed
      simpa using ⟨Nat.not_lt.mp long, by simpa using closed⟩

/-- Only what is checked decides, not the index that a fault would name. -/
theorem checkEach_eq_ok {α : Type} {check : Nat → α → Except StructureFault Unit}
    {formed : α → Prop} (iff : ∀ i x, check i x = .ok () ↔ formed x) (start : Nat) (xs : List α) :
    checkEach check start xs = .ok () ↔ ∀ x ∈ xs, formed x := by
  induction xs generalizing start with
  | nil => simp [checkEach]
  | cons x xs ih =>
    rw [checkEach, List.forall_mem_cons, ← iff start x, ← ih (start + 1)]
    cases check start x <;> simp [bind, Except.bind]

omit [Scalar K] in
theorem ite_isEmpty_eq_ok {α : Type} {xs : List α} {f : StructureFault}
    {rest : Except StructureFault Unit} :
    (if xs.isEmpty then .error f else rest) = .ok () ↔ xs ≠ [] ∧ rest = .ok () := by
  cases xs <;> simp

theorem checkRings_eq_ok (part : Part) (rings : List (Path K)) :
    checkRings part rings = .ok () ↔ RingsFormed rings := by
  rw [checkRings, ite_isEmpty_eq_ok, RingsFormed]
  exact and_congr_right fun _ => checkEach_eq_ok (checkRing_eq_ok part) 0 rings

mutual

theorem check_eq_ok (g : Geometry K) : g.check = .ok () ↔ g.WellFormed := by
  cases g with
  | point p => exact ⟨fun _ => .point p, fun _ => rfl⟩
  | lineString line =>
    rw [check, checkLine_eq_ok]
    exact ⟨.lineString, fun | .lineString long => long⟩
  | polygon rings =>
    rw [check, checkRings_eq_ok]
    exact ⟨.polygon, fun | .polygon formed => formed⟩
  | multiPoint points =>
    rw [check, ite_isEmpty_eq_ok]
    exact ⟨fun ⟨filled, _⟩ => .multiPoint filled, fun | .multiPoint filled => ⟨filled, rfl⟩⟩
  | multiLineString lines =>
    rw [check, ite_isEmpty_eq_ok, checkEach_eq_ok (fun i l => checkLine_eq_ok (.lineOf i) l)]
    exact ⟨fun ⟨filled, long⟩ => .multiLineString filled long,
      fun | .multiLineString filled long => ⟨filled, long⟩⟩
  | multiPolygon ps =>
    rw [check, ite_isEmpty_eq_ok,
      checkEach_eq_ok (fun i rings => checkRings_eq_ok (.polygonOf i) rings)]
    exact ⟨fun ⟨filled, formed⟩ => .multiPolygon filled formed,
      fun | .multiPolygon filled formed => ⟨filled, formed⟩⟩
  | collection gs =>
    rw [check, checkAll_eq_ok gs]
    exact ⟨.collection, fun | .collection formed => formed⟩

theorem checkAll_eq_ok (gs : List (Geometry K)) :
    checkAll gs = .ok () ↔ ∀ g ∈ gs, g.WellFormed := by
  cases gs with
  | nil => simp [checkAll]
  | cons g gs =>
    rw [checkAll, List.forall_mem_cons, ← check_eq_ok g, ← checkAll_eq_ok gs]
    cases g.check <;> simp [bind, Except.bind]

end

section Constructors

/-- A constructor gives the geometry where the check of its kind passes, and else its fault. -/
def Agrees (made : Except StructureFault (Geometry K)) (g : Geometry K) : Prop :=
  made = g.check.map fun _ => g

theorem createLineString_agrees (line : Path K) :
    Agrees (createLineString line) (.lineString line) := by
  rw [Agrees, createLineString, check]
  cases checkLine .line line <;> rfl

theorem createPolygon_agrees (rings : List (Path K)) :
    Agrees (createPolygon rings) (.polygon rings) := by
  rw [Agrees, createPolygon, check]
  cases checkRings .polygon rings <;> rfl

theorem createMultiPoint_agrees (points : Path K) :
    Agrees (createMultiPoint points) (.multiPoint points) := by
  rw [Agrees, createMultiPoint, check]
  cases points <;> rfl

theorem createMultiLineString_agrees (lines : List (Path K)) :
    Agrees (createMultiLineString lines) (.multiLineString lines) := by
  rw [Agrees, createMultiLineString, check]
  cases lines.isEmpty with
  | true => rfl
  | false => cases checkEach (fun i line => checkLine (.lineOf i) line) 0 lines <;> rfl

theorem createMultiPolygon_agrees (ps : List (List (Path K))) :
    Agrees (createMultiPolygon ps) (.multiPolygon ps) := by
  rw [Agrees, createMultiPolygon, check]
  cases ps.isEmpty with
  | true => rfl
  | false => cases checkEach (fun i rings => checkRings (.polygonOf i) rings) 0 ps <;> rfl

/-- A loop over the members stops where the recursion does. -/
theorem forM_check (gs : List (Geometry K)) : gs.forM check = checkAll gs := by
  induction gs with
  | nil => rfl
  | cons g gs ih =>
    rw [checkAll, ← ih]
    rfl

theorem createCollection_agrees (gs : List (Geometry K)) :
    Agrees (createCollection gs) (.collection gs) := by
  rw [Agrees, createCollection, check, forM_check]
  cases checkAll gs <;> rfl

theorem checked_agrees (g : Geometry K) : Agrees g.checked g := by
  cases g with
  | point p => rfl
  | lineString line => exact createLineString_agrees line
  | polygon rings => exact createPolygon_agrees rings
  | multiPoint points => exact createMultiPoint_agrees points
  | multiLineString lines => exact createMultiLineString_agrees lines
  | multiPolygon ps => exact createMultiPolygon_agrees ps
  | collection gs => exact createCollection_agrees gs

end Constructors

end Geospatial.Geometry
