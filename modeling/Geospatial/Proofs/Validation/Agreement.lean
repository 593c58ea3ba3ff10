import Geospatial.Validation
import Geospatial.Scalar.Double
import Geospatial.Proofs.Geometry.WellFormed

/-! Two readers of one structure. The structural check stops at its first fault; validation lists
what it finds part by part, and says no more of a part once it is unusable. A geometry of finite
positions fails the check exactly when some finding is about structure, however deep the part. A
geometry without errors always passes, since a position that is not finite is an error too. -/
namespace Geospatial.Validation

variable {K : Type} [Scalar K]

/-- Codes of the faults that the structural check looks for. -/
def Code.isStructural : Code → Bool
  | .ringNotClosed | .ringTooShort | .lineTooShort | .noRings | .emptyGeometry => true
  | _ => false

/-- No finding of the list is about such an issue. -/
def FreeOf (bad : Issue → Prop) (found : List Finding) : Prop := ∀ f ∈ found, ¬bad f.issue

section Lists

variable {bad : Issue → Prop}

@[simp] theorem freeOf_nil : FreeOf bad [] := by simp [FreeOf]

@[simp] theorem freeOf_append {as bs : List Finding} :
    FreeOf bad (as ++ bs) ↔ FreeOf bad as ∧ FreeOf bad bs := List.forall_mem_append

@[simp] theorem freeOf_below {step : Step} {fs : List Finding} :
    FreeOf bad (below step fs) ↔ FreeOf bad fs := by
  simp [FreeOf, below]

@[simp] theorem freeOf_here {issue : Issue} : FreeOf bad (here issue) ↔ ¬bad issue := by
  simp [FreeOf, here]

@[simp] theorem freeOf_orNone {condition : Bool} {issue : Issue} :
    FreeOf bad (orNone condition issue) ↔ (condition = true → ¬bad issue) := by
  cases condition <;> simp [orNone]

@[simp] theorem freeOf_eachFindings {α : Type} {step : Nat → Step} {find : α → List Finding}
    {start : Nat} {xs : List α} :
    FreeOf bad (eachFindings step find start xs) ↔ ∀ x ∈ xs, FreeOf bad (find x) := by
  induction xs generalizing start with
  | nil => simp [eachFindings]
  | cons x xs ih => simp [eachFindings, ih]

end Lists

@[simp] theorem firstNonFinite?_eq_none {path : Path K} :
    firstNonFinite? path = none ↔ ∀ p ∈ path, p.isFinite = true := by
  simp [firstNonFinite?, List.findIdx?_eq_none_iff]

def Structural (issue : Issue) : Prop := issue.code.isStructural = true

section Formed

theorem freeOf_whenFinite {path : Path K} {rest : List Finding} (h : FreeOf Structural rest) :
    FreeOf Structural (whenFinite path rest) := by
  unfold whenFinite
  split
  · exact freeOf_here.mpr Bool.false_ne_true
  · exact h

theorem freeOf_lineFindings {line : Path K} (long : 2 ≤ line.length) :
    FreeOf Structural (lineFindings line) := by
  rw [lineFindings, if_neg (Nat.not_lt.mpr long)]
  apply freeOf_whenFinite
  rw [freeOf_append]
  constructor
  · exact freeOf_orNone.mpr fun _ => Bool.false_ne_true
  · split
    · exact freeOf_here.mpr Bool.false_ne_true
    · exact freeOf_orNone.mpr fun _ => Bool.false_ne_true

theorem freeOf_orientationFindings (ring : Path K) (isHole : Bool) :
    FreeOf Structural (orientationFindings ring isHole) := by
  simp only [orientationFindings]
  split
  · exact freeOf_here.mpr Bool.false_ne_true
  · split <;> exact freeOf_orNone.mpr fun _ => Bool.false_ne_true

theorem ringFault?_not_structural {ring : Path K}
    (formed : 4 ≤ ring.length ∧ ring.endsMeet = true) {issue : Issue}
    (h : ringFault? ring = some issue) : ¬Structural issue := by
  rw [ringFault?, if_neg (Nat.not_lt.mpr formed.1), formed.2] at h
  split at h
  · cases h
    exact Bool.false_ne_true
  · cases h

theorem freeOf_ringFindings {ring : Path K} (formed : 4 ≤ ring.length ∧ ring.endsMeet = true)
    (isHole : Bool) : FreeOf Structural (ringFindings ring isHole) := by
  unfold ringFindings
  split
  · rename_i issue h
    exact freeOf_here.mpr (ringFault?_not_structural formed h)
  · rw [freeOf_append, freeOf_append]
    refine ⟨⟨?_, ?_⟩, ?_⟩
    · exact freeOf_orNone.mpr fun _ => Bool.false_ne_true
    · exact freeOf_orNone.mpr fun _ => Bool.false_ne_true
    · exact freeOf_orientationFindings ring isHole

theorem freeOf_polygonFindings {rings : List (Path K)} (formed : Geometry.RingsFormed rings) :
    FreeOf Structural (polygonFindings rings) := by
  obtain ⟨filled, formed⟩ := formed
  cases rings with
  | nil => contradiction
  | cons exterior holes =>
    obtain ⟨outer, inner⟩ := List.forall_mem_cons.mp formed
    rw [polygonFindings, freeOf_append, freeOf_below, freeOf_eachFindings]
    refine ⟨freeOf_ringFindings outer false, fun hole mem => ?_⟩
    rw [freeOf_append]
    exact ⟨freeOf_ringFindings (inner hole mem) true, freeOf_orNone.mpr fun _ => Bool.false_ne_true⟩

theorem freeOf_finiteFindings (path : Path K) : FreeOf Structural (finiteFindings path) := by
  unfold finiteFindings
  split
  · exact freeOf_here.mpr Bool.false_ne_true
  · exact freeOf_nil

mutual

theorem freeOf_findings {g : Geometry K} (formed : g.WellFormed) :
    FreeOf Structural (findings g) := by
  cases formed with
  | point p => exact freeOf_finiteFindings [p]
  | lineString long => exact freeOf_lineFindings long
  | polygon formed => exact freeOf_polygonFindings formed
  | multiPoint filled =>
    rw [findings, if_neg (by simpa using filled)]
    exact freeOf_finiteFindings _
  | multiLineString filled long =>
    rw [findings, freeOf_append, freeOf_eachFindings]
    exact ⟨by simp [filled], fun l mem => freeOf_lineFindings (long l mem)⟩
  | multiPolygon filled formed =>
    rw [findings, freeOf_append, freeOf_eachFindings]
    exact ⟨by simp [filled], fun rings mem => freeOf_polygonFindings (formed rings mem)⟩
  | @collection gs formed =>
    rw [findings]
    exact freeOf_memberFindings gs formed 0

theorem freeOf_memberFindings (gs : List (Geometry K)) (formed : ∀ g ∈ gs, g.WellFormed)
    (start : Nat) : FreeOf Structural (memberFindings start gs) := by
  cases gs with
  | nil => simp [memberFindings]
  | cons g gs =>
    obtain ⟨first, rest⟩ := List.forall_mem_cons.mp formed
    rw [memberFindings, freeOf_append, freeOf_below]
    exact ⟨freeOf_findings first, freeOf_memberFindings gs rest (start + 1)⟩

end

end Formed

section Faultless

variable {bad : Issue → Prop} (covers : ∀ issue, Structural issue → bad issue)

/-- No position that is not finite can hide a fault of structure. -/
def Unhidden (bad : Issue → Prop) (path : Path K) : Prop :=
  (∀ i, bad (.nonFiniteCoordinate i)) ∨ ∀ p ∈ path, p.isFinite = true

theorem Unhidden.mono {path whole : Path K} (h : Unhidden bad whole) (part : path ⊆ whole) :
    Unhidden bad path := h.imp_right fun finite p mem => finite p (part mem)

include covers

theorem long_of_freeOf {line : Path K} (h : FreeOf bad (lineFindings line)) : 2 ≤ line.length := by
  refine Nat.not_lt.mp fun short => ?_
  rw [lineFindings, if_pos short, freeOf_here] at h
  exact h (covers _ rfl)

theorem ring_formed_of_freeOf {ring : Path K} {isHole : Bool}
    (h : FreeOf bad (ringFindings ring isHole)) (seen : Unhidden bad ring) :
    4 ≤ ring.length ∧ ring.endsMeet = true := by
  have clean : ∀ issue, ringFault? ring = some issue → ¬bad issue := by
    intro issue eq
    rw [ringFindings, eq] at h
    exact freeOf_here.mp h
  have long : 4 ≤ ring.length := by
    refine Nat.not_lt.mp fun short => ?_
    exact clean (.ringTooShort ring.length) (by rw [ringFault?, if_pos short]) (covers _ rfl)
  rw [ringFault?, if_neg (Nat.not_lt.mpr long)] at clean
  cases first : firstNonFinite? ring with
  | some i =>
    rw [first] at clean
    rcases seen with hidden | finite
    · exact absurd (hidden i) (clean _ rfl)
    · rw [firstNonFinite?_eq_none.mpr finite] at first
      cases first
  | none =>
    rw [first] at clean
    refine ⟨long, Bool.not_eq_false _ ▸ fun apart => ?_⟩
    exact clean .ringNotClosed (if_neg (by simp [apart])) (covers _ rfl)

theorem rings_formed_of_freeOf {rings : List (Path K)} (h : FreeOf bad (polygonFindings rings))
    (seen : Unhidden bad rings.flatten) : Geometry.RingsFormed rings := by
  cases rings with
  | nil =>
    rw [polygonFindings, freeOf_here] at h
    exact absurd (covers .noRings rfl) h
  | cons exterior holes =>
    rw [polygonFindings, freeOf_append, freeOf_below, freeOf_eachFindings] at h
    refine ⟨List.cons_ne_nil _ _, List.forall_mem_cons.mpr ⟨?_, fun hole mem => ?_⟩⟩
    · exact ring_formed_of_freeOf covers h.1
        (seen.mono (List.sublist_flatten_of_mem List.mem_cons_self).subset)
    · exact ring_formed_of_freeOf covers (freeOf_append.mp (h.2 hole mem)).1
        (seen.mono (List.sublist_flatten_of_mem (List.mem_cons_of_mem _ mem)).subset)

theorem filled_of_freeOf {α : Type} {xs : List α} {kind : GeometryKind}
    (h : FreeOf bad (orNone xs.isEmpty (.empty kind))) : xs ≠ [] := by
  rintro rfl
  exact freeOf_orNone.mp h rfl (covers _ rfl)

end Faultless

mutual

theorem wellFormed_of_freeOf {bad : Issue → Prop} (covers : ∀ issue, Structural issue → bad issue)
    (g : Geometry K) (h : FreeOf bad (findings g)) (seen : Unhidden bad g.positions) :
    g.WellFormed := by
  cases g with
  | point p => exact .point p
  | lineString line => exact .lineString (long_of_freeOf covers h)
  | polygon rings => exact .polygon (rings_formed_of_freeOf covers h seen)
  | multiPoint points =>
    apply Geometry.WellFormed.multiPoint
    rintro rfl
    exact freeOf_here.mp h (covers _ rfl)
  | multiLineString lines =>
    rw [findings, freeOf_append, freeOf_eachFindings] at h
    exact .multiLineString (filled_of_freeOf covers h.1)
      fun l mem => long_of_freeOf covers (h.2 l mem)
  | multiPolygon ps =>
    rw [findings, freeOf_append, freeOf_eachFindings] at h
    refine .multiPolygon (filled_of_freeOf covers h.1) fun rings mem => ?_
    refine rings_formed_of_freeOf covers (h.2 rings mem) (seen.mono ?_)
    rw [Geometry.positions, List.flatten_flatten]
    exact (List.sublist_flatten_of_mem (List.mem_map_of_mem mem)).subset
  | collection gs =>
    rw [findings] at h
    rw [Geometry.positions] at seen
    exact .collection (wellFormed_of_members covers gs 0 h seen)

theorem wellFormed_of_members {bad : Issue → Prop}
    (covers : ∀ issue, Structural issue → bad issue) (gs : List (Geometry K)) (start : Nat)
    (h : FreeOf bad (memberFindings start gs)) (seen : Unhidden bad (Geometry.positionsOfAll gs)) :
    ∀ g ∈ gs, g.WellFormed := by
  cases gs with
  | nil => simp
  | cons g gs =>
    rw [memberFindings, freeOf_append, freeOf_below] at h
    rw [Geometry.positionsOfAll] at seen
    rw [List.forall_mem_cons]
    exact ⟨wellFormed_of_freeOf covers g h.1 (seen.mono (List.subset_append_left _ _)),
      wellFormed_of_members covers gs (start + 1) h.2 (seen.mono (List.subset_append_right _ _))⟩

end

theorem isValid_iff_freeOf (g : Geometry K) :
    g.isValid = true ↔ FreeOf (fun issue => issue.severity = .error) (findings g) := by
  simp [Geometry.isValid, ofSeverity, FreeOf]

theorem severity_of_structural (issue : Issue) (h : Structural issue) :
    issue.severity = .error := by
  cases issue <;> first | rfl | exact absurd h Bool.false_ne_true

/-- Finite positions: the check fails exactly when some finding is about structure. Any positions:
a geometry without errors passes the check. -/
theorem check_agrees_with_findings (g : Geometry K) :
    ((∀ p ∈ g.positions, p.isFinite = true) →
      ((∃ fault, g.check = .error fault) ↔ ∃ f ∈ findings g, f.issue.code.isStructural = true)) ∧
    (g.isValid = true → g.check = .ok ()) := by
  constructor
  · intro finite
    have formed : FreeOf Structural (findings g) ↔ g.check = .ok () := by
      rw [Geometry.check_eq_ok]
      exact ⟨fun h => wellFormed_of_freeOf (fun _ => id) g h (.inr finite), freeOf_findings⟩
    have fails : (∃ fault, g.check = .error fault) ↔ ¬g.check = .ok () := by
      cases g.check <;> simp
    rw [fails, ← formed]
    simp [FreeOf, Structural]
  · intro valid
    rw [Geometry.check_eq_ok]
    exact wellFormed_of_freeOf severity_of_structural g ((isValid_iff_freeOf g).mp valid)
      (.inl fun _ => rfl)

/-- A ring that stays open two collections deep fails both readers; once it is closed, a hole of
the wrong sense is a mere warning. -/
theorem check_agrees_with_findings_nested :
    let outer : Path Float := [⟨0, 0, none⟩, ⟨4, 0, none⟩, ⟨4, 4, none⟩, ⟨0, 4, none⟩, ⟨0, 0, none⟩]
    let inner : Path Float := [⟨1, 1, none⟩, ⟨2, 1, none⟩, ⟨2, 2, some 7⟩, ⟨1, 2, none⟩]
    let nest (hole : Path Float) : Geometry Float :=
      .collection [.point ⟨9, 9, none⟩, .collection [.polygon [outer, hole]]]
    ((∀ p ∈ (nest inner).positions, p.isFinite = true) ∧
      (∃ f ∈ findings (nest inner), f.issue.code.isStructural = true) ∧
      ∃ fault, (nest inner).check = .error fault) ∧
    (findings (nest inner.close) ≠ [] ∧ (nest inner.close).isValid = true ∧
      (nest inner.close).check = .ok ()) := by
  intro outer inner nest
  have finite : ∀ p ∈ (nest inner).positions, p.isFinite = true := by decide +kernel
  have found : ∃ f ∈ findings (nest inner), f.issue.code.isStructural = true := by decide +kernel
  have valid : (nest inner.close).isValid = true := by decide +kernel
  exact ⟨⟨finite, found, ((check_agrees_with_findings (nest inner)).1 finite).mpr found⟩,
    by decide +kernel, valid, (check_agrees_with_findings (nest inner.close)).2 valid⟩

end Geospatial.Validation
