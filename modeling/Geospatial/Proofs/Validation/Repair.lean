import Mathlib.Algebra.Order.Field.Basic
import Geospatial.Proofs.Measure.Rings
import Geospatial.Proofs.Ring.Convex
import Geospatial.Proofs.Ring.Symmetry
import Geospatial.Proofs.Scalar.Real
import Geospatial.Proofs.Validation.Agreement
import Geospatial.Proofs.Validation.Crossing

/-! The repair of rings, in exact arithmetic. A repaired ring is closed and runs the right way round,
unless it is too short or has no area, so that a second repair finds nothing to do. A ring that was
usable before is at most reversed, which no error depends on: neither whether it crosses itself nor
whether a hole lies in its shell. -/
namespace Geospatial

namespace Geometry

section

variable {K : Type} [Scalar K]

/-- The ring closed, if it has three positions or more. -/
def closedUp (ring : Path K) : Path K := if ring.length < 3 then ring else ring.close

/-- Runs against the sense that is asked for. -/
def Against (ccw : Bool) (ring : Path K) : Prop :=
  if ccw then ring.signedArea < 0 else 0 < ring.signedArea

instance (ccw : Bool) (ring : Path K) : Decidable (Against ccw ring) :=
  inferInstanceAs (Decidable (if ccw then ring.signedArea < 0 else 0 < ring.signedArea))

theorem repairRing_eq (ccw : Bool) (ring : Path K) : repairRing ccw ring =
    if Against ccw (closedUp ring) then (closedUp ring).reverse else closedUp ring := rfl

end

variable {K : Type} [Exact K] {ring : Path K} {ccw : Bool}

theorem closedUp_of_settled (settled : 3 ≤ ring.length → ring.endsMeet = true) :
    closedUp ring = ring := by
  rw [closedUp]
  split
  · rfl
  · exact Path.close_of_endsMeet (settled (by omega))

/-- A ring that needs no closing is at most turned round. -/
theorem repairRing_of_settled (settled : 3 ≤ ring.length → ring.endsMeet = true) :
    repairRing ccw ring = if Against ccw ring then ring.reverse else ring := by
  rw [repairRing_eq, closedUp_of_settled settled]

theorem endsMeet_closedUp (long : 3 ≤ (closedUp ring).length) : (closedUp ring).endsMeet = true := by
  rw [closedUp] at long ⊢
  split at long
  · omega
  · rename_i enough
    rw [if_neg enough]
    refine Path.endsMeet_close ?_
    rintro rfl
    contradiction

theorem not_against_reverse (against : Against ccw ring) : ¬Against ccw ring.reverse := by
  unfold Against at against ⊢
  rw [Path.signedArea_reverse]
  cases ccw
  · simpa using le_of_lt against
  · simpa using le_of_lt against

theorem not_against_repairRing (ccw : Bool) (ring : Path K) : ¬Against ccw (repairRing ccw ring) := by
  rw [repairRing_eq]
  split
  · exact not_against_reverse ‹_›
  · assumption

theorem endsMeet_repairRing (long : 3 ≤ (repairRing ccw ring).length) :
    (repairRing ccw ring).endsMeet = true := by
  rw [repairRing_eq] at long ⊢
  split at long
  · rw [if_pos ‹_›, Path.endsMeet_reverse]
    exact endsMeet_closedUp (by simpa using long)
  · rw [if_neg ‹_›]
    exact endsMeet_closedUp long

theorem repairRing_repairRing (ccw : Bool) (ring : Path K) :
    repairRing ccw (repairRing ccw ring) = repairRing ccw ring := by
  rw [repairRing_of_settled endsMeet_repairRing, if_neg (not_against_repairRing ccw ring)]

theorem repairRings_repairRings (rings : List (Path K)) :
    repairRings (repairRings rings) = repairRings rings := by
  cases rings with
  | nil => rfl
  | cons exterior holes =>
    simp only [repairRings, repairRing_repairRing, List.map_map, Function.comp_def]

section

variable {K : Type} {onLine onLine' : Path K → Path K}
  {onRings onRings' : List (Path K) → List (Path K)}

mutual

theorem mapParts_mapParts (g : Geometry K) :
    (g.mapParts onLine onRings).mapParts onLine' onRings' =
      g.mapParts (onLine' ∘ onLine) (onRings' ∘ onRings) := by
  cases g with
  | point | lineString | polygon | multiPoint => rfl
  | multiLineString lines => simp [mapParts]
  | multiPolygon ps => simp [mapParts]
  | collection gs => rw [mapParts, mapParts, mapParts, mapPartsAll_mapPartsAll gs]

theorem mapPartsAll_mapPartsAll (gs : List (Geometry K)) :
    mapPartsAll onLine' onRings' (mapPartsAll onLine onRings gs) =
      mapPartsAll (onLine' ∘ onLine) (onRings' ∘ onRings) gs := by
  cases gs with
  | nil => rfl
  | cons g gs =>
    rw [mapPartsAll, mapPartsAll, mapPartsAll, mapParts_mapParts g, mapPartsAll_mapPartsAll gs]

end

end

theorem repair_repair (g : Geometry K) : g.repair.repair = g.repair := by
  have twice : (repairRings : List (Path K) → List (Path K)) ∘ repairRings = repairRings :=
    funext repairRings_repairRings
  rw [repair, repair, mapParts_mapParts, twice]
  rfl

end Geometry

namespace Validation

open Geospatial.Geometry

section

variable {K : Type} [Scalar K] {bad bad' : Issue → Prop}
  {onRings : List (Path K) → List (Path K)}

mutual

/-- Where a change of the rings turns polygons without findings of one sort into polygons without
findings of another sort, and the findings that are not about polygons agree, it does so with whole
geometries. -/
theorem freeOf_findings_mapParts
    (points : ∀ l : Path K, FreeOf bad (finiteFindings l) → FreeOf bad' (finiteFindings l))
    (lines : ∀ l : Path K, FreeOf bad (lineFindings l) → FreeOf bad' (lineFindings l))
    (empty : ∀ kind, bad' (.empty kind) → bad (.empty kind))
    (polygons : ∀ rings, FreeOf bad (polygonFindings rings) →
      FreeOf bad' (polygonFindings (onRings rings)))
    (g : Geometry K) (free : FreeOf bad (findings g)) :
    FreeOf bad' (findings (g.mapParts id onRings)) := by
  cases g with
  | point p => exact points [p] free
  | lineString line => exact lines line free
  | polygon rings => exact polygons rings free
  | multiPoint ps =>
    rw [mapParts, findings]
    rw [findings] at free
    split at free
    · rw [if_pos ‹_›, freeOf_here]
      exact fun fault => freeOf_here.mp free (empty _ fault)
    · rw [if_neg ‹_›]
      exact points ps free
  | multiLineString ls =>
    rw [mapParts, findings, List.map_id]
    rw [findings] at free
    simp only [freeOf_append, freeOf_orNone, freeOf_eachFindings] at free ⊢
    exact ⟨fun clean fault => free.1 clean (empty _ fault), fun l mem => lines l (free.2 l mem)⟩
  | multiPolygon ps =>
    rw [mapParts, findings]
    rw [findings] at free
    simp only [freeOf_append, freeOf_orNone, freeOf_eachFindings, List.isEmpty_map,
      List.forall_mem_map] at free ⊢
    exact ⟨fun clean fault => free.1 clean (empty _ fault),
      fun rings mem => polygons rings (free.2 rings mem)⟩
  | collection gs => exact freeOf_memberFindings_mapParts points lines empty polygons gs 0 free

theorem freeOf_memberFindings_mapParts
    (points : ∀ l : Path K, FreeOf bad (finiteFindings l) → FreeOf bad' (finiteFindings l))
    (lines : ∀ l : Path K, FreeOf bad (lineFindings l) → FreeOf bad' (lineFindings l))
    (empty : ∀ kind, bad' (.empty kind) → bad (.empty kind))
    (polygons : ∀ rings, FreeOf bad (polygonFindings rings) →
      FreeOf bad' (polygonFindings (onRings rings)))
    (gs : List (Geometry K)) (start : ℕ) (free : FreeOf bad (memberFindings start gs)) :
    FreeOf bad' (memberFindings start (mapPartsAll id onRings gs)) := by
  cases gs with
  | nil => exact freeOf_nil
  | cons g gs =>
    rw [memberFindings, freeOf_append, freeOf_below] at free
    rw [mapPartsAll, memberFindings, freeOf_append, freeOf_below]
    exact ⟨freeOf_findings_mapParts points lines empty polygons g free.1,
      freeOf_memberFindings_mapParts points lines empty polygons gs (start + 1) free.2⟩

end

/-- What a repair puts right. -/
def Repairable (issue : Issue) : Prop :=
  issue.code = .wrongOrientation ∨ issue.code = .ringNotClosed

def Erroneous (issue : Issue) : Prop := issue.severity = .error

theorem ringFault?_eq_none {ring : Path K} : ringFault? ring = none ↔
    4 ≤ ring.length ∧ (∀ p ∈ ring, p.isFinite = true) ∧ ring.endsMeet = true := by
  rw [← firstNonFinite?_eq_none, ringFault?]
  by_cases short : ring.length < 4
  · simp [short, Nat.not_le.mpr short]
  · cases firstNonFinite? ring <;> simp [short, Nat.not_lt.mp short]

theorem erroneous_of_ringFault? {ring : Path K} {issue : Issue}
    (fault : ringFault? ring = some issue) : Erroneous issue := by
  rw [ringFault?] at fault
  split at fault
  · cases fault
    rfl
  · split at fault
    · cases fault
      rfl
    · split at fault <;> cases fault
      rfl

/-- The only fault of a ring that a repair puts right is that it is open. -/
theorem not_repairable_of_ringFault? {ring : Path K} {issue : Issue}
    (closed : 3 ≤ ring.length → ring.endsMeet = true) (fault : ringFault? ring = some issue) :
    ¬Repairable issue := by
  rw [ringFault?] at fault
  split at fault
  · cases fault
    simp [Repairable, Issue.code]
  · rw [closed (by omega)] at fault
    split at fault <;> cases fault
    simp [Repairable, Issue.code]

theorem freeOf_repairable_orientationFindings {ring : Path K} {isHole : Bool}
    (right : ¬Against (!isHole) ring) : FreeOf Repairable (orientationFindings ring isHole) := by
  rw [orientationFindings]
  split
  · simp [Repairable, Issue.code]
  · cases isHole <;> simp_all [Against]

theorem freeOf_repairable_lineFindings (line : Path K) : FreeOf Repairable (lineFindings line) := by
  rw [lineFindings]
  split
  · simp [Repairable, Issue.code]
  · rw [whenFinite]
    split
    · simp [Repairable, Issue.code]
    · split <;> simp [Repairable, Issue.code, duplicateFindings]

theorem freeOf_repairable_finiteFindings (path : Path K) :
    FreeOf Repairable (finiteFindings path) := by
  rw [finiteFindings]
  split <;> simp [Repairable, Issue.code]

/-- Errors of a ring: its faults, and that it crosses itself. -/
theorem freeOf_erroneous_ringFindings {ring : Path K} {isHole : Bool} :
    FreeOf Erroneous (ringFindings ring isHole) ↔
      ringFault? ring = none ∧ crossesItself ring = false := by
  rw [ringFindings]
  cases fault : ringFault? ring with
  | some issue => simp [erroneous_of_ringFault? fault]
  | none =>
    have orientation : FreeOf Erroneous (orientationFindings ring isHole) := by
      rw [orientationFindings]
      split
      · simp [Erroneous, Issue.severity]
      · split <;> simp [Erroneous, Issue.severity]
    simp [orientation, duplicateFindings, Erroneous, Issue.severity]

end

variable {K : Type} [Euclidean K] {ring exterior hole : Path K} {rings : List (Path K)}

theorem freeOf_repairable_ringFindings (ring : Path K) (isHole : Bool) :
    FreeOf Repairable (ringFindings (repairRing (!isHole) ring) isHole) := by
  rw [ringFindings]
  split
  · rename_i fault
    exact freeOf_here.mpr (not_repairable_of_ringFault? endsMeet_repairRing fault)
  · rw [freeOf_append, freeOf_append]
    refine ⟨⟨?_, ?_⟩, freeOf_repairable_orientationFindings (not_against_repairRing _ ring)⟩ <;>
      simp [Repairable, Issue.code, duplicateFindings]

theorem freeOf_repairable_polygonFindings (rings : List (Path K)) :
    FreeOf Repairable (polygonFindings (repairRings rings)) := by
  cases rings with
  | nil => simp [repairRings, polygonFindings, Repairable, Issue.code]
  | cons exterior holes =>
    rw [repairRings, polygonFindings, freeOf_append, freeOf_below, freeOf_eachFindings,
      List.forall_mem_map]
    refine ⟨freeOf_repairable_ringFindings exterior false, fun hole _ => ?_⟩
    rw [freeOf_append]
    exact ⟨freeOf_repairable_ringFindings hole true, by simp [Repairable, Issue.code]⟩

theorem ringFault?_reverse (usable : ringFault? ring = none) : ringFault? ring.reverse = none := by
  rw [ringFault?_eq_none] at usable ⊢
  simpa [Path.endsMeet_reverse] using usable

/-- A usable ring is closed already, so that its repair can only turn it round. -/
theorem repairRing_of_usable (usable : ringFault? ring = none) (ccw : Bool) :
    repairRing ccw ring = ring ∨ repairRing ccw ring = ring.reverse := by
  rw [repairRing_of_settled fun _ => (ringFault?_eq_none.mp usable).2.2]
  split
  · exact .inr rfl
  · exact .inl rfl

theorem ringFault?_repairRing (usable : ringFault? ring = none) (ccw : Bool) :
    ringFault? (repairRing ccw ring) = none := by
  rcases repairRing_of_usable usable ccw with same | turned
  · rwa [same]
  · rw [turned]
    exact ringFault?_reverse usable

theorem leavesShell_of_usable (he : ringFault? exterior = none) (hh : ringFault? hole = none) :
    leavesShell exterior hole = hole.any fun p => exterior.side p == .outside := by
  obtain ⟨long, -, closed⟩ := ringFault?_eq_none.mp hh
  rw [leavesShell, he, hh]
  exact Path.any_opened (fun same => by rw [Path.side_congr same]) (by omega) closed

theorem leavesShell_reverse_left (he : ringFault? exterior = none) (hh : ringFault? hole = none) :
    leavesShell exterior.reverse hole = leavesShell exterior hole := by
  obtain ⟨long, -, closed⟩ := ringFault?_eq_none.mp he
  rw [leavesShell_of_usable (ringFault?_reverse he) hh, leavesShell_of_usable he hh]
  simp only [Path.side_backward (by omega : 2 ≤ exterior.length) closed]

theorem leavesShell_reverse_right (he : ringFault? exterior = none) (hh : ringFault? hole = none) :
    leavesShell exterior hole.reverse = leavesShell exterior hole := by
  rw [leavesShell_of_usable he (ringFault?_reverse hh), leavesShell_of_usable he hh,
    List.any_reverse]

/-- A ring without errors is usable, so its repair turns it round at most, and no error depends on
the sense. -/
theorem freeOf_erroneous_repairRing {isHole : Bool} (ccw : Bool)
    (free : FreeOf Erroneous (ringFindings ring isHole)) :
    FreeOf Erroneous (ringFindings (repairRing ccw ring) isHole) := by
  rw [freeOf_erroneous_ringFindings] at free ⊢
  refine ⟨ringFault?_repairRing free.1 ccw, ?_⟩
  rcases repairRing_of_usable free.1 ccw with same | turned
  · rw [same, free.2]
  · rw [turned, crossesItself_reverse, free.2]

theorem leavesShell_repairRing (he : ringFault? exterior = none) (hh : ringFault? hole = none)
    (ccw ccw' : Bool) :
    leavesShell (repairRing ccw exterior) (repairRing ccw' hole) = leavesShell exterior hole := by
  have inner : leavesShell exterior (repairRing ccw' hole) = leavesShell exterior hole := by
    rcases repairRing_of_usable hh ccw' with same | turned
    · rw [same]
    · rw [turned, leavesShell_reverse_right he hh]
  rcases repairRing_of_usable he ccw with same | turned
  · rw [same, inner]
  · rw [turned, leavesShell_reverse_left he (ringFault?_repairRing hh ccw'), inner]

theorem freeOf_erroneous_polygonFindings (free : FreeOf Erroneous (polygonFindings rings)) :
    FreeOf Erroneous (polygonFindings (repairRings rings)) := by
  cases rings with
  | nil => exact free
  | cons exterior holes =>
    rw [repairRings, polygonFindings, freeOf_append, freeOf_below, freeOf_eachFindings,
      List.forall_mem_map]
    rw [polygonFindings, freeOf_append, freeOf_below, freeOf_eachFindings] at free
    refine ⟨freeOf_erroneous_repairRing true free.1, fun hole mem => ?_⟩
    have inner := free.2 hole mem
    rw [freeOf_append] at inner ⊢
    rw [leavesShell_repairRing (freeOf_erroneous_ringFindings.mp free.1).1
      (freeOf_erroneous_ringFindings.mp inner.1).1]
    exact ⟨freeOf_erroneous_repairRing false inner.1, inner.2⟩

/-- A second repair changes nothing. No ring of a repaired geometry is open or runs the wrong way
round, as far as it is examined at all; and what was valid stays so. -/
theorem repair_settles (g : Geometry K) :
    g.repair.repair = g.repair ∧
    (∀ f ∈ findings g.repair,
      f.issue.code ≠ .wrongOrientation ∧ f.issue.code ≠ .ringNotClosed) ∧
    (g.isValid = true → g.repair.isValid = true) := by
  refine ⟨repair_repair g, fun f mem => not_or.mp ?_, fun valid => ?_⟩
  · have anything : FreeOf (fun _ => False) (findings g) := fun _ _ => id
    have free : FreeOf Repairable (findings g.repair) := by
      refine freeOf_findings_mapParts ?_ ?_ ?_ ?_ g anything
      · exact fun l _ => freeOf_repairable_finiteFindings l
      · exact fun l _ => freeOf_repairable_lineFindings l
      · simp [Repairable, Issue.code]
      · exact fun rings _ => freeOf_repairable_polygonFindings rings
    exact free f mem
  · rw [isValid_iff_freeOf] at valid ⊢
    exact freeOf_findings_mapParts (fun _ => id) (fun _ => id) (fun _ => id)
      (fun _ => freeOf_erroneous_polygonFindings) g valid

/-- Both rings of the polygon run the wrong way round, and the corners of the hole lie on the edges
of the shell: no error before, and none after. -/
theorem repair_settles_touching :
    let shell : Path ℝ := [⟨0, 0, none⟩, ⟨0, 4, none⟩, ⟨4, 0, none⟩, ⟨0, 0, none⟩]
    let hole : Path ℝ := [⟨2, 0, none⟩, ⟨2, 2, none⟩, ⟨0, 2, none⟩, ⟨2, 0, none⟩]
    let nest (rings : List (Path ℝ)) : Geometry ℝ := .collection [.point ⟨9, 9, none⟩, .polygon rings]
    (nest [shell, hole]).isValid = true ∧
    (nest [shell, hole]).repair = nest [shell.reverse, hole.reverse] ∧
    (nest [shell.reverse, hole.reverse]).isValid = true := by
  intro shell hole nest
  have finite (p : Position ℝ) : p.isFinite = true := by
    obtain ⟨x, y, _ | z⟩ := p <;> rfl
  have closed (p q r : Position ℝ) : Path.endsMeet [p, q, r, p] = true := Position.sameXY_self p
  have usable (p q r : Position ℝ) : ringFault? [p, q, r, p] = none :=
    ringFault?_eq_none.mpr ⟨le_rfl, fun p _ => finite p, closed p q r⟩
  have formed (p q r : Position ℝ) (isHole : Bool) :
      FreeOf Erroneous (ringFindings [p, q, r, p] isHole) :=
    freeOf_erroneous_ringFindings.mpr ⟨usable p q r, crossesItself_of_short le_rfl (closed p q r)⟩
  have opened : shell.opened = [⟨0, 0, none⟩, ⟨0, 4, none⟩, ⟨4, 0, none⟩] :=
    Path.opened_eq_dropLast le_rfl (closed _ _ _)
  have halfway (p : Position ℝ) {a b : Position ℝ} (edge : (a, b) ∈ Path.cyclicPairs shell.opened)
      (hx : p.x = (a.x + b.x) / 2) (hy : p.y = (a.y + b.y) / 2) : shell.side p = .boundary :=
    Path.side_of_on (by rw [opened]; exact le_rfl) edge
      ⟨1 / 2, by norm_num, by norm_num, by rw [hx]; ring, by rw [hy]; ring⟩
  have on (p : Position ℝ) (mem : p ∈ hole) : shell.side p = .boundary := by
    rw [opened, Path.cyclicPairs_three] at halfway
    simp only [hole, List.mem_cons, List.not_mem_nil, or_false] at mem
    rcases mem with rfl | rfl | rfl | rfl
    · exact halfway _ (.tail _ (.tail _ (.head _))) (by norm_num) (by norm_num)
    · exact halfway _ (.tail _ (.head _)) (by norm_num) (by norm_num)
    · exact halfway _ (.head _) (by norm_num) (by norm_num)
    · exact halfway _ (.tail _ (.tail _ (.head _))) (by norm_num) (by norm_num)
  have inside : leavesShell shell hole = false := by
    rw [leavesShell_of_usable (usable _ _ _) (usable _ _ _), List.any_eq_false]
    intro p mem
    rw [on p mem]
    decide
  have valid : (nest [shell, hole]).isValid = true := by
    have anywhere (path : Path ℝ) : firstNonFinite? path = none :=
      firstNonFinite?_eq_none.mpr fun p _ => finite p
    have outer : FreeOf Erroneous (ringFindings shell false) := formed _ _ _ false
    have inner : FreeOf Erroneous (ringFindings hole true) := formed _ _ _ true
    have free : FreeOf Erroneous (findings (nest [shell, hole])) := by
      simp [nest, findings, memberFindings, polygonFindings, finiteFindings, inside, anywhere,
        outer, inner]
    exact (isValid_iff_freeOf _).mpr free
  have turned : (nest [shell, hole]).repair = nest [shell.reverse, hole.reverse] := by
    have outer : repairRing true shell = shell.reverse := by
      rw [repairRing_of_settled fun _ => closed _ _ _, if_pos]
      norm_num [Against, Path.signedArea_eq, Path.crossSum, Path.edgeSum, shell,
        Path.cyclicPairs, Path.cross]
    have inner : repairRing false hole = hole.reverse := by
      rw [repairRing_of_settled fun _ => closed _ _ _, if_pos]
      norm_num [Against, Path.signedArea_eq, Path.crossSum, Path.edgeSum, hole,
        Path.cyclicPairs, Path.cross]
    simp [nest, repair, mapParts, mapPartsAll, repairRings, outer, inner]
  exact ⟨valid, turned, turned ▸ (repair_settles (nest [shell, hole])).2.2 valid⟩

end Validation
end Geospatial
