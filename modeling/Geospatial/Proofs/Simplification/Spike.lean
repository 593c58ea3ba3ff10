import Geospatial.Proofs.Simplification.Corner

/-! Lines and rings without spikes. What is a spike is up to the turn at a vertex and the threshold,
so that everything holds for rounded angles, too, and for a threshold that is not a number. -/
namespace Geospatial.Path

variable {K : Type} [Scalar K] {points rest ring : Path K} {threshold : K} {i : ℕ}
  {a b c : Position K}

theorem isSpike_eq_false : isSpike threshold a b c = false ↔
    ∀ angle, turnAngle? a b c = some angle → ¬threshold < angle := by
  rw [isSpike]
  cases turnAngle? a b c <;> simp

theorem spikeFlags_eq (threshold : K) (points : Path K) : spikeFlags threshold points =
    (corners points).map fun t => isSpike threshold t.1 t.2.1 t.2.2 :=
  eq_map_corners (fun _ _ _ _ => rfl) (fun | [], _ | [_], _ | [_, _], _ => rfl) points

theorem getElem?_spikeFlags (threshold : K) {spike : Bool} :
    (spikeFlags threshold points)[i]? = some spike ↔
      ∃ a b c, Corner points i a b c ∧ isSpike threshold a b c = spike := by
  rw [spikeFlags_eq]
  exact getElem?_map_corners

theorem findIdx?_spikeFlags (threshold : K) (points : Path K) :
    (∃ i, (spikeFlags threshold points).findIdx? id = some i ∧
      ∃ a b c, Corner points i a b c ∧ isSpike threshold a b c = true) ∨
    (spikeFlags threshold points).findIdx? id = none ∧
      ∀ i a b c, Corner points i a b c → isSpike threshold a b c = false := by
  cases found : (spikeFlags threshold points).findIdx? id with
  | none =>
    refine .inr ⟨rfl, fun i a b c corner => ?_⟩
    have here := (getElem?_spikeFlags threshold).mpr ⟨a, b, c, corner, rfl⟩
    exact List.findIdx?_eq_none_iff.mp found _ (List.mem_of_getElem? here)
  | some i =>
    obtain ⟨inside, spike, -⟩ := List.findIdx?_eq_some_iff_getElem.mp found
    refine .inl ⟨i, rfl, (getElem?_spikeFlags threshold).mp ?_⟩
    rw [List.getElem?_eq_getElem inside]
    exact congrArg some spike

/-- A spike between two other vertices of a line is taken out. -/
def CutsSpike (threshold : K) (points rest : Path K) : Prop :=
  ∃ i a b c, Corner points i a b c ∧ isSpike threshold a b c = true ∧
    rest = points.eraseIdx (i + 1)

/-- A spike is taken out of a ring of more than three vertices. -/
def CutsRingSpike (threshold : K) (ring rest : Path K) : Prop :=
  ∃ i a b c, 3 < ring.length ∧ RingCorner ring i a b c ∧ isSpike threshold a b c = true ∧
    rest = ring.eraseIdx i

theorem CutsSpike.thinned (cuts : CutsSpike threshold points rest) : points.Thinned rest := by
  obtain ⟨i, a, b, c, corner, -, rfl⟩ := cuts
  exact thinned_eraseIdx corner.inside

theorem CutsSpike.length_lt (cuts : CutsSpike threshold points rest) :
    rest.length < points.length := by
  obtain ⟨i, a, b, c, corner, -, rfl⟩ := cuts
  exact corner.length_eraseIdx_lt

theorem CutsRingSpike.length_eq (cuts : CutsRingSpike threshold ring rest) :
    rest.length + 1 = ring.length ∧ 3 < ring.length := by
  obtain ⟨i, a, b, c, long, corner, -, rfl⟩ := cuts
  rw [List.length_eraseIdx_of_lt corner.inside]
  omega

theorem CutsRingSpike.sublist (cuts : CutsRingSpike threshold ring rest) : rest.Sublist ring := by
  obtain ⟨i, a, b, c, -, -, -, rfl⟩ := cuts
  exact List.eraseIdx_sublist _ _

/-- No vertex turns by more than the threshold between the two others. -/
theorem dropSpike?_spec (threshold : K) (points : Path K) :
    (∃ rest, dropSpike? threshold points = some rest ∧ CutsSpike threshold points rest) ∨
      dropSpike? threshold points = none ∧
        ∀ i a b c, Corner points i a b c → isSpike threshold a b c = false := by
  rw [dropSpike?]
  by_cases few : points.length ≤ 2
  · refine .inr ⟨by rw [if_pos few]; rfl, fun i a b c corner => ?_⟩
    have inside := corner.inside
    omega
  · rw [if_neg few]
    rcases findIdx?_spikeFlags threshold points with
      ⟨i, found, a, b, c, corner, spike⟩ | ⟨none, all⟩
    · exact .inl ⟨_, by rw [found]; rfl, i, a, b, c, corner, spike, rfl⟩
    · exact .inr ⟨by rw [none]; rfl, all⟩

theorem dropRingSpike?_spec (threshold : K) (ring : Path K) :
    (∃ rest, dropRingSpike? threshold ring = some rest ∧ CutsRingSpike threshold ring rest) ∨
      dropRingSpike? threshold ring = none ∧ (3 < ring.length →
        ∀ i a b c, RingCorner ring i a b c → isSpike threshold a b c = false) := by
  rw [dropRingSpike?]
  by_cases few : ring.length ≤ 3
  · exact .inr ⟨by rw [if_pos few]; rfl, fun many => absurd few (Nat.not_le_of_lt many)⟩
  · rw [if_neg few]
    rcases findIdx?_spikeFlags threshold (around ring) with
      ⟨i, found, a, b, c, corner, spike⟩ | ⟨none, all⟩
    · have cut : CutsRingSpike threshold ring (ring.eraseIdx i) :=
        ⟨i, a, b, c, Nat.lt_of_not_le few, corner_around.mp corner, spike, rfl⟩
      exact .inl ⟨_, by rw [← around, found]; rfl, cut⟩
    · refine .inr ⟨by rw [← around, none]; rfl, fun _ i a b c corner => ?_⟩
      exact all i a b c (corner_around.mpr corner)

theorem CutsRingSpike.of_steps (steps : Relation.ReflTransGen (CutsRingSpike threshold) ring rest) :
    rest.Sublist ring ∧ (2 ≤ ring.length → 2 ≤ rest.length) := by
  induction steps with
  | refl => exact ⟨.refl ring, id⟩
  | tail _ step ih =>
    have shorter := step.length_eq
    exact ⟨step.sublist.trans ih.1, fun _ => by omega⟩

theorem removeSpikes_of_line (unlooped : points.isLoop = false) (threshold : K) :
    ∃ rest, points.removeSpikes threshold = rest ∧ rest.removeSpikes threshold = rest ∧
      Relation.ReflTransGen (CutsSpike threshold) points rest ∧
      ∀ i a b c, Corner rest i a b c → isSpike threshold a b c = false := by
  obtain ⟨steps, blunt, again⟩ :=
    Order.shrink_settles (dropSpike?_spec threshold) CutsSpike.length_lt points
  have still := (thinned_of_steps CutsSpike.thinned steps).isLoop_eq_false unlooped
  refine ⟨_, if_neg (Bool.eq_false_iff.mp unlooped), ?_, steps, blunt⟩
  rw [removeSpikes, if_neg (Bool.eq_false_iff.mp still)]
  exact again

variable [Scalar.LawfulOrder K]

theorem removeSpikes_of_loop (looped : points.isLoop = true)
    (finite : ∀ p ∈ points, p.isFinite = true) (threshold : K) :
    ∃ ring : Path K, points.removeSpikes threshold = ring.closedCopy ∧ ring ≠ [] ∧
      ring.closedCopy.isLoop = true ∧ ring.closedCopy.removeSpikes threshold = ring.closedCopy ∧
      Relation.ReflTransGen (CutsRingSpike threshold) points.dropLast ring ∧
      (3 < ring.length → ∀ i a b c, RingCorner ring i a b c → isSpike threshold a b c = false) := by
  obtain ⟨steps, blunt, again⟩ := Order.shrink_settles (dropRingSpike?_spec threshold)
    (fun cuts => by have := CutsRingSpike.length_eq cuts; omega) points.dropLast
  obtain ⟨sublist, size⟩ := CutsRingSpike.of_steps steps
  refine ⟨_, if_pos looped, ?_⟩
  generalize Order.shrink (dropRingSpike? threshold) points.dropLast = ring at *
  have long : 2 ≤ ring.length := by
    have many := two_lt_of_isLoop looped
    apply size
    rw [List.length_dropLast]
    omega
  have filled : ring ≠ [] := List.ne_nil_of_length_pos (by omega)
  -- The vertex that closed the loop may be gone, so it is closed by the first one that is left.
  have closed : (closedCopy ring).isLoop = true := by
    apply isLoop_closedCopy long
    intro p mem
    exact Position.sameXY_of_isFinite (finite p (List.mem_of_mem_dropLast (sublist.subset mem)))
  refine ⟨filled, closed, ?_, steps, blunt⟩
  rw [removeSpikes, if_pos closed, dropLast_closedCopy filled, again]

/-- Spikes are taken out one after the other until none is left, or three vertices of a ring. An
open line keeps both ends, and a closed one is closed again, be it by another vertex. A second time
nothing is taken out. -/
theorem removeSpikes_leaves_none (finite : ∀ p ∈ points, p.isFinite = true) (threshold : K) :
    ∃ rest, points.removeSpikes threshold = rest ∧ rest.removeSpikes threshold = rest ∧
      (points.isLoop = false → rest.head? = points.head? ∧ rest.getLast? = points.getLast? ∧
        Relation.ReflTransGen (CutsSpike threshold) points rest ∧
        ∀ i a b c, Corner rest i a b c →
          ∀ angle, turnAngle? a b c = some angle → ¬threshold < angle) ∧
      (points.isLoop = true → rest.isLoop = true ∧ ∃ ring first, ring.head? = some first ∧
        rest = ring ++ [first] ∧
        Relation.ReflTransGen (CutsRingSpike threshold) points.dropLast ring ∧
        (3 < ring.length → ∀ i a b c, RingCorner ring i a b c →
          ∀ angle, turnAngle? a b c = some angle → ¬threshold < angle)) := by
  by_cases looped : points.isLoop = true
  · obtain ⟨ring, result, filled, closed, again, steps, blunt⟩ :=
      removeSpikes_of_loop looped finite threshold
    refine ⟨_, result, again, fun unlooped => ?_, fun _ => ⟨closed, ring, ring.head filled, ?_⟩⟩
    · rw [looped] at unlooped
      contradiction
    · have first := List.head?_eq_some_head filled
      refine ⟨first, by rw [closedCopy, first, Option.toList_some], steps, ?_⟩
      exact fun many i a b c corner => isSpike_eq_false.mp (blunt many i a b c corner)
  · obtain ⟨rest, result, again, steps, blunt⟩ :=
      removeSpikes_of_line (Bool.eq_false_iff.mpr looped) threshold
    have thinned := thinned_of_steps CutsSpike.thinned steps
    refine ⟨rest, result, again, fun _ => ⟨thinned.head, thinned.last, steps, ?_⟩,
      fun looped' => absurd looped' looped⟩
    exact fun i a b c corner => isSpike_eq_false.mp (blunt i a b c corner)

/-- A vertex at which the line turns back on itself. -/
theorem turnAngle?_reversal :
    turnAngle? ⟨0, 0, none⟩ ⟨2, 0, none⟩ ⟨1, 0, none⟩ = some (180 : ℝ) := by
  have long : Scalar.hypot (2 : ℝ) 0 = 2 := by simp [Euclidean.hypot_zero_right]
  have short : Scalar.hypot (-1 : ℝ) 0 = 1 := by simp [Euclidean.hypot_zero_right]
  have about : Scalar.clamp (-1) 1 (-1 : ℝ) = -1 := by norm_num [Scalar.clamp]
  have half : Scalar.degrees (Scalar.acos (-1 : ℝ)) = 180 := by
    change Real.arccos (-1) * (180 / Real.pi) = 180
    rw [Real.arccos_neg_one]
    field_simp
  norm_num [turnAngle?, long, short, about, half]

/-- A line that turns back on itself. -/
theorem removeSpikes_leaves_none_reversal :
    ∃ line : Path ℝ, line = [⟨0, 0, none⟩, ⟨2, 0, none⟩, ⟨1, 0, none⟩] ∧
      (∀ p ∈ line, p.isFinite = true) ∧ line.isLoop = false ∧
      line.removeSpikes 160 = [⟨0, 0, none⟩, ⟨1, 0, none⟩] := by
  refine ⟨_, rfl, ?_⟩
  have finite : ∀ p ∈ ([⟨0, 0, none⟩, ⟨2, 0, none⟩, ⟨1, 0, none⟩] : Path ℝ), p.isFinite = true := by
    simp only [List.forall_mem_cons]
    exact ⟨rfl, rfl, rfl, nofun⟩
  have unlooped : isLoop ([⟨0, 0, none⟩, ⟨2, 0, none⟩, ⟨1, 0, none⟩] : Path ℝ) = false := by
    simp [isLoop, endsMeet, Position.sameXY]
  obtain ⟨rest, result, -, line, -⟩ := removeSpikes_leaves_none finite 160
  obtain ⟨-, -, steps, blunt⟩ := line unlooped
  refine ⟨finite, unlooped, result.trans ?_⟩
  rcases (thinned_of_steps CutsSpike.thinned steps).of_three (by simp) with rfl | cut
  · have turn : ¬(160 : ℝ) < 180 := blunt 0 _ _ _ ⟨rfl, rfl, rfl⟩ 180 turnAngle?_reversal
    norm_num at turn
  · exact cut

end Geospatial.Path
