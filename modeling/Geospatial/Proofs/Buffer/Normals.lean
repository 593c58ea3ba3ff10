import Geospatial.Buffer
import Geospatial.Proofs.Outcome
import Geospatial.Proofs.Ring.Cycle
import Geospatial.Proofs.Position
import Geospatial.Proofs.Scalar.Rounding

/-! Which normals a buffer asks for, and how far it moves positions by them. A line loses its repeated
positions first, so that all of its edges lead from one place to another. The rings of a polygon are
taken as they are, and ask for the normal of an edge that stays in one place where a vertex repeats
the one before it. A normal and the direction of a joint have about the length one, and half of the
angle of a joint has a cosine that is held away from zero; so an offset is not much longer than the
distance, and what is moved stays finite. -/
namespace Geospatial

section Asked

variable {K : Type} [Scalar K]

namespace Path

/-- Every edge leads from one place to another. -/
def DistinctEnds (edges : List (Position K × Position K)) : Prop :=
  ∀ e ∈ edges, e.1.sameXY e.2 = false

theorem distinctEnds_go (last : Position K) (ps : Path K) :
    DistinctEnds (pairs (last :: withoutRepeats.go last ps)) := by
  induction ps generalizing last with
  | nil => exact fun e mem => absurd mem List.not_mem_nil
  | cons q ps ih =>
    rw [withoutRepeats.go]
    split
    · exact ih last
    · rename_i apart
      have shape : pairs (last :: q :: withoutRepeats.go q ps) =
          (last, q) :: pairs (q :: withoutRepeats.go q ps) := rfl
      rw [DistinctEnds, shape, List.forall_mem_cons]
      exact ⟨Bool.eq_false_iff.mpr apart, ih q⟩

theorem distinctEnds_withoutRepeats (line : Path K) : DistinctEnds (pairs line.withoutRepeats) := by
  cases line with
  | nil => exact fun e mem => absurd mem List.not_mem_nil
  | cons p ps => exact distinctEnds_go p ps

end Path

namespace Geometry

mutual

/-- The rings of all polygons, those of a collection included. -/
def ringsWithin : Geometry K → List (Path K)
  | .polygon rings => rings
  | .multiPolygon ps => ps.flatten
  | .collection gs => ringsWithinAll gs
  | _ => []

def ringsWithinAll : List (Geometry K) → List (Path K)
  | [] => []
  | g :: gs => g.ringsWithin ++ ringsWithinAll gs

end

/-- No vertex of a ring repeats the one before it, all the way round. -/
def RingsWithoutRepeats (g : Geometry K) : Prop :=
  ∀ ring ∈ g.ringsWithin, Path.DistinctEnds (Path.cyclicPairs ring.opened)

end Geometry

namespace Buffer

/-- The normals agree on every edge that leads from one place to another. -/
def AgreeOnEdges (n m : Position K → Position K → Shift K) : Prop :=
  ∀ a b : Position K, a.sameXY b = false → n a b = m a b

variable {n m : Position K → Position K → Shift K} (d : K) (o : BufferOptions K)

section

variable (agree : AgreeOnEdges n m)
include agree

theorem map_normals_congr {edges : List (Position K × Position K)}
    (distinct : Path.DistinctEnds edges) :
    (edges.map fun e => n e.1 e.2) = edges.map fun e => m e.1 e.2 :=
  List.map_congr_left fun e mem => agree e.1 e.2 (distinct e mem)

theorem lineRings_congr (line : Path K) : lineRings n line d o = lineRings m line d o := by
  simp only [lineRings, bandRing, map_normals_congr agree (Path.distinctEnds_withoutRepeats line)]

theorem offsetRing_congr {ring : Path K}
    (distinct : Path.DistinctEnds (Path.cyclicPairs ring.opened)) :
    offsetRing n ring d = offsetRing m ring d := by
  simp only [offsetRing, map_normals_congr agree distinct]

theorem polygonRings_congr (rings : List (Path K))
    (distinct : ∀ ring ∈ rings, Path.DistinctEnds (Path.cyclicPairs ring.opened)) :
    polygonRings n rings d = polygonRings m rings d := by
  cases rings with
  | nil => rfl
  | cons exterior holes =>
    obtain ⟨first, rest⟩ := List.forall_mem_cons.mp distinct
    have same : holes.filterMap (shrunkHole? n d) = holes.filterMap (shrunkHole? m d) := by
      refine List.filterMap_congr fun hole mem => ?_
      simp only [shrunkHole?, offsetRing_congr _ agree (rest hole mem)]
    simp only [polygonRings, offsetRing_congr _ agree first, same]

end

mutual

theorem parts_congr (agree : AgreeOnEdges n m) (g : Geometry K) (distinct : g.RingsWithoutRepeats) :
    parts n d o g = parts m d o g := by
  cases g with
  | point p => rfl
  | multiPoint points => rfl
  | lineString line => rw [parts, parts, lineRings_congr d o agree]
  | multiLineString lines => simp only [parts, lineRings_congr d o agree]
  | polygon rings => rw [parts, parts, polygonRings_congr d agree rings distinct]
  | multiPolygon ps =>
    have each : ∀ rings ∈ ps, polygonRings n rings d = polygonRings m rings d := fun rings mem =>
      polygonRings_congr d agree rings fun ring inside =>
        distinct ring (List.mem_flatten.mpr ⟨rings, mem, inside⟩)
    rw [parts, parts, mapM_congr each]
  | collection gs => exact partsOfAll_congr agree gs distinct

theorem partsOfAll_congr (agree : AgreeOnEdges n m) (gs : List (Geometry K))
    (distinct : ∀ ring ∈ Geometry.ringsWithinAll gs,
      Path.DistinctEnds (Path.cyclicPairs ring.opened)) :
    partsOfAll n d o gs = partsOfAll m d o gs := by
  cases gs with
  | nil => rfl
  | cons g gs =>
    rw [Geometry.ringsWithinAll, List.forall_mem_append] at distinct
    rw [partsOfAll, partsOfAll, parts_congr agree g distinct.1,
      partsOfAll_congr agree gs distinct.2]

end

end Buffer

/-- A buffer does not depend on what a normal is of two positions in the same place. -/
theorem Geometry.bufferBy_congr {n m : Position K → Position K → Buffer.Shift K}
    (agree : Buffer.AgreeOnEdges n m) {g : Geometry K} (distinct : g.RingsWithoutRepeats)
    (o : BufferOptions K) : g.bufferBy n o = g.bufferBy m o := by
  have parts (d : K) := Buffer.parts_congr d o agree g distinct
  cases g with
  | polygon rings => simp only [bufferBy, Buffer.polygonRings_congr _ agree rings distinct]
  | lineString line => simp only [bufferBy, Buffer.lineRings_congr _ o agree]
  | point p => rfl
  | _ => simp only [bufferBy, parts]

end Asked

section Moved

open Scalar (LawfulSize)
open Scalar.LawfulSize

variable {K : Type} [Scalar K] [LawfulSize K]

/-- Both coordinates are finite, and at most two to the power `k` in size. -/
def Position.Within (k : ℤ) (p : Position K) : Prop :=
  LawfulSize.Within k p.x ∧ LawfulSize.Within k p.y

theorem Position.Within.mono {j k : ℤ} {p : Position K} (hp : p.Within j) (le : j ≤ k) :
    p.Within k :=
  ⟨within_mono hp.1 le, within_mono hp.2 le⟩

namespace Buffer

/-- Both parts are finite, and at most two to the power `k` in size. -/
def Shift.Within (k : ℤ) (v : Shift K) : Prop := LawfulSize.Within k v.x ∧ LawfulSize.Within k v.y

theorem Shift.Within.mono {j k : ℤ} {v : Shift K} (hv : v.Within j) (le : j ≤ k) : v.Within k :=
  ⟨within_mono hv.1 le, within_mono hv.2 le⟩

variable {a b : Position K} {m n : Shift K} {d : K}

/-- The normal of two positions in different places. -/
theorem within_normal (ha : a.Within 1015) (hb : b.Within 1015) (apart : a.sameXY b = false) :
    (normal a b).Within 2 := by
  have dx : LawfulSize.Within 1020 (b.x - a.x) :=
    within_mono (within_sub hb.1 ha.1 (by decide) (by decide)) (by decide)
  have dy : LawfulSize.Within 1020 (b.y - a.y) :=
    within_mono (within_sub hb.2 ha.2 (by decide) (by decide)) (by decide)
  have apart : (b.x - a.x == 0 && b.y - a.y == 0) = false := by
    by_contra still
    rw [Bool.not_eq_false, Bool.and_eq_true] at still
    have wide {c : K} (hc : LawfulSize.Within 1015 c) : LawfulSize.Within 1022 c :=
      within_mono hc (by decide)
    have hx := Scalar.beq_iff.mp (beq_of_sub (wide hb.1) (wide ha.1) still.1)
    have hy := Scalar.beq_iff.mp (beq_of_sub (wide hb.2) (wide ha.2) still.2)
    rw [Position.sameXY, Scalar.beq_iff.mpr hx.symm, Scalar.beq_iff.mpr hy.symm] at apart
    contradiction
  obtain ⟨along, -, back⟩ := within_legs dx dy (hypot_pos dx dy apart)
  exact ⟨back, along⟩

theorem within_scale (hn : n.Within 2) (hd : LawfulSize.Within 1015 d) : (n.scale d).Within 1017 :=
  ⟨within_mul hn.1 hd (by decide) (by decide), within_mul hn.2 hd (by decide) (by decide)⟩

theorem within_jointOffset (hm : m.Within 2) (hn : n.Within 2) (hd : LawfulSize.Within 1015 d) :
    (jointOffset m n d).Within 1018 := by
  have sx := within_add hm.1 hn.1 (by decide) (by decide)
  have sy := within_add hm.2 hn.2 (by decide) (by decide)
  have wide {c : K} (hc : LawfulSize.Within 3 c) : LawfulSize.Within 1020 c :=
    within_mono hc (by decide)
  simp only [jointOffset]
  split
  · exact (within_scale hm hd).mono (by decide)
  · rename_i long
    have number : shortest ≤ (shortest : K) := Scalar.le_right (Scalar.le_of_lt small_pos)
    have least : shortest ≤ Scalar.hypot (m.x + n.x) (m.y + n.y) :=
      Scalar.le_of_not_lt number (hypot_number (wide sx) (wide sy)) long
    obtain ⟨nx, ny, -⟩ := within_legs (wide sx) (wide sy) (Scalar.lt_of_lt_of_le small_pos least)
    have cosine := within_add (within_mul nx hm.1 (by decide) (by decide))
      (within_mul ny hm.2 (by decide) (by decide)) (by decide) (by decide)
    obtain ⟨size, held⟩ := Scalar.within_max_half cosine (by decide)
    have part {c : K} (hc : LawfulSize.Within 2 c) :=
      within_div_half (within_mul hc hd (by decide) (by decide)) (by decide) (by decide) size held
    exact ⟨part nx, part ny⟩

theorem within_heading (ha : a.Within 1015) (hb : b.Within 1015) :
    LawfulSize.Within 2 (heading a b) :=
  within_atan2 (isFinite_of_within (within_sub hb.2 ha.2 (by decide) (by decide)))
    (isFinite_of_within (within_sub hb.1 ha.1 (by decide) (by decide)))

/-- How far the end of a line is moved along its heading. -/
theorem within_reach {h : K} (hh : LawfulSize.Within 2 h) (hd : LawfulSize.Within 1015 d) :
    Shift.Within 1019 ⟨Scalar.cos h * d, Scalar.sin h * d⟩ := by
  have angle := isFinite_of_within hh
  exact ⟨within_mono (within_mul (within_cos angle) hd (by decide) (by decide)) (by decide),
    within_mono (within_mul (within_sin angle) hd (by decide) (by decide)) (by decide)⟩

theorem within_polar {theta : K} (ha : a.Within 1015) (hd : LawfulSize.Within 1015 d)
    (angle : Scalar.isFinite theta = true) : (Geometry.polar a d theta).Within 1016 :=
  ⟨within_add ha.1 (within_mul hd (within_cos angle) (by decide) (by decide)) (by decide)
      (by decide),
    within_add ha.2 (within_mul hd (within_sin angle) (by decide) (by decide)) (by decide)
      (by decide)⟩

theorem isFinite_turn {i steps : ℕ} (less : i < steps) (word : steps < 2 ^ 64) :
    Scalar.isFinite (Geometry.turn i steps : K) = true := by
  have two : LawfulSize.Within 64 (2 : K) := within_cast (n := 2) (by decide)
  have whole := within_mul (within_mul two within_pi (by decide) (by decide))
    (within_cast (n := i) (by omega)) (by decide) (by decide)
  exact isFinite_of_within (within_div_cast whole (by decide) (by decide) (by omega) word)

/-- The angles of an arc, from a start and with a sweep that are not far from a turn. -/
theorem isFinite_arc {start sweep : K} (hs : LawfulSize.Within 66 start)
    (hw : LawfulSize.Within 2 sweep) {i pieces : ℕ} (less : i < pieces - 1)
    (word : pieces < 2 ^ 64) :
    Scalar.isFinite (start + sweep * Nat.cast (i + 1) / Nat.cast pieces) = true := by
  have part := within_mul hw (within_cast (n := i + 1) (by omega)) (by decide) (by decide)
  have share := within_div_cast part (by decide) (by decide) (show 0 < pieces by omega) word
  exact isFinite_of_within (within_add hs share (by decide) (by decide))

end Buffer

end Moved

end Geospatial
