import Mathlib
import Geospatial.Proofs.Buffer.Rings
import Geospatial.Proofs.Scalar.DoubleSize

/-! What a buffer gives where it gives something: a well-formed geometry with finite coordinates.
The rings must not repeat a vertex next to itself, since the normal of the edge between the two is
not a number then. Over doubles, coordinates and distances up to two to the power 1015 leave room
enough below the greatest double, whatever the edges, caps and numbers of steps. -/
namespace Geospatial

section Structure

open Scalar (LawfulSize)
open Scalar.LawfulSize

variable {K : Type} [Scalar K]

theorem BufferOptions.checkedMeters_eq_ok {o : BufferOptions K} {d : K}
    (ok : o.checkedMeters = .ok d) : d = o.meters ∧ 3 ≤ o.steps := by
  unfold checkedMeters at ok
  split at ok
  · contradiction
  · split at ok
    · contradiction
    · rename_i enough
      exact ⟨(Except.ok.inj ok).symm, not_lt.mp enough⟩

namespace Buffer

variable [LawfulSize K] {d : K} {o : BufferOptions K}

mutual

theorem sound_parts (hd : LawfulSize.Within 1015 d) (three : 3 ≤ o.steps) (word : o.steps < 2 ^ 64)
    (g : Geometry K) (near : ∀ p ∈ g.positions, p.Within 1015) (distinct : g.RingsWithoutRepeats)
    {polygons : List (List (Path K))} (made : parts normal d o g = .ok polygons) :
    ∀ rings ∈ polygons, Sound rings := by
  cases g with
  | point p =>
    cases made
    exact List.forall_mem_singleton.mpr (sound_pointRings (near p List.mem_cons_self) hd three word)
  | multiPoint points =>
    cases made
    exact List.forall_mem_map.mpr fun p mem => sound_pointRings (near p mem) hd three word
  | lineString line =>
    obtain ⟨rings, ok, same⟩ := bind_eq_ok.mp made
    cases same
    exact List.forall_mem_singleton.mpr (sound_lineRings near hd three word ok)
  | multiLineString lines =>
    intro rings mem
    obtain ⟨line, here, ok⟩ := exists_of_mem_mapM made mem
    exact sound_lineRings (fun p hp => near p (List.mem_flatten.mpr ⟨line, here, hp⟩)) hd three
      word ok
  | polygon rings =>
    obtain ⟨rings', ok, same⟩ := bind_eq_ok.mp made
    cases same
    exact List.forall_mem_singleton.mpr (sound_polygonRings
      (fun ring mem p hp => near p (List.mem_flatten.mpr ⟨ring, mem, hp⟩)) distinct hd ok)
  | multiPolygon ps =>
    intro rings' mem
    obtain ⟨rings, here, ok⟩ := exists_of_mem_mapM made mem
    have inside {ring : Path K} (hr : ring ∈ rings) : ring ∈ ps.flatten :=
      List.mem_flatten.mpr ⟨rings, here, hr⟩
    exact sound_polygonRings
      (fun ring hr p hp => near p (List.mem_flatten.mpr ⟨ring, inside hr, hp⟩))
      (fun ring hr => distinct ring (inside hr)) hd ok
  | collection gs => exact sound_partsOfAll hd three word gs near distinct made

theorem sound_partsOfAll (hd : LawfulSize.Within 1015 d) (three : 3 ≤ o.steps)
    (word : o.steps < 2 ^ 64) (gs : List (Geometry K))
    (near : ∀ p ∈ Geometry.positionsOfAll gs, p.Within 1015)
    (distinct : ∀ ring ∈ Geometry.ringsWithinAll gs,
      Path.DistinctEnds (Path.cyclicPairs ring.opened))
    {polygons : List (List (Path K))} (made : partsOfAll normal d o gs = .ok polygons) :
    ∀ rings ∈ polygons, Sound rings := by
  cases gs with
  | nil =>
    cases made
    exact fun rings mem => absurd mem List.not_mem_nil
  | cons g gs =>
    obtain ⟨first, ok, made⟩ := bind_eq_ok.mp made
    obtain ⟨rest, oks, same⟩ := bind_eq_ok.mp made
    cases same
    rw [Geometry.positionsOfAll, List.forall_mem_append] at near
    rw [Geometry.ringsWithinAll, List.forall_mem_append] at distinct
    exact List.forall_mem_append.mpr ⟨sound_parts hd three word g near.1 distinct.1 ok,
      sound_partsOfAll hd three word gs near.2 distinct.2 oks⟩

end

end Buffer

open Buffer

/-- What a buffer is made of, where each part is sound. -/
theorem Geometry.polygonal_sound {r : Geometry K} :
    (∃ rings, r = .polygon rings ∧ Sound rings) ∨
      (∃ ps, r = .multiPolygon ps ∧ ps ≠ [] ∧ ∀ rings ∈ ps, Sound rings) →
    r.WellFormed ∧ ∀ p ∈ r.positions, p.isFinite = true := by
  have formed {rings : List (Path K)} (sound : Sound rings) : RingsFormed rings :=
    ⟨sound.1, fun ring mem => ⟨(sound.2 ring mem).long, (sound.2 ring mem).closed⟩⟩
  have finite {rings : List (Path K)} (sound : Sound rings) :
      ∀ p ∈ rings.flatten, p.isFinite = true := by
    intro p mem
    obtain ⟨ring, here, hp⟩ := List.mem_flatten.mp mem
    exact (sound.2 ring here).finite p hp
  rintro (⟨rings, rfl, sound⟩ | ⟨ps, rfl, filled, sound⟩)
  · exact ⟨.polygon (formed sound), finite sound⟩
  · refine ⟨.multiPolygon filled fun rings mem => formed (sound rings mem), fun p mem => ?_⟩
    obtain ⟨ring, here, hp⟩ := List.mem_flatten.mp mem
    obtain ⟨rings, inside, hr⟩ := List.mem_flatten.mp here
    exact finite (sound rings inside) p (List.mem_flatten.mpr ⟨ring, hr, hp⟩)

theorem Geometry.buffer_sound [LawfulSize K] {g r : Geometry K} {o : BufferOptions K}
    (near : ∀ p ∈ g.positions, p.Within 1015) (distinct : g.RingsWithoutRepeats)
    (far : LawfulSize.Within 1015 o.meters) (word : o.steps < 2 ^ 64) (made : g.buffer o = .ok r) :
    r.WellFormed ∧ ∀ p ∈ r.positions, p.isFinite = true := by
  obtain ⟨d, ok, made⟩ := bind_eq_ok.mp made
  obtain ⟨rfl, three⟩ := BufferOptions.checkedMeters_eq_ok ok
  apply polygonal_sound
  have many (parted : (parts normal o.meters o g >>= fun polygons =>
      if polygons.isEmpty then Outcome.refuse .bufferOfNothing
      else pure (Geometry.multiPolygon polygons)) = .ok r) :
      ∃ ps, r = .multiPolygon ps ∧ ps ≠ [] ∧ ∀ rings ∈ ps, Sound rings := by
    obtain ⟨ps, parted, same⟩ := bind_eq_ok.mp parted
    have sound := sound_parts far three word g near distinct parted
    split at same
    · contradiction
    · rename_i filled
      cases same
      exact ⟨ps, rfl, fun empty => filled (by rw [empty]; rfl), sound⟩
  cases g with
  | point p =>
    cases made
    exact .inl ⟨_, rfl, sound_pointRings (near p List.mem_cons_self) far three word⟩
  | lineString line =>
    replace made : (lineRings normal line o.meters o >>= fun rings => pure (.polygon rings)) =
      .ok r := made
    obtain ⟨rings, grown, same⟩ := bind_eq_ok.mp made
    cases same
    exact .inl ⟨rings, rfl, sound_lineRings near far three word grown⟩
  | polygon rings =>
    replace made : (polygonRings normal rings o.meters >>= fun rings => pure (.polygon rings)) =
      .ok r := made
    obtain ⟨rings', grown, same⟩ := bind_eq_ok.mp made
    cases same
    exact .inl ⟨rings', rfl, sound_polygonRings
      (fun ring mem p hp => near p (List.mem_flatten.mpr ⟨ring, mem, hp⟩)) distinct far grown⟩
  | _ => exact .inr (many made)

end Structure

namespace Double

open Buffer (normal AgreeOnEdges)

variable (t : Trigonometry)

/-- The buffer of doubles, with the given functions of angles. -/
def buffer (g : Geometry Float) (o : BufferOptions Float) : Outcome Float (Geometry Float) :=
  @Geometry.buffer Float (doubles t) g o

/-- The same with given normals. -/
def bufferBy (normalOf : Position Float → Position Float → Buffer.Shift Float) (g : Geometry Float)
    (o : BufferOptions Float) : Outcome Float (Geometry Float) :=
  @Geometry.bufferBy Float (doubles t) normalOf g o

variable {t}

/-- Functions of angles have no part in the structure of a geometry. -/
theorem wellFormed_of_doubles {g : Geometry Float}
    (formed : @Geometry.WellFormed Float (doubles t) g) :
    g.WellFormed := by
  induction formed with
  | point p => exact .point p
  | lineString long => exact .lineString long
  | polygon formed => exact .polygon formed
  | multiPoint filled => exact .multiPoint filled
  | multiLineString filled long => exact .multiLineString filled long
  | multiPolygon filled formed => exact .multiPolygon filled formed
  | collection _ ih => exact .collection ih

/-- Where no vertex of a ring repeats the one before it, a buffer asks only for the normals of edges
between different places, and has finite coordinates and well-formed rings. -/
theorem buffer_finite_of_distinct (bounded : t.Bounded) {g r : Geometry Float}
    {o : BufferOptions Float} (near : ∀ p ∈ g.positions, Within 1015 p.x ∧ Within 1015 p.y)
    (distinct : g.RingsWithoutRepeats) (far : Within 1015 o.meters) (word : o.steps < 2 ^ 64)
    (made : buffer t g o = .ok r) :
    (∀ normalOf, AgreeOnEdges normalOf normal → bufferBy t normalOf g o = .ok r) ∧
      (∀ p ∈ r.positions, p.isFinite = true) ∧ r.check = .ok () := by
  refine ⟨fun normalOf agree => ?_, ?_⟩
  · rw [← made]
    exact @Geometry.bufferBy_congr Float (doubles t) normalOf normal agree g distinct o
  · have sound := @Geometry.buffer_sound Float (doubles t) (sizesOfDoubles t bounded) g r o near
      distinct far word made
    exact ⟨sound.2, (Geometry.check_eq_ok r).mpr (wellFormed_of_doubles sound.1)⟩

/-- Angles of a circle of four vertices, with their sines and cosines. -/
def quarters : List (Float × Float × Float) :=
  [(0, 0, 1), (1.5707963267948966, 1, 6.123233995736766e-17),
    (3.141592653589793, 1.2246467991473532e-16, -1),
    (4.71238898038469, -1, -1.8369701987210297e-16)]

/-- The functions at those angles: a circle of four vertices asks for no others, and a band with
flat ends for none. -/
def quarterTurns : Trigonometry where
  sin a := ((quarters.find? (·.1 == a)).map (·.2.1)).getD 0
  cos a := ((quarters.find? (·.1 == a)).map (·.2.2)).getD 0
  atan2 _ _ := 0

theorem bounded_quarterTurns : quarterTurns.Bounded := by
  have entries : ∀ e ∈ quarters, (-1 ≤ e.2.1 ∧ e.2.1 ≤ 1) ∧ -1 ≤ e.2.2 ∧ e.2.2 ≤ 1 := by
    decide +kernel
  have unit {a : Float} (between : -1 ≤ a ∧ a ≤ 1) : Within 0 a :=
    within_of_between between.1 between.2 rfl rfl
  have zero : Within 0 0 := unit (by decide +kernel)
  constructor
  · intro a _
    simp only [quarterTurns]
    cases found : quarters.find? (·.1 == a) with
    | none => exact zero
    | some e => exact unit (entries e (List.mem_of_find?_eq_some found)).1
  · intro a _
    simp only [quarterTurns]
    cases found : quarters.find? (·.1 == a) with
    | none => exact zero
    | some e => exact unit (entries e (List.mem_of_find?_eq_some found)).2
  · exact fun _ _ => zero.mono (by decide)

/-- A point, a line and a square. -/
def figures : Geometry Float :=
  .collection [.point ⟨1, 2, none⟩, .lineString [⟨0, 0, none⟩, ⟨3, 0, none⟩, ⟨3, 4, none⟩],
    .polygon [[⟨0, 0, none⟩, ⟨1, 0, none⟩, ⟨1, 1, none⟩, ⟨0, 1, none⟩, ⟨0, 0, none⟩]]]

theorem buffer_finite_of_distinct_figures :
    let o : BufferOptions Float := { distance := 1, steps := 4, cap := .flat }
    quarterTurns.Bounded ∧ (∀ p ∈ figures.positions, Within 1015 p.x ∧ Within 1015 p.y) ∧
      figures.RingsWithoutRepeats ∧ Within 1015 o.meters ∧ o.steps < 2 ^ 64 ∧
      ∃ r, buffer quarterTurns figures o = .ok r ∧
        (∀ normalOf, AgreeOnEdges normalOf normal →
          bufferBy quarterTurns normalOf figures o = .ok r) ∧
        (∀ p ∈ r.positions, p.isFinite = true) ∧ r.check = .ok () := by
  intro o
  have few {a : Float} (between : -4 ≤ a ∧ a ≤ 4) : Within 1015 a :=
    (within_of_between (k := 2) between.1 between.2 rfl rfl).mono (by decide)
  have near : ∀ p ∈ figures.positions, Within 1015 p.x ∧ Within 1015 p.y := by
    have small : ∀ p ∈ figures.positions, (-4 ≤ p.x ∧ p.x ≤ 4) ∧ -4 ≤ p.y ∧ p.y ≤ 4 := by
      decide +kernel
    exact fun p mem => ⟨few (small p mem).1, few (small p mem).2⟩
  have distinct : figures.RingsWithoutRepeats := by
    unfold Geometry.RingsWithoutRepeats Path.DistinctEnds
    decide +kernel
  have far : Within 1015 o.meters := few (by decide +kernel)
  have succeeds : (buffer quarterTurns figures o).toOption.isSome = true := by decide +kernel
  cases made : buffer quarterTurns figures o with
  | error f =>
    rw [made] at succeeds
    contradiction
  | ok r =>
    exact ⟨bounded_quarterTurns, near, distinct, far, by decide, r, rfl,
      buffer_finite_of_distinct bounded_quarterTurns near distinct far (by decide) made⟩

/-- Normals that have no length at a place to itself. -/
def patched (a b : Position Float) : Buffer.Shift Float := if a.sameXY b then ⟨0, 0⟩ else normal a b

/-- The normal of a place to itself is asked for where a ring repeats a vertex; it is not a number,
and takes a vertex of the buffer with it, so that the buffer fails the check. -/
theorem buffer_broken_by_repeated_vertex :
    let g : Geometry Float :=
      .polygon [[⟨0, 0, none⟩, ⟨0, 0, none⟩, ⟨1, 0, none⟩, ⟨1, 1, none⟩, ⟨0, 0, none⟩]]
    let o : BufferOptions Float := { distance := 1 }
    g.check = .ok () ∧ (∀ p ∈ g.positions, p.isFinite = true) ∧
      ∃ r, g.buffer o = .ok r ∧ (∃ p ∈ r.positions, p.isFinite = false) ∧ r.check ≠ .ok () ∧
        ∃ normalOf, AgreeOnEdges normalOf normal ∧ g.bufferBy normalOf o ≠ .ok r := by
  intro g o
  refine ⟨rfl, by decide +kernel, ?_⟩
  have broken : ((g.buffer o).toOption.any fun r =>
      r.positions.any (fun p => !p.isFinite) && !r.check.toBool) = true := by
    decide +kernel
  cases made : g.buffer o with
  | error f =>
    rw [made] at broken
    contradiction
  | ok r =>
    rw [made] at broken
    simp only [Except.toOption, Option.any_some, Bool.and_eq_true, List.any_eq_true,
      Bool.not_eq_true'] at broken
    obtain ⟨⟨p, mem, infinite⟩, faulty⟩ := broken
    refine ⟨r, rfl, ⟨p, mem, infinite⟩, fun ok => ?_, patched, fun a b apart => ?_, fun same => ?_⟩
    · rw [ok] at faulty
      contradiction
    · exact if_neg (by rw [apart]; decide)
    · have mended : ((g.bufferBy patched o).toOption.all fun r =>
          r.positions.all (·.isFinite)) = true := by
        decide +kernel
      rw [same] at mended
      exact Bool.false_ne_true (infinite.symm.trans (List.all_eq_true.mp mended p mem))

end Double

end Geospatial
