import Geospatial.Proofs.Buffer.Normals
import Geospatial.Proofs.Geometry.WellFormed

/-! The rings of a buffer: circles, bands and moved rings. Each has three vertices or more, all of
them finite, and returns to its first one. -/
namespace Geospatial

open Scalar (LawfulSize)
open Scalar.LawfulSize

variable {K : Type} [Scalar K]

namespace Path

theorem withoutRepeats_go_subset (last : Position K) (ps : Path K) :
    withoutRepeats.go last ps ⊆ ps := by
  induction ps generalizing last with
  | nil => exact List.Subset.refl []
  | cons q ps ih =>
    rw [withoutRepeats.go]
    split
    · exact List.subset_cons_of_subset q (ih last)
    · exact List.cons_subset_cons q (ih q)

theorem withoutRepeats_subset (line : Path K) : line.withoutRepeats ⊆ line := by
  cases line with
  | nil => exact List.Subset.refl []
  | cons p ps => exact List.cons_subset_cons p (withoutRepeats_go_subset p ps)

/-- A closed ring of finite positions, long enough for a polygon. -/
structure Outline (ring : Path K) : Prop where
  long : 4 ≤ ring.length
  closed : ring.endsMeet = true
  finite : ∀ p ∈ ring, p.isFinite = true

theorem outline_closedCopy [Scalar.LawfulOrder K] {vertices : Path K} (long : 3 ≤ vertices.length)
    (finite : ∀ p ∈ vertices, p.isFinite = true) : Outline (closedCopy vertices) := by
  cases vertices with
  | nil => contradiction
  | cons p ps =>
    have first := finite p List.mem_cons_self
    refine ⟨?_, endsMeet_closedCopy (Position.sameXY_of_isFinite first) ps, ?_⟩
    · rw [closedCopy_cons, List.length_append]
      exact Nat.succ_le_succ long
    · rw [closedCopy_cons, List.forall_mem_append]
      exact ⟨finite, List.forall_mem_singleton.mpr first⟩

end Path

namespace Buffer

variable [LawfulSize K] {path : Path K} {a b : Position K} {d : K} {k : ℤ} {o : BufferOptions K}

/-- A position in the plane that is not far off. -/
def Drawn (k : ℤ) (p : Position K) : Prop := p.Within k ∧ p.z = none

theorem Drawn.isFinite {p : Position K} (drawn : Drawn k p) : p.isFinite = true := by
  obtain ⟨⟨x, y⟩, flat⟩ := drawn
  rw [Position.isFinite, isFinite_of_within x, isFinite_of_within y, flat]
  rfl

theorem drawn_translate {v : Shift K} (ha : a.Within k) (hv : v.Within k) (low : 0 ≤ k)
    (high : k < 1023) : Drawn (k + 1) (translate a v) :=
  ⟨⟨within_add ha.1 hv.1 low high, within_add ha.2 hv.2 low high⟩, rfl⟩

theorem drawn_translateBack {v : Shift K} (ha : a.Within k) (hv : v.Within k) (low : 0 ≤ k)
    (high : k < 1023) : Drawn (k + 1) (translateBack a v) :=
  ⟨⟨within_sub ha.1 hv.1 low high, within_sub ha.2 hv.2 low high⟩, rfl⟩

theorem outline_pointRing (ha : a.Within 1015) (hd : LawfulSize.Within 1015 d) {steps : ℕ}
    (three : 3 ≤ steps) (word : steps < 2 ^ 64) :
    ∀ ring ∈ pointRings a d steps, Path.Outline ring := by
  rw [pointRings, List.forall_mem_singleton]
  refine Path.outline_closedCopy (by simpa using three) fun p mem => ?_
  obtain ⟨i, hi, rfl⟩ := List.mem_map.mp mem
  have angle := isFinite_turn (K := K) (List.mem_range.mp hi) word
  exact Drawn.isFinite ⟨within_polar ha hd angle, rfl⟩

theorem forall_mem_zipWith {α β γ : Type} {f : α → β → γ} {good : γ → Prop} {xs : List α}
    {ys : List β} (each : ∀ x ∈ xs, ∀ y ∈ ys, good (f x y)) :
    ∀ z ∈ List.zipWith f xs ys, good z := by
  intro z mem
  rw [← List.map_uncurry_zip_eq_zipWith] at mem
  obtain ⟨⟨x, y⟩, pair, rfl⟩ := List.mem_map.mp mem
  exact each x (List.of_mem_zip pair).1 y (List.of_mem_zip pair).2

theorem within_lineOffsets {ns : List (Shift K)} (near : ∀ n ∈ ns, n.Within 2)
    (hd : LawfulSize.Within 1015 d) : ∀ v ∈ lineOffsets d ns, v.Within 1018 := by
  cases ns with
  | nil => exact fun v mem => absurd mem List.not_mem_nil
  | cons n ns =>
    have single {m : Shift K} (hm : m ∈ n :: ns) : (m.scale d).Within 1018 :=
      (within_scale (near m hm) hd).mono (by decide)
    rw [lineOffsets, List.forall_mem_append, List.forall_mem_cons, List.forall_mem_singleton]
    refine ⟨⟨single List.mem_cons_self, fun v mem => ?_⟩, single (List.getLast_mem _)⟩
    obtain ⟨p, hp, rfl⟩ := List.mem_map.mp mem
    obtain ⟨first, second⟩ := Path.mem_of_mem_pairs hp
    exact within_jointOffset (near _ first) (near _ second) hd

omit [LawfulSize K] in
theorem length_lineOffsets {ns : List (Shift K)} (filled : ns ≠ []) :
    (lineOffsets d ns).length = ns.length + 1 := by
  cases ns with
  | nil => contradiction
  | cons n ns => simp [lineOffsets, Path.pairs]

theorem drawn_arcInterior (ha : a.Within 1015) (hd : LawfulSize.Within 1015 d) {start sweep : K}
    (hs : LawfulSize.Within 66 start) (hw : LawfulSize.Within 2 sweep) {pieces : ℕ}
    (word : pieces < 2 ^ 64) : ∀ p ∈ arcInterior a d start sweep pieces, Drawn 1020 p := by
  intro p mem
  obtain ⟨i, hi, rfl⟩ := List.mem_map.mp mem
  have angle := isFinite_arc hs hw (List.mem_range.mp hi) word
  exact ⟨(within_polar ha hd angle).mono (by decide), rfl⟩

theorem within_normals {edges : List (Position K × Position K)}
    (near : ∀ e ∈ edges, e.1.Within 1015 ∧ e.2.Within 1015) (distinct : Path.DistinctEnds edges) :
    ∀ n ∈ edges.map fun e => normal e.1 e.2, n.Within 2 := by
  intro n mem
  obtain ⟨e, he, rfl⟩ := List.mem_map.mp mem
  exact within_normal (near e he).1 (near e he).2 (distinct e he)

/-- A path of two different positions or more, each of them near. -/
structure Course (path : Path K) : Prop where
  long : 2 ≤ path.length
  near : ∀ p ∈ path, p.Within 1015
  distinct : Path.DistinctEnds (Path.pairs path)

/-- A side of the band: the positions of the path, each of them moved. -/
structure Side (path side : Path K) : Prop where
  length : side.length = path.length
  drawn : ∀ p ∈ side, Drawn 1019 p

namespace Course

variable (course : Course path)
include course

theorem within_offsets (hd : LawfulSize.Within 1015 d) :
    ∀ v ∈ lineOffsets d ((Path.pairs path).map fun e => normal e.1 e.2), v.Within 1018 := by
  refine within_lineOffsets (within_normals (fun e mem => ?_) course.distinct) hd
  obtain ⟨first, second⟩ := Path.mem_of_mem_pairs mem
  exact ⟨course.near _ first, course.near _ second⟩

theorem length_offsets :
    (lineOffsets d ((Path.pairs path).map fun e => normal e.1 e.2)).length = path.length := by
  have long := course.long
  have edges : (Path.pairs path).length = path.length - 1 := by simp [Path.pairs]
  rw [length_lineOffsets, List.length_map, edges]
  · omega
  · rw [← List.length_pos_iff, List.length_map, edges]
    omega

theorem side_zipWith (move : Position K → Shift K → Position K)
    (moves : ∀ {p v}, p.Within 1018 → v.Within 1018 → Drawn 1019 (move p v))
    (hd : LawfulSize.Within 1015 d) : Side path (List.zipWith move path
      (lineOffsets d ((Path.pairs path).map fun e => normal e.1 e.2))) where
  length := by rw [List.length_zipWith, course.length_offsets, Nat.min_self]
  drawn := forall_mem_zipWith fun p hp v hv =>
    moves ((course.near p hp).mono (by decide)) (course.within_offsets hd v hv)

theorem outline_bandRing {a₀ a₁ b₁ b₀ : Position K} (ends : [a₀, a₁, b₁, b₀] ⊆ path)
    (hd : LawfulSize.Within 1015 d) (word : o.steps < 2 ^ 64) :
    Path.Outline (bandRing normal path a₀ a₁ b₁ b₀ d o) := by
  have long := course.long
  simp only [List.cons_subset] at ends
  obtain ⟨ha₀, ha₁, hb₁, hb₀, -⟩ := ends
  have startHeading := within_heading (course.near a₀ ha₀) (course.near a₁ ha₁)
  have endHeading := within_heading (course.near b₁ hb₁) (course.near b₀ hb₀)
  have left := course.side_zipWith translate
    (fun hp hv => drawn_translate hp hv (by decide) (by decide)) hd
  have right := course.side_zipWith translateBack
    (fun hp hv => drawn_translateBack hp hv (by decide) (by decide)) hd
  simp only [bandRing]
  generalize List.zipWith translate path _ = ls at left
  generalize List.zipWith translateBack path _ = rs at right
  generalize heading a₀ a₁ = start at startHeading
  generalize heading b₁ b₀ = stop at endHeading
  have leftSize := left.length
  have rightSize := right.length
  have leftFinite : ∀ p ∈ ls.reverse, p.isFinite = true := fun p mem =>
    (left.drawn p (List.mem_reverse.mp mem)).isFinite
  have rightFinite : ∀ p ∈ rs, p.isFinite = true := fun p mem => (right.drawn p mem).isFinite
  cases o.cap with
  | flat =>
    exact Path.outline_closedCopy (by simp; omega)
      (List.forall_mem_append.mpr ⟨rightFinite, leftFinite⟩)
  | round =>
    have pieces : Nat.max (o.steps / 2) 2 < 2 ^ 64 := Nat.max_lt.mpr ⟨by omega, by decide⟩
    have half : LawfulSize.Within 2 (Scalar.pi / 2 : K) :=
      within_div_cast (n := 2) within_pi (by decide) (by decide) (by decide) (by decide)
    have stopArc := drawn_arcInterior (course.near b₀ hb₀) hd (within_mono
      (within_sub endHeading half (by decide) (by decide)) (by decide)) within_pi pieces
    have startArc := drawn_arcInterior (course.near a₀ ha₀) hd (within_mono
      (within_add startHeading half (by decide) (by decide)) (by decide)) within_pi pieces
    refine Path.outline_closedCopy (by simp; omega) ?_
    simp only [List.forall_mem_append]
    exact ⟨⟨⟨rightFinite, fun p mem => (stopArc p mem).isFinite⟩, leftFinite⟩,
      fun p mem => (startArc p mem).isFinite⟩
  | square =>
    have forward {p : Position K} (hp : Drawn 1019 p) :
        (translate p ⟨Scalar.cos stop * d, Scalar.sin stop * d⟩).isFinite = true :=
      (drawn_translate hp.1 (within_reach endHeading hd) (by decide) (by decide)).isFinite
    have back {p : Position K} (hp : Drawn 1019 p) :
        (translateBack p ⟨Scalar.cos start * d, Scalar.sin start * d⟩).isFinite = true :=
      (drawn_translateBack hp.1 (within_reach startHeading hd) (by decide) (by decide)).isFinite
    refine Path.outline_closedCopy (by simp; omega) ?_
    simp only [List.forall_mem_append, List.forall_mem_map, Option.mem_toList]
    exact ⟨⟨⟨⟨⟨fun p mem => back (right.drawn p (List.mem_of_mem_head? mem)), rightFinite⟩,
      fun p mem => forward (right.drawn p (List.mem_of_mem_getLast? mem))⟩,
      fun p mem => forward (left.drawn p (List.mem_of_mem_getLast? mem))⟩, leftFinite⟩,
      fun p mem => back (left.drawn p (List.mem_of_mem_head? mem))⟩

end Course

/-- The rings of a polygon that are made: one or more, all of them outlines. -/
def Sound (rings : List (Path K)) : Prop := rings ≠ [] ∧ ∀ ring ∈ rings, Path.Outline ring

theorem sound_pointRings (ha : a.Within 1015) (hd : LawfulSize.Within 1015 d) {steps : ℕ}
    (three : 3 ≤ steps) (word : steps < 2 ^ 64) : Sound (pointRings a d steps) :=
  ⟨List.cons_ne_nil _ _, outline_pointRing ha hd three word⟩

theorem sound_lineRings {line : Path K} {rings : List (Path K)} (near : ∀ p ∈ line, p.Within 1015)
    (hd : LawfulSize.Within 1015 d) (three : 3 ≤ o.steps) (word : o.steps < 2 ^ 64)
    (made : lineRings normal line d o = .ok rings) : Sound rings := by
  have subset := Path.withoutRepeats_subset line
  have distinct := Path.distinctEnds_withoutRepeats line
  simp only [lineRings] at made
  generalize line.withoutRepeats = path at *
  split at made
  · rename_i a₀ a₁ rest b₀ b₁ rest' back
    have ends : [a₀, a₁, b₁, b₀] ⊆ a₀ :: a₁ :: rest := by
      have mem {p : Position K} (here : p ∈ b₀ :: b₁ :: rest') : p ∈ a₀ :: a₁ :: rest :=
        List.mem_reverse.mp (back ▸ here)
      simp [List.cons_subset, mem]
    have course : Course (a₀ :: a₁ :: rest) := ⟨by simp, fun p hp => near p (subset hp), distinct⟩
    cases made
    exact ⟨List.cons_ne_nil _ _,
      List.forall_mem_singleton.mpr (course.outline_bandRing ends hd word)⟩
  · cases made
    exact sound_pointRings (near _ (subset List.mem_cons_self)) hd three word
  · contradiction

theorem outline_offsetRing {ring : Path K} (long : 3 ≤ ring.opened.length)
    (near : ∀ p ∈ ring, p.Within 1015) (distinct : Path.DistinctEnds (Path.cyclicPairs ring.opened))
    (hd : LawfulSize.Within 1015 d) : Path.Outline (offsetRing normal ring d) := by
  have subset := Path.opened_subset ring
  simp only [offsetRing]
  generalize ring.opened = vertices at *
  have normals := within_normals (fun e mem => ⟨near _ (subset (Path.mem_of_mem_cyclicPairs mem).1),
    near _ (subset (Path.mem_of_mem_cyclicPairs mem).2)⟩) distinct
  have length : ((Path.cyclicPairs vertices).map fun e => normal e.1 e.2).length =
      vertices.length := by
    cases vertices with
    | nil => rfl
    | cons p ps => simp [Path.cyclicPairs]
  generalize ((Path.cyclicPairs vertices).map fun e => normal e.1 e.2) = ns at normals length
  have before : ∀ n ∈ ns.getLast?.toList ++ ns, n.Within 2 := by
    refine List.forall_mem_append.mpr ⟨fun n mem => ?_, normals⟩
    exact normals n (List.mem_of_mem_getLast? (Option.mem_toList.mp mem))
  have offsets : ∀ v ∈ List.zipWith (fun m n => jointOffset m n d) (ns.getLast?.toList ++ ns) ns,
      v.Within 1018 :=
    forall_mem_zipWith fun m hm n hn => within_jointOffset (before m hm) (normals n hn) hd
  have moved : ∀ p ∈ List.zipWith translate vertices (List.zipWith (fun m n => jointOffset m n d)
      (ns.getLast?.toList ++ ns) ns), Drawn 1019 p :=
    forall_mem_zipWith fun p hp v hv => drawn_translate ((near p (subset hp)).mono (by decide))
      (offsets v hv) (by decide) (by decide)
  refine Path.outline_closedCopy ?_ fun p mem => (moved p mem).isFinite
  simp only [List.length_zipWith, List.length_append, length]
  omega

theorem within_sign_mul {c : Prop} [Decidable c] (hd : LawfulSize.Within 1015 d) :
    LawfulSize.Within 1015 ((if c then -1 else 1) * d) := by
  split
  · exact within_mul within_neg_one hd (by decide) (by decide)
  · exact within_mul within_one hd (by decide) (by decide)

theorem sound_polygonRings {rings made : List (Path K)}
    (near : ∀ ring ∈ rings, ∀ p ∈ ring, p.Within 1015)
    (distinct : ∀ ring ∈ rings, Path.DistinctEnds (Path.cyclicPairs ring.opened))
    (hd : LawfulSize.Within 1015 d) (ok : polygonRings normal rings d = .ok made) : Sound made := by
  cases rings with
  | nil => contradiction
  | cons exterior holes =>
    obtain ⟨nearFirst, nearRest⟩ := List.forall_mem_cons.mp near
    obtain ⟨distinctFirst, distinctRest⟩ := List.forall_mem_cons.mp distinct
    simp only [polygonRings] at ok
    split at ok
    · contradiction
    · rename_i long
      cases ok
      refine ⟨List.cons_ne_nil _ _, List.forall_mem_cons.mpr ⟨?_, fun ring mem => ?_⟩⟩
      · exact outline_offsetRing (not_lt.mp long) nearFirst distinctFirst (within_sign_mul hd)
      · obtain ⟨hole, here, left⟩ := List.mem_filterMap.mp mem
        have near := within_sign_mul (c := hole.signedArea ≤ 0) hd
        simp only [shrunkHole?] at left
        generalize (if hole.signedArea ≤ 0 then -1 else 1) * d = inward at near left
        split at left
        · contradiction
        · rename_i longHole
          split at left
          · contradiction
          · cases left
            exact outline_offsetRing (not_lt.mp longHole) (nearRest hole here)
              (distinctRest hole here) near

end Buffer

end Geospatial
