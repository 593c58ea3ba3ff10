import Mathlib.Logic.Relation
import Geospatial.Proofs.Ring.Cycle
import Geospatial.Proofs.Scalar.Real
import Geospatial.Proofs.Simplification.Structure

/-! Lists that are shortened step by step, the vertices of a line or a ring that stand between two
others, which is where vertices are taken out, and lines that are loops. -/
namespace Geospatial

/-- If each list can be shortened in a way that is allowed or is done, then shortening comes by
allowed steps to a list that is done, and stays there. -/
theorem Order.shrink_settles {α : Type} {step : List α → Option (List α)}
    {Allowed : List α → List α → Prop} {Done : List α → Prop}
    (spec : ∀ xs, (∃ ys, step xs = some ys ∧ Allowed xs ys) ∨ step xs = none ∧ Done xs)
    (shortens : ∀ {xs ys}, Allowed xs ys → ys.length < xs.length) (xs : List α) :
    Relation.ReflTransGen Allowed xs (shrink step xs) ∧ Done (shrink step xs) ∧
      shrink step (shrink step xs) = shrink step xs := by
  fun_induction shrink step xs with
  | case1 xs ended =>
    rcases spec xs with ⟨ys, taken, -⟩ | ⟨-, done⟩
    · rw [ended] at taken
      contradiction
    · exact ⟨.refl, done, by rw [shrink, ended]⟩
  | case2 xs ys taken _ ih =>
    rcases spec xs with ⟨zs, taken', allowed⟩ | ⟨ended, -⟩
    · obtain rfl := Option.some.inj (taken.symm.trans taken')
      exact ⟨.head allowed ih.1, ih.2⟩
    · rw [ended] at taken
      contradiction
  -- a step that does not shorten the list is none of those that are allowed
  | case3 xs ys taken longer =>
    rcases spec xs with ⟨zs, taken', allowed⟩ | ⟨ended, -⟩
    · obtain rfl := Option.some.inj (taken.symm.trans taken')
      exact absurd (shortens allowed) longer
    · rw [ended] at taken
      contradiction

namespace Path

section

variable {α : Type} {path ring : List α} {i : ℕ} {a b c : α}

/-- On a line, the vertex `b` stands between `a` and `c`, and `i` vertices stand before `a`. -/
def Corner (path : List α) (i : ℕ) (a b c : α) : Prop :=
  path[i]? = some a ∧ path[i + 1]? = some b ∧ path[i + 2]? = some c

/-- In a ring, the vertex `b` stands between `a` and `c`, and `i` vertices stand before `b`. The
first vertex comes behind the last one. -/
def RingCorner (ring : List α) (i : ℕ) (a b c : α) : Prop :=
  ring[(i + ring.length - 1) % ring.length]? = some a ∧ ring[i]? = some b ∧
    ring[(i + 1) % ring.length]? = some c

theorem Corner.inside (corner : Corner path i a b c) : i + 2 < path.length :=
  (List.getElem?_eq_some_iff.mp corner.2.2).1

theorem Corner.length_eraseIdx_lt (corner : Corner path i a b c) :
    (path.eraseIdx (i + 1)).length < path.length := by
  have inside := corner.inside
  rw [List.length_eraseIdx_of_lt (by omega)]
  omega

theorem RingCorner.inside (corner : RingCorner ring i a b c) : i < ring.length :=
  (List.getElem?_eq_some_iff.mp corner.2.1).1

/-- The vertices of a line that stand between two others, with these. -/
def corners : List α → List (α × α × α)
  | a :: b :: c :: rest => (a, b, c) :: corners (b :: c :: rest)
  | _ => []

/-- What is worked out along a line for one such vertex after the other. -/
theorem eq_map_corners {β : Type} {f : α → α → α → β} {g : List α → List β}
    (step : ∀ a b c rest, g (a :: b :: c :: rest) = f a b c :: g (b :: c :: rest))
    (short : ∀ path : List α, path.length < 3 → g path = []) (path : List α) :
    g path = (corners path).map fun t => f t.1 t.2.1 t.2.2 := by
  fun_induction corners path with
  | case1 a b c rest ih => exact (step a b c rest).trans (congrArg (f a b c :: ·) ih)
  | case2 path few =>
    apply short
    match path, few with
    | [], _ => exact Nat.zero_lt_succ _
    | [_], _ => exact Nat.one_lt_succ_succ _
    | [_, _], _ => exact Nat.lt_succ_self _
    | a :: b :: c :: rest, few => exact (few a b c rest rfl).elim

theorem getElem?_corners : (corners path)[i]? = some (a, b, c) ↔ Corner path i a b c := by
  fun_induction corners path generalizing i with
  | case1 x y z rest ih =>
    cases i with
    | zero => simp [Corner]
    | succ i => exact ih
  | case2 path short =>
    refine ⟨nofun, fun corner => ?_⟩
    match path, corner.inside with
    | x :: y :: z :: rest, _ => exact (short x y z rest rfl).elim

/-- Something worked out for each vertex between two others. -/
theorem getElem?_map_corners {β : Type} {f : α → α → α → β} {y : β} :
    ((corners path).map fun t => f t.1 t.2.1 t.2.2)[i]? = some y ↔
      ∃ a b c, Corner path i a b c ∧ f a b c = y := by
  rw [List.getElem?_map, Option.map_eq_some_iff]
  constructor
  · rintro ⟨⟨a, b, c⟩, here, same⟩
    exact ⟨a, b, c, getElem?_corners.mp here, same⟩
  · rintro ⟨a, b, c, corner, same⟩
    exact ⟨(a, b, c), getElem?_corners.mpr corner, same⟩

/-- The ring with its last vertex before it and its first one behind it. -/
def around (ring : List α) : List α := ring.getLast?.toList ++ ring ++ ring.head?.toList

theorem around_eq (filled : ring ≠ []) :
    around ring = ring.getLast filled :: (ring ++ [ring.head filled]) := by
  rw [around, List.getLast?_eq_getLast_of_ne_nil filled, List.head?_eq_some_head filled]
  rfl

theorem getElem?_around (inside : i < ring.length) :
    (around ring)[i]? = ring[(i + ring.length - 1) % ring.length]? ∧
      (around ring)[i + 1]? = ring[i]? ∧
      (around ring)[i + 2]? = ring[(i + 1) % ring.length]? := by
  have filled : ring ≠ [] := List.ne_nil_of_length_pos (Nat.zero_lt_of_lt inside)
  rw [around_eq filled]
  refine ⟨?_, ?_, ?_⟩
  · cases i with
    | zero =>
      rw [Nat.zero_add, Nat.mod_eq_of_lt (Nat.sub_lt inside Nat.one_pos), List.getElem?_cons_zero,
        ← List.getLast?_eq_getElem?, List.getLast?_eq_getLast_of_ne_nil filled]
    | succ i =>
      have back : (i + 1 + ring.length - 1) % ring.length = i := by
        rw [show i + 1 + ring.length - 1 = i + ring.length by omega, Nat.add_mod_right,
          Nat.mod_eq_of_lt (by omega)]
      rw [back, List.getElem?_cons_succ, List.getElem?_append_left (by omega)]
  · rw [List.getElem?_cons_succ, List.getElem?_append_left inside]
  · rw [List.getElem?_cons_succ]
    by_cases more : i + 1 < ring.length
    · rw [List.getElem?_append_left more, Nat.mod_eq_of_lt more]
    · have last : i + 1 = ring.length := by omega
      rw [last, Nat.mod_self, List.getElem?_concat_length, ← List.head?_eq_getElem?,
        List.head?_eq_some_head filled]

/-- The corners of a ring are those of the line once round it. -/
theorem corner_around : Corner (around ring) i a b c ↔ RingCorner ring i a b c := by
  by_cases inside : i < ring.length
  · obtain ⟨before, here, behind⟩ := getElem?_around inside
    rw [Corner, RingCorner, before, here, behind]
  · refine ⟨fun corner => absurd corner.inside ?_, fun corner => absurd corner.inside inside⟩
    rcases eq_or_ne ring [] with rfl | filled
    · exact Nat.not_lt_zero _
    · rw [around_eq filled, List.length_cons, List.length_append, List.length_singleton]
      omega

end

section

variable {K : Type} {points rest ring : Path K} {i : ℕ}

theorem dropLast_closedCopy (filled : ring ≠ []) : ring.closedCopy.dropLast = ring := by
  rw [closedCopy, List.head?_eq_some_head filled, Option.toList_some, List.dropLast_concat]

theorem thinned_eraseIdx (inside : i + 2 < points.length) :
    points.Thinned (points.eraseIdx (i + 1)) where
  sublist := List.eraseIdx_sublist _ _
  head := by
    rw [List.head?_eq_getElem?, List.head?_eq_getElem?,
      List.getElem?_eraseIdx_of_lt (Nat.succ_pos i)]
  last := by
    have shorter := List.length_eraseIdx_of_lt (Nat.lt_of_succ_lt inside)
    rw [List.getLast?_eq_getElem?, List.getLast?_eq_getElem?, shorter,
      List.getElem?_eraseIdx_of_ge (by omega)]
    congr 1
    omega

/-- Of three vertices with ends apart, only the one between can be missing. -/
theorem Thinned.of_three {a b c : Position K} (apart : a ≠ c) (thinned : Thinned [a, b, c] rest) :
    rest = [a, b, c] ∨ rest = [a, c] := by
  obtain ⟨sublist, head, last⟩ := thinned
  match rest with
  | [x] =>
    obtain rfl := Option.some.inj head
    exact absurd (Option.some.inj last) apart
  | [x, y] =>
    obtain rfl := Option.some.inj head
    obtain rfl := Option.some.inj last
    exact .inr rfl
  | x :: y :: z :: more => exact .inl (sublist.eq_of_length_le (by simp))

theorem thinned_of_steps {Allowed : Path K → Path K → Prop}
    (thins : ∀ {points rest}, Allowed points rest → points.Thinned rest)
    (steps : Relation.ReflTransGen Allowed points rest) : points.Thinned rest := by
  induction steps with
  | refl => exact .refl points
  | tail _ step ih => exact ih.trans (thins step)

end

section Loop

variable {K : Type} [Scalar K] {points rest ring : Path K}

theorem isLoop_eq (many : 3 ≤ points.length) : points.isLoop = points.endsMeet := by
  rw [isLoop, decide_eq_true (Nat.lt_of_succ_le many), Bool.true_and]

theorem isLoop_eq_false (apart : points.endsMeet = false) : points.isLoop = false := by
  rw [isLoop, apart, Bool.and_false]

theorem Thinned.isLoop_eq_false (thinned : points.Thinned rest) (unlooped : points.isLoop = false) :
    rest.isLoop = false := by
  rw [isLoop, Bool.and_eq_false_iff, decide_eq_false_iff_not] at unlooped ⊢
  rw [thinned.endsMeet_eq]
  refine unlooped.imp_left fun short long => short ?_
  exact Nat.lt_of_lt_of_le long thinned.sublist.length_le

theorem two_lt_of_isLoop (looped : points.isLoop = true) : 2 < points.length := by
  rw [isLoop, Bool.and_eq_true, decide_eq_true_eq] at looped
  exact looped.1

theorem isLoop_closedCopy (long : 2 ≤ ring.length) (same : ∀ p ∈ ring, p.sameXY p = true) :
    ring.closedCopy.isLoop = true := by
  obtain ⟨p, more, rfl⟩ := List.exists_cons_of_length_pos (Nat.lt_of_lt_of_le two_pos long)
  have size : 2 < (closedCopy (p :: more)).length := by
    rw [closedCopy_cons, List.length_append]
    exact Nat.lt_succ_of_le long
  rw [isLoop, endsMeet_closedCopy (same p List.mem_cons_self) more, decide_eq_true size]
  rfl

end Loop

end Path
end Geospatial
