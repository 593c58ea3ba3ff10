import Mathlib.Data.List.Nodup
import Geospatial.Proofs.Hull.Scan
import Geospatial.Proofs.Hull.Sites

/-! The hull of a list of points, in exact arithmetic. -/
namespace Geospatial.Hull

open Segment

variable {K : Type} [Exact K] {pivot p q a b c : Position K} {chain rest points ring : Path K}

/-- Some line of the plane has all the points. -/
def OnOneLine (points : Path K) : Prop :=
  ∃ a b c : K, (a ≠ 0 ∨ b ≠ 0) ∧ ∀ p ∈ points, a * p.x + b * p.y = c

/-- A closed ring of left turns through some of the points and round all of them, from the lowest
point, of several the leftmost. -/
structure IsHull (points ring : Path K) : Prop where
  closed : ring.head? = ring.getLast?
  long : 4 ≤ ring.length
  distinct : ring.dropLast.Nodup
  vertices : ∀ v ∈ ring, v ∈ points
  starts : ∀ v ∈ ring.head?, ∀ p ∈ points, v.y < p.y ∨ v.y = p.y ∧ v.x ≤ p.x
  /-- The ring goes on to its second vertex for the turn at the first one. -/
  turns : ∀ a b c, [a, b, c] <:+: ring ++ ring.tail.take 1 → 0 < orientation a b c
  contains : ∀ a b, [a, b] <:+: ring → ∀ p ∈ points, 0 ≤ orientation a b p

theorem orientation_of_line (line : OnOneLine points) (ha : a ∈ points) (hb : b ∈ points)
    (hc : c ∈ points) : orientation a b c = 0 := by
  obtain ⟨u, v, w, direction, on⟩ := line
  have ab : u * (b.x - a.x) + v * (b.y - a.y) = 0 := by
    linear_combination on b hb - on a ha
  have ac : u * (c.x - a.x) + v * (c.y - a.y) = 0 := by
    linear_combination on c hc - on a ha
  rw [orientation]
  rcases direction with hu | hv
  · refine (mul_eq_zero.mp ?_).resolve_left hu
    linear_combination (c.y - a.y) * ab - (b.y - a.y) * ac
  · refine (mul_eq_zero.mp ?_).resolve_left hv
    linear_combination (b.x - a.x) * ac - (c.x - a.x) * ab

theorem onOneLine_of_orientation (apart : a.x ≠ b.x ∨ a.y ≠ b.y)
    (straight : ∀ p ∈ points, orientation a b p = 0) : OnOneLine points := by
  refine ⟨a.y - b.y, b.x - a.x, (a.y - b.y) * a.x + (b.x - a.x) * a.y, ?_, fun p hp => ?_⟩
  · rcases apart with hx | hy
    · exact .inr (sub_ne_zero.mpr hx.symm)
    · exact .inl (sub_ne_zero.mpr hy)
  · have flat := straight p hp
    rw [orientation] at flat
    linear_combination flat

theorem onOneLine_congr {points' : Path K} (same : ∀ p, p ∈ points ↔ p ∈ points') :
    OnOneLine points ↔ OnOneLine points' := by
  simp only [OnOneLine, same]

theorem onOneLine_planar : OnOneLine (points.map Position.planar) ↔ OnOneLine points := by
  simp [OnOneLine, Position.planar]

theorem Above.apart (above : Above pivot p) : pivot.x ≠ p.x ∨ pivot.y ≠ p.y := by
  rcases above with higher | ⟨_, right⟩
  · exact .inr higher.ne
  · exact .inl right.ne

namespace LeftChain

theorem nodup (h : LeftChain pivot chain) : chain.Nodup := by
  have fresh {v : Position K} {rest : Path K} (h : LeftChain pivot (v :: rest))
      (above : Above pivot v) : v ∉ rest := by
    intro hv
    rcases h.smaller v hv with same | ⟨_, turn⟩
    · rw [same] at above
      exact above.apart.elim (· rfl) (· rfl)
    · rw [orientation_right] at turn
      exact turn.false
  induction h with
  | start => simp
  | first above => exact List.nodup_cons.mpr ⟨fresh (.first above) above, by simp⟩
  | turn below above left later ih =>
    exact List.nodup_cons.mpr ⟨fresh (.turn below above left later) above, ih⟩

theorem getLast? (h : LeftChain pivot chain) : chain.getLast? = some pivot := by
  induction h with
  | start => rfl
  | first => rfl
  | turn _ _ _ _ ih => rw [List.getLast?_cons_cons, ih]

/-- Three vertices in a row turn left. -/
theorem turns (h : LeftChain pivot chain) (row : [c, b, a] <:+: chain) : 0 < orientation a b c := by
  induction h with
  | start => exact absurd row.length_le (by simp)
  | first => exact absurd row.length_le (by simp)
  | turn _ _ left _ ih =>
    rcases List.infix_cons_iff.mp row with here | below
    · obtain ⟨rfl, rfl, rfl⟩ : c = _ ∧ b = _ ∧ a = _ := by simpa [List.cons_prefix_cons] using here
      exact left
    · exact ih below

theorem covers_pivot (h : LeftChain pivot (b :: a :: rest)) :
    Covers pivot pivot (b :: a :: rest) := by
  induction rest generalizing a b with
  | nil =>
    cases h
    exact .between (.self pivot b)
  | cons c rest ih =>
    cases h with
    | turn below _ _ later =>
      refine .edge (ih below) ?_
      rw [← orientation_rotate]
      exact later.le

theorem turn_inv (h : LeftChain pivot (c :: b :: a :: rest)) :
    LeftChain pivot (b :: a :: rest) ∧ Above pivot c ∧ 0 < orientation a b c ∧
      0 < orientation pivot b c := by
  cases h with
  | turn below above left later => exact ⟨below, above, left, later⟩

/-- Between the pivot and the rest of the chain stands its second vertex. -/
theorem exists_second (h : LeftChain pivot (b :: a :: rest)) :
    ∃ front s, b :: a :: rest = front ++ [s, pivot] ∧ Above pivot s := by
  induction rest generalizing a b with
  | nil =>
    cases h with
    | first above => exact ⟨[], b, rfl, above⟩
  | cons c rest ih =>
    cases h with
    | turn below =>
      obtain ⟨front, s, eq, above⟩ := ih below
      exact ⟨b :: front, s, congrArg (b :: ·) eq, above⟩

/-- The chain also turns left at its last vertex and at the pivot when it is closed to a ring. -/
theorem turns_round (h : LeftChain pivot (c :: b :: a :: rest)) {u v w : Position K}
    (row : [u, v, w] <:+: (pivot :: c :: b :: a :: rest).reverse ++
      (pivot :: c :: b :: a :: rest).reverse.tail.take 1) : 0 < orientation u v w := by
  obtain ⟨below, _, _, later⟩ := h.turn_inv
  obtain ⟨front, s, shape, above⟩ := below.exists_second
  have second : 0 < orientation pivot s c := by
    rcases h.smaller s (by simp [shape]) with rfl | ⟨_, turn⟩
    · exact above.apart.elim (absurd rfl) (absurd rfl)
    · exact turn
  have further : (pivot :: c :: b :: a :: rest).reverse.tail.take 1 = [s] := by
    rw [shape]
    simp
  rw [further, ← List.reverse_cons, ← List.reverse_infix, List.reverse_reverse] at row
  rcases List.infix_cons_iff.mp row with atPivot | row
  · obtain ⟨rfl, rfl, rfl⟩ : w = s ∧ v = pivot ∧ u = c := by
      simpa [List.cons_prefix_cons] using atPivot
    rwa [orientation_rotate]
  · rcases List.infix_cons_iff.mp row with atLast | row
    · obtain ⟨rfl, rfl, rfl⟩ : w = pivot ∧ v = c ∧ u = b := by
        simpa [List.cons_prefix_cons] using atLast
      rwa [orientation_rotate, orientation_rotate]
    · exact h.turns row

end LeftChain

theorem Covers.side (h : Covers pivot q chain) (edge : [b, a] <:+: chain) :
    0 ≤ orientation a b q := by
  induction h with
  | left turn =>
    obtain ⟨rfl, rfl⟩ : b = _ ∧ a = _ := by simpa using edge.eq_of_length rfl
    exact turn.le
  | between near =>
    obtain ⟨rfl, rfl⟩ : b = _ ∧ a = _ := by simpa using edge.eq_of_length rfl
    rw [orientation_swap, near.orientation_eq_zero, neg_zero]
  | edge _ side ih =>
    rcases List.infix_cons_iff.mp edge with here | below
    · obtain ⟨rfl, rfl⟩ : b = _ ∧ a = _ := by simpa [List.cons_prefix_cons] using here
      exact side
    · exact ih below

/-- Points round which no chain turns are on one line. -/
theorem onOneLine_of_scanned {met : Path K} (h : Scanned pivot met chain)
    (short : chain.length < 3) : OnOneLine (pivot :: met) := by
  obtain ⟨turning, covers, top, _⟩ := h
  cases turning with
  | start =>
    refine ⟨1, 0, pivot.x, .inl one_ne_zero, List.forall_mem_cons.mpr ⟨by ring, fun q hq => ?_⟩⟩
    cases covers q hq
  | @first a above =>
    refine onOneLine_of_orientation above.apart (List.forall_mem_cons.mpr ⟨by simp, fun q hq => ?_⟩)
    rw [orientation_swap, neg_eq_zero]
    have before := top q hq a rfl
    cases covers q hq with
    | left turn =>
      rw [orientation_swap, neg_pos] at turn
      exact absurd before turn.not_ge
    | between near => exact near.orientation_eq_zero
  | turn =>
    simp only [List.length_cons] at short
    omega

/-- A chain of three vertices or more closes to a hull. -/
theorem isHull_of_scanned {others : Path K}
    (h : Scanned pivot others (c :: b :: a :: rest)) (high : ∀ q ∈ others, Above pivot q) :
    IsHull (pivot :: others) (pivot :: c :: b :: a :: rest).reverse := by
  obtain ⟨turning, covers, top, members⟩ := h
  have last : (c :: b :: a :: rest).getLast? = some pivot := turning.getLast?
  have first : (pivot :: c :: b :: a :: rest).reverse.head? = some pivot := by
    rw [List.head?_reverse, List.getLast?_cons_cons, last]
  constructor
  · rw [first, List.getLast?_reverse, List.head?_cons]
  · simp
  · rw [List.dropLast_reverse, List.nodup_reverse]
    exact turning.nodup
  · intro v hv
    rcases List.mem_cons.mp (List.mem_reverse.mp hv) with rfl | hv
    · exact List.mem_cons_self
    · exact List.mem_cons.mpr (members v hv)
  · intro v hv
    obtain rfl : pivot = v := Option.some.inj (first.symm.trans hv)
    refine List.forall_mem_cons.mpr ⟨.inr ⟨rfl, le_rfl⟩, fun q hq => ?_⟩
    exact (high q hq).imp id (And.imp_right le_of_lt)
  · exact fun u v w => turning.turns_round
  · intro u v edge
    rw [← List.reverse_infix, List.reverse_reverse] at edge
    rcases List.infix_cons_iff.mp edge with here | below
    · obtain ⟨rfl, rfl⟩ : v = pivot ∧ u = c := by simpa [List.cons_prefix_cons] using here
      refine List.forall_mem_cons.mpr ⟨by simp, fun q hq => ?_⟩
      rw [orientation_rotate]
      exact top q hq u rfl
    · exact List.forall_mem_cons.mpr ⟨turning.covers_pivot.side below,
        fun q hq => (covers q hq).side below⟩

theorem IsHull.not_onOneLine (hull : IsHull points ring) : ¬OnOneLine points := by
  intro line
  obtain ⟨closed, long, _, vertices, _, turns, _⟩ := hull
  match ring with
  | u :: v :: w :: rest =>
    have turn := turns u v w ⟨[], rest ++ [v], rfl⟩
    have flat := orientation_of_line line (vertices u (by simp)) (vertices v (by simp))
      (vertices w (by simp))
    exact turn.ne' flat
  | [] | [_] | [_, _] => simp at long

theorem IsHull.congr {points' : Path K} (hull : IsHull points ring)
    (same : ∀ p, p ∈ points ↔ p ∈ points') : IsHull points' ring where
  closed := hull.closed
  long := hull.long
  distinct := hull.distinct
  vertices v hv := (same v).mp (hull.vertices v hv)
  starts v hv p hp := hull.starts v hv p ((same p).mpr hp)
  turns := hull.turns
  contains a b edge p hp := hull.contains a b edge p ((same p).mpr hp)

theorem onOneLine_sites (points : Path K) : OnOneLine (sites points) ↔ OnOneLine points :=
  (onOneLine_congr fun _ => mem_sites).trans onOneLine_planar

theorem onOneLine_of_few_sites (few : (sites points).length < 3) : OnOneLine (sites points) := by
  have sorted := pairwise_sites points
  generalize sites points = ps at few sorted
  match ps with
  | [] => exact ⟨1, 0, 0, .inl one_ne_zero, nofun⟩
  | [p] => exact ⟨1, 0, p.x, .inl one_ne_zero, by simp⟩
  | [p, q] =>
    have less := byColumn_eq_lt.mp ((List.pairwise_cons.mp sorted).1 q List.mem_cons_self)
    exact onOneLine_of_orientation (less.imp ne_of_lt fun h => h.2.ne) (by simp)
  | _ :: _ :: _ :: _ =>
    simp only [List.length_cons] at few
    omega

/-- The scan goes through all places but the pivot, in the order of their angles. -/
theorem ring?_eq_scan (many : ¬(sites points).length < 3) {others : Path K}
    (found : splitPivot? (sites points) = some (pivot, others)) :
    ring? points =
      let chain := scan pivot (Order.sort (byAngle pivot) others)
      if chain.length < 3 then none else some (pivot :: chain).reverse := by
  rw [ring?, ← sites]
  simp only [many, if_false, found]
  rfl

/-- The hull exists unless the points are on one line. -/
theorem ring?_cases (points : Path K) : ring? points = none ∧ OnOneLine (sites points) ∨
    ∃ ring, ring? points = some ring ∧ IsHull (sites points) ring := by
  by_cases few : (sites points).length < 3
  · exact .inl ⟨if_pos few, onOneLine_of_few_sites few⟩
  · have filled : sites points ≠ [] := fun empty => few (by simp [empty])
    obtain ⟨pivot, others, found, all, high⟩ := exists_pivot filled
      (fun p hp => flat_of_mem_sites hp) (nodup_sites points)
    have order := Order.sort_perm (byAngle pivot) others
    have same : ∀ p, p ∈ pivot :: Order.sort (byAngle pivot) others ↔ p ∈ sites points :=
      fun p => ((order.cons pivot).trans all).mem_iff
    have high' : ∀ q ∈ Order.sort (byAngle pivot) others, Above pivot q :=
      fun q hq => high q (order.mem_iff.mp hq)
    have sorted := ((byAngle_transOn pivot).sort_pairwise high).imp_of_mem fun hp hq atMost =>
      precedes_of_byAngle (high' _ hp) (high' _ hq) atMost
    have scanned := scanned_scan high' sorted
    rw [ring?_eq_scan few found]
    generalize scan pivot (Order.sort (byAngle pivot) others) = chain at scanned
    by_cases short : chain.length < 3
    · exact .inl ⟨if_pos short, (onOneLine_congr same).mp (onOneLine_of_scanned scanned short)⟩
    · refine .inr ⟨_, if_neg short, ?_⟩
      match chain with
      | _ :: _ :: _ :: _ => exact (isHull_of_scanned scanned high').congr same
      | [] | [_] | [_, _] => simp at short

theorem ring?_eq_none : ring? points = none ↔ OnOneLine points := by
  rw [← onOneLine_sites]
  rcases ring?_cases points with ⟨ringless, line⟩ | ⟨ring, found, hull⟩
  · exact iff_of_true ringless line
  · exact iff_of_false (by simp [found]) hull.not_onOneLine

theorem isHull_of_ring? (found : ring? points = some ring) :
    IsHull (points.map Position.planar) ring := by
  rcases ring?_cases points with ⟨ringless, _⟩ | ⟨ring', found', hull⟩
  · simp [ringless] at found
  · obtain rfl := Option.some.inj (found'.symm.trans found)
    exact hull.congr fun _ => mem_sites

/-- Points with the same places have the same hull, vertex by vertex. -/
theorem ring?_congr {points' : Path K}
    (same : ∀ p, p ∈ points.map Position.planar ↔ p ∈ points'.map Position.planar) :
    ring? points = ring? points' := by
  rw [ring?, ring?, ← sites, ← sites, sites_congr same]

/-- There is no hull when the points are on one line, as fewer than three different places always
are, and else it is the ring of left turns round them. It depends on their places alone, whatever
their order is and how often they occur. -/
theorem ring_isHull (points : Path K) :
    (ring? points = none ↔ OnOneLine points) ∧
    (∀ ring, ring? points = some ring → IsHull (points.map Position.planar) ring) ∧
    ∀ points' : Path K, (∀ p, p ∈ points.map Position.planar ↔ p ∈ points'.map Position.planar) →
      ring? points = ring? points' :=
  ⟨ring?_eq_none, fun _ => isHull_of_ring?, fun _ => ring?_congr⟩

end Geospatial.Hull
