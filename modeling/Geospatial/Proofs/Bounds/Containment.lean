import Mathlib.Data.Multiset.Bind
import Geospatial.Bounds
import Geospatial.Proofs.Scalar.Order
import Geospatial.Proofs.Scalar.Rounding

/-! Containment and overlap of boxes, and the least box over several ones. The least box is
unique up to numeric equality of its planar sides, and does not depend on the order in which
boxes are united. Heights take no part. A box within another one is not the nearer one of them, be
the position a number or not: on each axis the gap to the part starts where that to the whole does
or farther off, and from there on rounding keeps the order. -/
namespace Geospatial.Bounds

section Containment

variable {K : Type} [Scalar K]

theorem contains_iff {a b : Bounds K} : a.contains b = true ↔
    a.minX ≤ b.minX ∧ b.maxX ≤ a.maxX ∧ a.minY ≤ b.minY ∧ b.maxY ≤ a.maxY := by
  simp only [contains, Bool.and_eq_true, decide_eq_true_eq, and_assoc]

theorem intersects_iff {a b : Bounds K} : a.intersects b = true ↔
    a.minX ≤ b.maxX ∧ b.minX ≤ a.maxX ∧ a.minY ≤ b.maxY ∧ b.minY ≤ a.maxY := by
  simp only [intersects, Bool.and_eq_true, decide_eq_true_eq, and_assoc]

theorem containsPosition_iff {b : Bounds K} {p : Position K} : b.containsPosition p = true ↔
    b.minX ≤ p.x ∧ p.x ≤ b.maxX ∧ b.minY ≤ p.y ∧ p.y ≤ b.maxY := by
  simp only [containsPosition, Bool.and_eq_true, decide_eq_true_eq, and_assoc]

theorem contains_union {a b c : Bounds K} (ha : c.contains a = true) (hb : c.contains b = true) :
    c.contains (a.union b) = true := by
  rw [contains_iff] at *
  exact ⟨Scalar.le_min ha.1 hb.1, Scalar.max_le ha.2.1 hb.2.1,
    Scalar.le_min ha.2.2.1 hb.2.2.1, Scalar.max_le ha.2.2.2 hb.2.2.2⟩

theorem intersects_comm (a b : Bounds K) : a.intersects b = b.intersects a := by
  rw [Bool.eq_iff_iff, intersects_iff, intersects_iff]
  constructor
  · rintro ⟨h₁, h₂, h₃, h₄⟩
    exact ⟨h₂, h₁, h₄, h₃⟩
  · rintro ⟨h₁, h₂, h₃, h₄⟩
    exact ⟨h₂, h₁, h₄, h₃⟩

theorem unionAll?_eq_none {xs : List (Bounds K)} : unionAll? xs = none ↔ xs = [] := by
  cases xs <;> simp [unionAll?]

/-- The lower ends that are numbers come before the upper ends. -/
structure Ordered (b : Bounds K) : Prop where
  x : b.minX ≤ b.minX → b.minX ≤ b.maxX
  y : b.minY ≤ b.minY → b.minY ≤ b.maxY

theorem ordered_ofPosition (p : Position K) : (ofPosition p).Ordered := ⟨id, id⟩

/-- Planar sides are numerically equal. -/
def samePlanar (a b : Bounds K) : Bool :=
  a.minX == b.minX && a.maxX == b.maxX && a.minY == b.minY && a.maxY == b.maxY

variable [Scalar.LawfulOrder K] {a b c x : Bounds K}

theorem contains_trans (h : a.contains b = true) (k : b.contains c = true) :
    a.contains c = true := by
  rw [contains_iff] at *
  exact ⟨Scalar.le_trans h.1 k.1, Scalar.le_trans k.2.1 h.2.1,
    Scalar.le_trans h.2.2.1 k.2.2.1, Scalar.le_trans k.2.2.2 h.2.2.2⟩

/-- The sides of a finite box are numbers. -/
theorem contains_self (finite : a.isFinite = true) : a.contains a = true := by
  simp only [isFinite, Bool.and_eq_true, and_assoc] at finite
  obtain ⟨minX, minY, maxX, maxY⟩ := finite
  rw [contains_iff]
  exact ⟨Scalar.le_of_isFinite minX, Scalar.le_of_isFinite maxX, Scalar.le_of_isFinite minY,
    Scalar.le_of_isFinite maxY⟩

theorem union_contains_left (h : a.contains a = true) : (a.union b).contains a = true := by
  rw [contains_iff] at *
  exact ⟨Scalar.min_le_left h.1, Scalar.le_max_left h.2.1, Scalar.min_le_left h.2.2.1,
    Scalar.le_max_left h.2.2.2⟩

theorem union_contains_right (h : b.contains b = true) : (a.union b).contains b = true := by
  rw [contains_iff] at *
  exact ⟨Scalar.min_le_right h.1, Scalar.le_max_right h.2.1, Scalar.min_le_right h.2.2.1,
    Scalar.le_max_right h.2.2.2⟩

/-- What meets a part meets the whole. -/
theorem intersects_of_contains (h : a.contains x = true) (meets : x.intersects b = true) :
    a.intersects b = true := by
  rw [contains_iff] at h
  rw [intersects_iff] at *
  exact ⟨Scalar.le_trans h.1 meets.1, Scalar.le_trans meets.2.1 h.2.1,
    Scalar.le_trans h.2.2.1 meets.2.2.1, Scalar.le_trans meets.2.2.2 h.2.2.2⟩

theorem Ordered.union (ha : a.Ordered) (hb : b.Ordered) : (a.union b).Ordered :=
  ⟨Scalar.min_le_max ha.x hb.x, Scalar.min_le_max ha.y hb.y⟩

theorem ordered_ofPositions? {ps : List (Position K)} (has : ofPositions? ps = some b) :
    b.Ordered := by
  have fold (ps : List (Position K)) (b : Bounds K) (ordered : b.Ordered) :
      (ps.foldl extend b).Ordered := by
    induction ps generalizing b with
    | nil => exact ordered
    | cons p ps ih => exact ih _ (ordered.union (ordered_ofPosition p))
  cases ps with
  | nil => contradiction
  | cons p ps =>
    obtain rfl := Option.some.inj has
    exact fold ps _ (ordered_ofPosition p)

/-- A box meets the boxes inside it. -/
theorem Ordered.intersects_of_contains (ordered : b.Ordered) (h : a.contains b = true) :
    a.intersects b = true := by
  obtain ⟨minX, maxX, minY, maxY⟩ := contains_iff.mp h
  have x := ordered.x (Scalar.le_right minX)
  have y := ordered.y (Scalar.le_right minY)
  exact intersects_iff.mpr ⟨Scalar.le_trans minX x, Scalar.le_trans x maxX,
    Scalar.le_trans minY y, Scalar.le_trans y maxY⟩

theorem samePlanar_iff :
    a.samePlanar b = true ↔ a.contains b = true ∧ b.contains a = true := by
  simp only [samePlanar, Bool.and_eq_true, Scalar.beq_iff, contains_iff]
  constructor
  · rintro ⟨⟨⟨⟨h₁, h₁'⟩, h₂, h₂'⟩, h₃, h₃'⟩, h₄, h₄'⟩
    exact ⟨⟨h₁, h₂', h₃, h₄'⟩, h₁', h₂, h₃', h₄⟩
  · rintro ⟨⟨h₁, h₂', h₃, h₄'⟩, h₁', h₂, h₃', h₄⟩
    exact ⟨⟨⟨⟨h₁, h₁'⟩, h₂, h₂'⟩, h₃, h₃'⟩, h₄, h₄'⟩

/-- The box contains all of some boxes, and lies in each box that does. -/
structure LeastOver (b : Bounds K) (boxes : Multiset (Bounds K)) : Prop where
  nonempty : ∃ x, x ∈ boxes
  covers : ∀ x ∈ boxes, b.contains x = true
  least : ∀ c : Bounds K, (∀ x ∈ boxes, c.contains x = true) → c.contains b = true

namespace LeastOver

variable {s t : Multiset (Bounds K)}

omit [Scalar.LawfulOrder K] in
theorem self (h : a.LeastOver s) : a.contains a = true := h.least a h.covers

omit [Scalar.LawfulOrder K] in
theorem singleton (h : a.contains a = true) : a.LeastOver {a} where
  nonempty := ⟨a, Multiset.mem_singleton_self a⟩
  covers x hx := by
    obtain rfl := Multiset.mem_singleton.mp hx
    exact h
  least c covers := covers a (Multiset.mem_singleton_self a)

theorem union (ha : a.LeastOver s) (hb : b.LeastOver t) : (a.union b).LeastOver (s + t) where
  nonempty := by
    obtain ⟨x, hx⟩ := ha.nonempty
    exact ⟨x, Multiset.mem_add.mpr (Or.inl hx)⟩
  covers x hx := by
    rcases Multiset.mem_add.mp hx with hs | ht
    · exact contains_trans (union_contains_left ha.self) (ha.covers x hs)
    · exact contains_trans (union_contains_right hb.self) (hb.covers x ht)
  least c covers := contains_union
    (ha.least c fun x hx => covers x (Multiset.mem_add.mpr (Or.inl hx)))
    (hb.least c fun x hx => covers x (Multiset.mem_add.mpr (Or.inr hx)))

theorem unique (ha : a.LeastOver s) (hb : b.LeastOver s) : a.samePlanar b = true :=
  samePlanar_iff.mpr ⟨hb.least a ha.covers, ha.least b hb.covers⟩

theorem foldl_union {xs : List (Bounds K)} (ha : a.LeastOver s)
    (numbers : ∀ x ∈ xs, x.contains x = true) : (xs.foldl Bounds.union a).LeastOver (s + xs) := by
  induction xs generalizing a s with
  | nil => simpa using ha
  | cons x xs ih =>
    have grown := ih (ha.union (singleton (numbers x (by simp))))
      fun y hy => numbers y (by simp [hy])
    rw [add_assoc] at grown
    simpa using grown

/-- A box is least over what several boxes are least over exactly when it is least over
these boxes. -/
theorem bind_iff {box : β → Bounds K} {boxes : β → Multiset (Bounds K)} {m : Multiset β}
    (each : ∀ c ∈ m, (box c).LeastOver (boxes c)) :
    a.LeastOver (m.bind boxes) ↔ a.LeastOver (m.map box) := by
  have covers_iff (d : Bounds K) : (∀ x ∈ m.bind boxes, d.contains x = true) ↔
      ∀ x ∈ m.map box, d.contains x = true := by
    simp only [Multiset.mem_bind, Multiset.mem_map]
    constructor
    · rintro covers _ ⟨c, hc, rfl⟩
      exact (each c hc).least d fun x hx => covers x ⟨c, hc, hx⟩
    · rintro covers x ⟨c, hc, hx⟩
      exact contains_trans (covers (box c) ⟨c, hc, rfl⟩) ((each c hc).covers x hx)
  constructor
  · intro h
    obtain ⟨x, hx⟩ := h.nonempty
    obtain ⟨c, hc, _⟩ := Multiset.mem_bind.mp hx
    exact ⟨⟨box c, Multiset.mem_map_of_mem box hc⟩, (covers_iff a).mp h.covers,
      fun d covers => h.least d ((covers_iff d).mpr covers)⟩
  · intro h
    obtain ⟨_, hx⟩ := h.nonempty
    obtain ⟨c, hc, rfl⟩ := Multiset.mem_map.mp hx
    obtain ⟨x, hx⟩ := (each c hc).nonempty
    exact ⟨⟨x, Multiset.mem_bind.mpr ⟨c, hc, hx⟩⟩, (covers_iff a).mpr h.covers,
      fun d covers => h.least d ((covers_iff d).mp covers)⟩

end LeastOver

theorem leastOver_unionAll? {xs : List (Bounds K)} (numbers : ∀ x ∈ xs, x.contains x = true)
    (united : unionAll? xs = some a) : a.LeastOver xs := by
  cases xs with
  | nil => contradiction
  | cons x xs =>
    obtain rfl := Option.some.inj united
    have grown := (LeastOver.singleton (numbers x (by simp))).foldl_union
      fun y hy => numbers y (List.mem_cons_of_mem x hy)
    simpa using grown

/-- A box that is least over some boxes is the one that uniting them gives. -/
theorem LeastOver.exists_unionAll? {xs : List (Bounds K)} (least : a.LeastOver xs)
    (numbers : ∀ x ∈ xs, x.contains x = true) :
    ∃ u ∈ unionAll? xs, a.samePlanar u = true := by
  cases united : unionAll? xs with
  | none =>
    obtain ⟨x, hx⟩ := least.nonempty
    rw [unionAll?_eq_none.mp united] at hx
    contradiction
  | some u => exact ⟨u, rfl, least.unique (leastOver_unionAll? numbers united)⟩

/-- The box kept for an empty list is not used for another one. -/
theorem leastOver_getD {xs : List (Bounds K)} (old : Bounds K) (nonempty : xs ≠ [])
    (numbers : ∀ x ∈ xs, x.contains x = true) : ((unionAll? xs).getD old).LeastOver xs := by
  obtain ⟨x, rest, rfl⟩ := List.exists_cons_of_ne_nil nonempty
  exact leastOver_unionAll? numbers rfl

end Containment

section Distance

open Scalar

variable {K : Type} [Scalar K] [LawfulRounding K] {lo hi lo' hi' x : K} {a b : Bounds K}
  {p : Position K}

theorem gap_nonneg (lo hi x : K) : 0 ≤ gap lo hi x := by
  unfold gap
  split
  · rename_i before
    exact LawfulRounding.sub_nonneg before
  · split
    · rename_i behind
      exact LawfulRounding.sub_nonneg behind
    · exact LawfulRounding.zero_le_zero

theorem gap_le_gap (lower : lo ≤ lo') (proper : lo' ≤ hi') (upper : hi' ≤ hi) :
    gap lo hi x ≤ gap lo' hi' x := by
  by_cases before : x < lo
  · rw [gap, gap, if_pos before, if_pos (lt_of_lt_of_le before lower)]
    exact LawfulRounding.sub_le_sub_right before lower
  · by_cases behind : hi < x
    · have past : hi' < x := lt_of_le_of_lt upper behind
      have started : ¬x < lo' := fun early =>
        (lt_iff.mp past).2 (le_trans (le_of_lt early) proper)
      rw [gap, gap, if_neg before, if_pos behind, if_neg started, if_pos past]
      exact LawfulRounding.sub_le_sub_left upper behind
    · rw [gap, if_neg before, if_neg behind]
      exact gap_nonneg lo' hi' x

theorem distanceSquared_nonneg (b : Bounds K) (p : Position K) : 0 ≤ b.distanceSquared p :=
  LawfulRounding.add_nonneg (LawfulRounding.square_nonneg (gap_nonneg ..))
    (LawfulRounding.square_nonneg (gap_nonneg ..))

theorem distanceSquared_le (part : a.contains b = true) (proper : b.Ordered) :
    a.distanceSquared p ≤ b.distanceSquared p := by
  obtain ⟨minX, maxX, minY, maxY⟩ := contains_iff.mp part
  have x := gap_le_gap (x := p.x) minX (proper.x (le_right minX)) maxX
  have y := gap_le_gap (x := p.y) minY (proper.y (le_right minY)) maxY
  exact LawfulRounding.add_le_add (LawfulRounding.square_nonneg (gap_nonneg ..))
    (LawfulRounding.square_le_square (gap_nonneg ..) x)
    (LawfulRounding.square_nonneg (gap_nonneg ..))
    (LawfulRounding.square_le_square (gap_nonneg ..) y)

end Distance

end Geospatial.Bounds
