import Geospatial.Geometry
import Geospatial.Proofs.Scalar.DoubleSum

/-! Boxes whose lower ends come first. Every way of making a box gives one with its lower ends
first, except a negative expansion of more than half its width or height, which carries its sides
past each other. -/
namespace Geospatial

namespace Scalar

variable {K : Type} [Scalar K] [LawfulOrder K] {a b c d : K}

/-- Joined ranges are in order when one of them is. -/
theorem min_le_max_of_le (h : a ≤ c) : min a b ≤ max c d :=
  le_trans (min_le_left (le_left h)) (le_trans h (le_max_left (le_right h)))

end Scalar

namespace Bounds

variable {K : Type} [Scalar K]

/-- The lower ends come first. The heights are both there, in this order, or both missing. -/
structure Proper (b : Bounds K) : Prop where
  x : b.minX ≤ b.maxX
  y : b.minY ≤ b.maxY
  z : Option.Rel (· ≤ ·) b.minZ b.maxZ

/-- No coordinate of the position is other than a number. -/
structure Numbers (p : Position K) : Prop where
  x : p.x ≤ p.x
  y : p.y ≤ p.y
  z : ∀ z ∈ p.z, z ≤ z

/-- Boxes made from numbers in any number of steps, with the expansions that are allowed. -/
inductive Built (allowed : Bounds K → K → Prop) : Bounds K → Prop where
  | ofCorners {x₁ y₁ x₂ y₂ : K} : x₁ ≤ x₁ → y₁ ≤ y₁ → x₂ ≤ x₂ → y₂ ≤ y₂ →
      Built allowed (ofCorners x₁ y₁ x₂ y₂)
  | ofCorners3 {x₁ y₁ z₁ x₂ y₂ z₂ : K} : x₁ ≤ x₁ → y₁ ≤ y₁ → z₁ ≤ z₁ → x₂ ≤ x₂ → y₂ ≤ y₂ →
      z₂ ≤ z₂ → Built allowed (ofCorners3 x₁ y₁ z₁ x₂ y₂ z₂)
  | ofPosition {p : Position K} : Numbers p → Built allowed (ofPosition p)
  | ofPositions {ps : List (Position K)} {b : Bounds K} : (∀ p ∈ ps, Numbers p) →
      ofPositions? ps = some b → Built allowed b
  | ofGeometry {g : Geometry K} {b : Bounds K} : (∀ p ∈ g.positions, Numbers p) →
      g.bounds? = some b → Built allowed b
  | extend {b : Bounds K} {p : Position K} : Built allowed b → Numbers p →
      Built allowed (b.extend p)
  | union {a b : Bounds K} : Built allowed a → Built allowed b → Built allowed (a.union b)
  | planar {b : Bounds K} : Built allowed b → Built allowed b.planar
  | expand {b : Bounds K} {d : K} : Built allowed b → Scalar.isFinite d = true → allowed b d →
      Built allowed (b.expand d)

/-- The sides are moved outward, or inward without passing each other. -/
def Outward (b : Bounds K) (d : K) : Prop :=
  0 ≤ d ∨ b.minX - d ≤ b.maxX + d ∧ b.minY - d ≤ b.maxY + d

/-- What is taken off on two sides is no more than the width and the height. -/
def Spares (b : Bounds K) (d : K) : Prop :=
  -(d + d) ≤ b.maxX - b.minX ∧ -(d + d) ≤ b.maxY - b.minY

section Order

variable [Scalar.LawfulOrder K] {a b : Bounds K} {p : Position K}

theorem proper_ofCorners {x₁ y₁ x₂ y₂ : K} (x : x₁ ≤ x₁) (y : y₁ ≤ y₁) :
    (ofCorners x₁ y₁ x₂ y₂).Proper :=
  ⟨Scalar.min_le_max_of_le x, Scalar.min_le_max_of_le y, .none⟩

theorem proper_ofCorners3 {x₁ y₁ z₁ x₂ y₂ z₂ : K} (x : x₁ ≤ x₁) (y : y₁ ≤ y₁) (z : z₁ ≤ z₁) :
    (ofCorners3 x₁ y₁ z₁ x₂ y₂ z₂).Proper :=
  ⟨Scalar.min_le_max_of_le x, Scalar.min_le_max_of_le y, .some (Scalar.min_le_max_of_le z)⟩

omit [Scalar.LawfulOrder K] in
theorem proper_ofPosition (numbers : Numbers p) : (ofPosition p).Proper := by
  refine ⟨numbers.x, numbers.y, ?_⟩
  cases given : p.z with
  | none => simp [ofPosition, given]
  | some z => simpa [ofPosition, given] using numbers.z z given

theorem Proper.mergeHeights {low high low' high' : Option K} (left : Option.Rel (· ≤ ·) low high)
    (right : Option.Rel (· ≤ ·) low' high') :
    Option.Rel (· ≤ ·) (mergeHeights Scalar.min low low') (mergeHeights Scalar.max high high') := by
  cases left with
  | none =>
    cases right with
    | none => exact .none
    | some ordered => exact .some ordered
  | some ordered =>
    cases right with
    | none => exact .some ordered
    | some _ => exact .some (Scalar.min_le_max_of_le ordered)

theorem Proper.union (left : a.Proper) (right : b.Proper) : (a.union b).Proper :=
  ⟨Scalar.min_le_max_of_le left.x, Scalar.min_le_max_of_le left.y,
    Proper.mergeHeights left.z right.z⟩

theorem Proper.planar (proper : b.Proper) : b.planar.Proper :=
  proper_ofCorners (Scalar.le_left proper.x) (Scalar.le_left proper.y)

theorem proper_ofPositions {ps : List (Position K)} (numbers : ∀ p ∈ ps, Numbers p)
    (made : ofPositions? ps = some b) : b.Proper := by
  have grown (ps : List (Position K)) (numbers : ∀ p ∈ ps, Numbers p) (b : Bounds K)
      (proper : b.Proper) : (ps.foldl Bounds.extend b).Proper := by
    induction ps generalizing b with
    | nil => exact proper
    | cons p ps ih =>
      obtain ⟨first, rest⟩ := List.forall_mem_cons.mp numbers
      exact ih rest _ (proper.union (proper_ofPosition first))
  cases ps with
  | nil => contradiction
  | cons p ps =>
    obtain ⟨first, rest⟩ := List.forall_mem_cons.mp numbers
    cases made
    exact grown ps rest _ (proper_ofPosition first)

end Order

/-- Only an expansion can leave the lower ends behind. -/
theorem Built.proper [Scalar.LawfulOrder K] {allowed : Bounds K → K → Prop} {b : Bounds K}
    (keeps : ∀ {b d}, b.Proper → Scalar.isFinite d = true → allowed b d → (b.expand d).Proper)
    (built : Built allowed b) : b.Proper := by
  induction built with
  | ofCorners x₁ y₁ _ _ => exact proper_ofCorners x₁ y₁
  | ofCorners3 x₁ y₁ z₁ _ _ _ => exact proper_ofCorners3 x₁ y₁ z₁
  | ofPosition numbers => exact proper_ofPosition numbers
  | ofPositions numbers made => exact proper_ofPositions numbers made
  | ofGeometry numbers made => exact proper_ofPositions numbers made
  | extend _ numbers proper => exact proper.union (proper_ofPosition numbers)
  | union _ _ left right => exact left.union right
  | planar _ proper => exact proper.planar
  | expand _ finite allows proper => exact keeps proper finite allows

theorem Proper.expand_iff [Scalar.LawfulGrowth K] {b : Bounds K} {d : K} (proper : b.Proper)
    (finite : Scalar.isFinite d = true) : (b.expand d).Proper ↔ b.Outward d := by
  have apart {low high : K} (ordered : low ≤ high) (outward : 0 ≤ d) : low - d ≤ high + d :=
    Scalar.le_trans (Scalar.LawfulGrowth.sub_le (Scalar.le_left ordered) finite outward)
      (Scalar.le_trans ordered
        (Scalar.LawfulGrowth.le_add (Scalar.le_right ordered) finite outward))
  constructor
  · intro kept
    exact .inr ⟨kept.x, kept.y⟩
  · rintro (outward | ⟨x, y⟩)
    · exact ⟨apart proper.x outward, apart proper.y outward, proper.z⟩
    · exact ⟨x, y, proper.z⟩

/-- In exact arithmetic the width and the height tell how far the sides may be moved inward. -/
theorem Proper.expand_iff_spares {F : Type} [Exact F] {b : Bounds F} {d : F} (proper : b.Proper) :
    (b.expand d).Proper ↔ b.Spares d := by
  have side {low high : F} : low - d ≤ high + d ↔ -(d + d) ≤ high - low := by
    constructor <;> intro ordered <;> linarith
  constructor
  · intro kept
    exact ⟨side.mp kept.x, side.mp kept.y⟩
  · intro spares
    exact ⟨side.mpr spares.1, side.mpr spares.2, proper.z⟩

/-- A box made from numbers in any number of steps has its lower ends first where no expansion took
the sides past each other. One that does leaves them so, and only a negative one can: in exact
arithmetic, one that takes off more than the width or the height. -/
theorem proper_unless_crossed (K : Type) [Scalar K] [Scalar.LawfulGrowth K] :
    (∀ b : Bounds K, Built Outward b → b.Proper) ∧
      (∀ (b : Bounds K) (d : K), b.Proper → Scalar.isFinite d = true →
        ((b.expand d).Proper ↔ b.Outward d)) ∧
      ∀ (F : Type) [Exact F], (∀ b : Bounds F, Built Spares b → b.Proper) ∧
        ∀ (b : Bounds F) (d : F), b.Proper → ((b.expand d).Proper ↔ b.Spares d) := by
  refine ⟨fun _ => Built.proper fun proper finite => (proper.expand_iff finite).mpr,
    fun _ _ => Proper.expand_iff, fun F _ => ⟨fun _ => Built.proper fun proper _ => ?_,
      fun _ _ => Proper.expand_iff_spares⟩⟩
  exact proper.expand_iff_spares.mpr

/-- A box of two corners, a position beside it and a margin. -/
theorem proper_unless_crossed_margin :
    (((ofCorners 10 5 0 0 : Bounds Float).extend ⟨20, -1, some 3⟩).expand 2).Proper := by
  have corners : Built Outward (ofCorners 10 5 0 0 : Bounds Float) :=
    .ofCorners (by decide +kernel) (by decide +kernel) (by decide +kernel) (by decide +kernel)
  have numbers : Numbers (⟨20, -1, some 3⟩ : Position Float) :=
    ⟨by decide +kernel, by decide +kernel, by decide +kernel⟩
  exact (proper_unless_crossed Float).1 _
    ((corners.extend numbers).expand (by decide +kernel) (.inl (by decide +kernel)))

/-- A negative expansion of more than half the width does not leave the lower ends first. -/
theorem not_proper_of_built :
    ¬∀ b : Bounds Float, Built (fun _ _ => True) b → b.Proper := by
  intro every
  have corners : Built (fun _ _ => True) (ofCorners 0 0 1 1 : Bounds Float) :=
    .ofCorners (by decide +kernel) (by decide +kernel) (by decide +kernel) (by decide +kernel)
  have kept := (every _ (corners.expand (d := -3) (by decide +kernel) trivial)).x
  exact absurd kept (by decide +kernel)

end Bounds
end Geospatial
