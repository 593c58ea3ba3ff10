import Geospatial.Proofs.Relation.Reflexive
import Geospatial.Proofs.Segment.Between

/-! The tests on segments, with their tolerance, against exact places. A place on a segment passes
the test, and segments that cross have a place in common. The point at which they cross is found
where they are far enough from parallel; it is the only place that they share, and either of them
may be named first. -/
namespace Geospatial.Segment

section Place

variable {K : Type} [Euclidean K] {a b p x a₁ a₂ b₁ b₂ : Position K}

theorem tolerance_eq : (tolerance : K) = 1 / 10000000000 := by
  rw [tolerance, Euclidean.ofScientific_eq]
  norm_num

theorem inBox_of_on (on : On x a b) : inBox x a b = true := by
  have slack : (0 : K) < tolerance := tolerance_pos
  have left := affine_x.le_of_on on (Scalar.min_le_left (b := b.x) (le_refl a.x))
    (Scalar.min_le_right (le_refl b.x))
  have right := affine_x.ge_of_on on (Scalar.le_max_left (b := b.x) (le_refl a.x))
    (Scalar.le_max_right (le_refl b.x))
  have low := affine_y.le_of_on on (Scalar.min_le_left (b := b.y) (le_refl a.y))
    (Scalar.min_le_right (le_refl b.y))
  have high := affine_y.ge_of_on on (Scalar.le_max_left (b := b.y) (le_refl a.y))
    (Scalar.le_max_right (le_refl b.y))
  simp only [inBox, Bool.and_eq_true, decide_eq_true_eq]
  refine ⟨⟨⟨?_, ?_⟩, ?_⟩, ?_⟩ <;> linarith

theorem orientation_of_on (on : On x a b) : orientation a b x = 0 := by
  have low := (affine_orientation a b).le_of_on on (by simp) (le_of_eq (orientation_right a b).symm)
  have high := (affine_orientation a b).ge_of_on on (by simp) (le_of_eq (orientation_right a b))
  exact le_antisymm high (by simpa using low)

theorem hasPoint_of_on (on : On x a b) : hasPoint x a b = true :=
  hasPoint_of_orientation (orientation_of_on on) (inBox_of_on on)

theorem hasPoint_comm (p a b : Position K) : hasPoint p a b = hasPoint p b a := by
  simp only [hasPoint, inBox, orientation_reverse a b, Euclidean.abs_eq, abs_neg,
    abs_sub_comm a.x, abs_sub_comm a.y, Exact.min_comm a.x, Exact.min_comm a.y,
    Exact.max_comm a.x, Exact.max_comm a.y]

theorem hasPoint_congr (ha : a₁.sameXY a₂ = true) (hb : b₁.sameXY b₂ = true) :
    hasPoint p a₁ b₁ = hasPoint p a₂ b₂ := by
  obtain ⟨ax, ay, az⟩ := a₁
  obtain ⟨bx, by', bz⟩ := b₁
  obtain ⟨rfl, rfl⟩ := Position.sameXY_iff.mp ha
  obtain ⟨rfl, rfl⟩ := Position.sameXY_iff.mp hb
  rfl

theorem not_hasPoint_of_far {m : K} (wide : |b.x - a.x| ≤ m) (tall : |b.y - a.y| ≤ m) (unit : 1 ≤ m)
    (far : tolerance * m < |orientation a b p|) : hasPoint p a b = false := by
  rw [← Bool.not_eq_true]
  intro near
  simp only [hasPoint, Bool.and_eq_true, decide_eq_true_eq, Euclidean.abs_eq] at near
  have scale := Scalar.max_le (Scalar.max_le wide tall) unit
  exact far.not_ge (near.1.trans (mul_le_mul_of_nonneg_left scale tolerance_pos.le))

/-- How far the directions of two segments are from parallel, with their lengths as factors. -/
def slant (a₁ a₂ b₁ b₂ : Position K) : K :=
  (a₂.x - a₁.x) * (b₂.y - b₁.y) - (a₂.y - a₁.y) * (b₂.x - b₁.x)

theorem slant_eq (a₁ a₂ b₁ b₂ : Position K) :
    slant a₁ a₂ b₁ b₂ = orientation b₁ b₂ a₁ - orientation b₁ b₂ a₂ := by
  unfold slant orientation
  ring

/-- A common place is found where the segments are far enough from parallel. -/
theorem crossing?_of_on (ha : On x a₁ a₂) (hb : On x b₁ b₂)
    (steep : tolerance ≤ |slant a₁ a₂ b₁ b₂|) :
    ∃ c, crossing? a₁ a₂ b₁ b₂ = some c ∧ x.sameXY c = true := by
  have nonzero : slant a₁ a₂ b₁ b₂ ≠ 0 := abs_pos.mp (tolerance_pos.trans_le steep)
  obtain ⟨t, t₀, t₁, hx, hy⟩ := ha
  obtain ⟨u, u₀, u₁, hx', hy'⟩ := hb
  have first : ((b₁.x - a₁.x) * (b₂.y - b₁.y) - (b₁.y - a₁.y) * (b₂.x - b₁.x)) /
      slant a₁ a₂ b₁ b₂ = t := by
    rw [div_eq_iff nonzero, slant]
    linear_combination (b₂.y - b₁.y) * (hx - hx') - (b₂.x - b₁.x) * (hy - hy')
  have second : ((b₁.x - a₁.x) * (a₂.y - a₁.y) - (b₁.y - a₁.y) * (a₂.x - a₁.x)) /
      slant a₁ a₂ b₁ b₂ = u := by
    rw [div_eq_iff nonzero, slant]
    linear_combination (a₂.y - a₁.y) * (hx - hx') - (a₂.x - a₁.x) * (hy - hy')
  refine ⟨⟨a₁.x + t * (a₂.x - a₁.x), a₁.y + t * (a₂.y - a₁.y), none⟩, ?_,
    Position.sameXY_iff.mpr ⟨hx, hy⟩⟩
  have far : ¬Scalar.abs (slant a₁ a₂ b₁ b₂) < tolerance := by
    rw [Euclidean.abs_eq]
    exact not_lt.mpr steep
  simp only [slant] at far first second
  simp only [crossing?, far, if_false, first, second, Scalar.within, t₀, t₁, u₀, u₁, decide_true,
    Bool.and_self, if_true]

theorem share_of_opposite {d e t : K} (signs : opposite d e = true)
    (zero : (1 - t) * d + t * e = 0) : 0 ≤ t ∧ t ≤ 1 := by
  have slack : (0 : K) < tolerance := tolerance_pos
  simp only [opposite, Bool.or_eq_true, Bool.and_eq_true, decide_eq_true_eq] at signs
  rcases signs with ⟨hd, he⟩ | ⟨hd, he⟩
  · have fall : 0 < d - e := by linarith
    have scaled : t * (d - e) = d := by linear_combination -zero
    exact ⟨(mul_nonneg_iff_of_pos_right fall).mp (by linarith),
      le_of_mul_le_mul_right (by linarith) fall⟩
  · have rise : 0 < e - d := by linarith
    have scaled : t * (e - d) = -d := by linear_combination zero
    exact ⟨(mul_nonneg_iff_of_pos_right rise).mp (by linarith),
      le_of_mul_le_mul_right (by linarith) rise⟩

/-- Segments whose ends lie on opposite sides of each other's lines have a common place. -/
theorem exists_on_both (ha : opposite (orientation b₁ b₂ a₁) (orientation b₁ b₂ a₂) = true)
    (hb : opposite (orientation a₁ a₂ b₁) (orientation a₁ a₂ b₂) = true) :
    ∃ z, On z a₁ a₂ ∧ On z b₁ b₂ := by
  have slack : (0 : K) < tolerance := tolerance_pos
  obtain ⟨z, on, flat⟩ : ∃ z, On z a₁ a₂ ∧ orientation b₁ b₂ z = 0 := by
    simp only [opposite, Bool.or_eq_true, Bool.and_eq_true, decide_eq_true_eq] at ha
    rcases ha with ⟨h₁, h₂⟩ | ⟨h₁, h₂⟩
    · exact (affine_orientation b₁ b₂).exists_zero (by linarith) (by linarith)
    · obtain ⟨z, on, flat⟩ := (affine_orientation b₁ b₂).exists_zero (c := a₂) (d := a₁)
        (by linarith) (by linarith)
      exact ⟨z, on.symm, flat⟩
  have apart : b₁.sameXY b₂ = false := by
    rw [← Bool.not_eq_true]
    intro same
    rw [(affine_orientation a₁ a₂).congr same] at hb
    simp only [opposite, Bool.or_eq_true, Bool.and_eq_true, decide_eq_true_eq] at hb
    rcases hb with ⟨h₁, h₂⟩ | ⟨h₁, h₂⟩ <;> linarith
  obtain ⟨t, hx, hy⟩ := exists_share apart flat
  have level : orientation a₁ a₂ z = 0 := by
    have low := (affine_orientation a₁ a₂).le_of_on (m := 0) on (by simp) (by simp)
    have high := (affine_orientation a₁ a₂).ge_of_on (m := 0) on (by simp) (by simp)
    exact le_antisymm high low
  rw [(affine_orientation a₁ a₂).eq_of_share hx hy] at level
  obtain ⟨low, high⟩ := share_of_opposite hb level
  exact ⟨z, on, t, low, high, hx, hy⟩

end Place

section Crossing

variable {K : Type} [Euclidean K] {x y a₁ a₂ b₁ b₂ : Position K}

/-- What is found lies on both segments, which are far enough from parallel. -/
theorem crossing?_eq_some {c : Position K} (found : crossing? a₁ a₂ b₁ b₂ = some c) :
    tolerance ≤ |slant a₁ a₂ b₁ b₂| ∧ c.z = none ∧ On c a₁ a₂ ∧ On c b₁ b₂ := by
  have whole : slant a₁ a₂ b₁ b₂ =
      (a₂.x - a₁.x) * (b₂.y - b₁.y) - (a₂.y - a₁.y) * (b₂.x - b₁.x) := rfl
  unfold crossing? at found
  simp only [Euclidean.abs_eq, ← whole] at found
  split at found
  · contradiction
  · rename_i steep
    have steep : tolerance ≤ |slant a₁ a₂ b₁ b₂| := not_lt.mp steep
    have nonzero : slant a₁ a₂ b₁ b₂ ≠ 0 := abs_pos.mp (tolerance_pos.trans_le steep)
    simp only [Option.ite_none_right_eq_some, Scalar.within, Bool.and_eq_true,
      decide_eq_true_eq, Option.some.injEq] at found
    obtain ⟨⟨⟨t₀, t₁⟩, u₀, u₁⟩, rfl⟩ := found
    -- the shares of the two segments on the way to the crossing
    have first := div_mul_cancel₀
      ((b₁.x - a₁.x) * (b₂.y - b₁.y) - (b₁.y - a₁.y) * (b₂.x - b₁.x)) nonzero
    have second := div_mul_cancel₀
      ((b₁.x - a₁.x) * (a₂.y - a₁.y) - (b₁.y - a₁.y) * (a₂.x - a₁.x)) nonzero
    refine ⟨steep, rfl, ⟨_, t₀, t₁, rfl, rfl⟩, ⟨_, u₀, u₁, ?_, ?_⟩⟩ <;>
      apply mul_right_cancel₀ nonzero
    · linear_combination (a₂.x - a₁.x) * first - (b₂.x - b₁.x) * second + (a₁.x - b₁.x) * whole
    · linear_combination (a₂.y - a₁.y) * first - (b₂.y - b₁.y) * second + (a₁.y - b₁.y) * whole

/-- Segments that are not parallel have at most one place in common. -/
theorem sameXY_of_on_both (steep : tolerance ≤ |slant a₁ a₂ b₁ b₂|) (hx : On x a₁ a₂)
    (hx' : On x b₁ b₂) (hy : On y a₁ a₂) (hy' : On y b₁ b₂) : x.sameXY y = true := by
  obtain ⟨c, found, same⟩ := crossing?_of_on hx hx' steep
  obtain ⟨c', found', same'⟩ := crossing?_of_on hy hy' steep
  obtain rfl := Option.some.inj (found.symm.trans found')
  rw [Position.sameXY_iff] at same same' ⊢
  exact ⟨same.1.trans same'.1.symm, same.2.trans same'.2.symm⟩

theorem slant_comm (a₁ a₂ b₁ b₂ : Position K) : slant b₁ b₂ a₁ a₂ = -slant a₁ a₂ b₁ b₂ := by
  unfold slant
  ring

/-- What is found for two segments is found for them in the other order. -/
theorem crossing?_swap {c : Position K} (found : crossing? a₁ a₂ b₁ b₂ = some c) :
    crossing? b₁ b₂ a₁ a₂ = some c := by
  obtain ⟨steep, flat, ha, hb⟩ := crossing?_eq_some found
  rw [← abs_neg, ← slant_comm] at steep
  obtain ⟨d, found', same⟩ := crossing?_of_on hb ha steep
  obtain ⟨-, flat', -, -⟩ := crossing?_eq_some found'
  obtain ⟨hx, hy⟩ := Position.sameXY_iff.mp same
  cases c
  cases d
  simp_all

/-- A crossing is found exactly where two segments meet whose directions have a cross product of
`tolerance` or more in size; it lies on both and no other place does; and the order of the segments
makes no difference. -/
theorem crossing?_finds_meeting (a₁ a₂ b₁ b₂ : Position K) :
    ((∃ c, crossing? a₁ a₂ b₁ b₂ = some c) ↔
      tolerance ≤ |slant a₁ a₂ b₁ b₂| ∧ ∃ x, On x a₁ a₂ ∧ On x b₁ b₂) ∧
    (∀ c, crossing? a₁ a₂ b₁ b₂ = some c →
      On c a₁ a₂ ∧ On c b₁ b₂ ∧ ∀ x, On x a₁ a₂ → On x b₁ b₂ → x.sameXY c = true) ∧
    crossing? b₁ b₂ a₁ a₂ = crossing? a₁ a₂ b₁ b₂ := by
  refine ⟨⟨?_, ?_⟩, ?_, ?_⟩
  · rintro ⟨c, found⟩
    obtain ⟨steep, -, ha, hb⟩ := crossing?_eq_some found
    exact ⟨steep, c, ha, hb⟩
  · rintro ⟨steep, x, ha, hb⟩
    obtain ⟨c, found, -⟩ := crossing?_of_on ha hb steep
    exact ⟨c, found⟩
  · intro c found
    obtain ⟨steep, -, ha, hb⟩ := crossing?_eq_some found
    exact ⟨ha, hb, fun x hx hx' => sameXY_of_on_both steep hx hx' ha hb⟩
  · exact Option.ext fun c => ⟨crossing?_swap, crossing?_swap⟩

end Crossing

end Geospatial.Segment
