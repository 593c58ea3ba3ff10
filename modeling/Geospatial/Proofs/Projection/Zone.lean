import Mathlib.Tactic.Linarith
import Mathlib.Tactic.NormNum
import Mathlib.Tactic.Ring
import Geospatial.Projection.TransverseMercator
import Geospatial.Proofs.Scalar.Real

/-! Zones of positions in exact arithmetic, in which some values may be infinite. A longitude is
wrapped to the one place between the antimeridian and itself that whole turns take it to, and the
zone of that place is the one whose central meridian is near it. -/
namespace Geospatial

namespace Scalar

variable {K : Type} [Exact K] {a : K} {b : ℕ}

/-- A number has one remainder only. -/
theorem eq_of_remainders {m n : ℤ} (hm : 0 ≤ a - b * m ∧ a - b * m < b)
    (hn : 0 ≤ a - b * n ∧ a - b * n < b) : m = n := by
  have positive : (0 : K) < b := hm.1.trans_lt hm.2
  have below (i j : ℤ) (hi : 0 ≤ a - b * i) (hj : a - b * j < b) : i < j + 1 := by
    have scaled : (b : K) * i < b * (j + 1) := by linarith
    exact_mod_cast lt_of_mul_lt_mul_left scaled positive.le
  have up := below m n hm.1 hn.2
  have down := below n m hn.1 hm.2
  omega

variable [LawfulWhole K]

theorem exists_modulo (finite : isFinite a = true) (positive : 0 < b) :
    ∃ n : ℤ, modulo a b = a - b * n ∧ 0 ≤ modulo a b ∧ modulo a b < b := by
  obtain ⟨n, exact, near⟩ := LawfulWhole.exists_remainder finite positive
  obtain ⟨low, high⟩ := abs_lt.mp near
  have size : Scalar.abs (b : K) = b := by rw [LawfulWhole.abs_eq, Nat.abs_cast]
  rw [modulo, exact, size]
  split
  · rename_i negative
    exact ⟨n - 1, by push_cast; ring, by linarith, by linarith⟩
  · rename_i nonneg
    exact ⟨n, rfl, le_of_not_gt nonneg, high⟩

/-- Whole multiples of the divisor leave no trace. -/
theorem modulo_add_mul (finite : isFinite a = true) (positive : 0 < b) (k : ℤ) :
    modulo (a + b * k) b = modulo a b := by
  have multiple : isFinite ((b : K) * k) = true := by
    exact_mod_cast LawfulWhole.finite_intCast (b * k)
  obtain ⟨m, left, low⟩ := exists_modulo (LawfulFinite.finite_add finite multiple) positive
  obtain ⟨n, right, high⟩ := exists_modulo finite positive
  have shifted : a + b * k - b * m = a - b * ((m - k : ℤ) : K) := by
    push_cast
    ring
  rw [left, shifted] at low
  rw [right] at high
  rw [left, right, shifted, eq_of_remainders low high]

end Scalar

namespace Zone

variable {z : Zone}

theorem ofCode_code {K : Type} (first : 1 ≤ z.number) (last : z.number ≤ 60) :
    (ofCode z.code : Outcome K Zone) = .ok z := by
  obtain ⟨number, _ | _⟩ := z <;> dsimp only at first last
  · have north : northBase < northBase + number ∧ northBase + number ≤ northBase + 60 := by omega
    simp only [ofCode, code, Bool.false_eq_true, if_false, if_pos north, Nat.add_sub_cancel_left]
  · have south : southBase < southBase + number ∧ southBase + number ≤ southBase + 60 := by omega
    have apart : ¬(northBase < southBase + number ∧ southBase + number ≤ northBase + 60) := by
      simp only [northBase, southBase]
      omega
    simp only [ofCode, code, if_true, if_neg apart, if_pos south, Nat.add_sub_cancel_left]

variable {K : Type} [Exact K] {lon lat : K}

theorem inNorway_iff : inNorway lon lat = true ↔ (56 ≤ lat ∧ lat < 64) ∧ 3 ≤ lon ∧ lon < 12 := by
  simp only [inNorway, Bool.and_eq_true, decide_eq_true_eq, and_assoc]

theorem inSvalbard_iff :
    inSvalbard lon lat = true ↔ (72 ≤ lat ∧ lat ≤ 84) ∧ 0 ≤ lon ∧ lon < 42 := by
  simp only [inSvalbard, Bool.and_eq_true, decide_eq_true_eq, and_assoc]

/-- How far a zone reaches to either side of its central meridian. -/
def reach (lon lat : K) : K := if inNorway lon lat || inSvalbard lon lat then 6 else 3

/-- The zone's number is among the sixty, and its central meridian is no farther off than its reach.
-/
structure Suits (lon lat : K) (number : ℕ) : Prop where
  first : 1 ≤ number
  last : number ≤ 60
  near : |lon - (6 * number - 183)| ≤ reach lon lat

theorem suits_norway (within : inNorway lon lat = true) : Suits lon lat 32 where
  first := by omega
  last := by omega
  near := by
    obtain ⟨-, low, high⟩ := inNorway_iff.mp within
    rw [reach, within, Bool.true_or, if_pos rfl, abs_le]
    constructor <;> norm_num <;> linarith

theorem suits_svalbard (within : inSvalbard lon lat = true) : Suits lon lat
    (if lon < 9 then 31 else if lon < 21 then 33 else if lon < 33 then 35 else 37) := by
  obtain ⟨-, low, high⟩ := inSvalbard_iff.mp within
  have wide : reach lon lat = 6 := by rw [reach, within, Bool.or_true, if_pos rfl]
  split_ifs with h₁ h₂ h₃ <;> refine ⟨by omega, by omega, ?_⟩ <;> rw [wide, abs_le] <;>
    constructor <;> norm_num <;> linarith

variable [Scalar.LawfulWhole K]

omit [Scalar.LawfulWhole K] in
theorem wrapLongitude_eq (lon : K) :
    wrapLongitude lon = Scalar.modulo (lon + (180 : ℕ)) (360 : ℕ) - (180 : ℕ) := rfl

theorem isFinite_natCast (n : ℕ) : Scalar.isFinite (n : K) = true :=
  mod_cast Scalar.LawfulWhole.finite_intCast (K := K) n

/-- Strips of six degrees from the antimeridian on, each with its western edge. -/
theorem suits_strip (low : -180 ≤ lon) (high : lon < 180)
    (regular : (inNorway lon lat || inSvalbard lon lat) = false) :
    Suits lon lat (min (Scalar.toNat (Scalar.floor ((lon + 180) / 6)) + 1) 60) := by
  have finite : Scalar.isFinite ((lon + 180) / 6) = true := by
    refine Scalar.LawfulWhole.finite_of_between (isFinite_natCast 0) (isFinite_natCast 60) ?_ ?_ <;>
      push_cast <;> linarith
  obtain ⟨n, whole, west, east⟩ := Scalar.LawfulWhole.exists_floor finite
  have after : -1 < n := by
    have : (-1 : K) < n := by linarith
    exact_mod_cast this
  have before : n < 60 := by
    have : (n : K) < 60 := by linarith
    exact_mod_cast this
  lift n to ℕ using by omega
  have strip : n < 60 := by omega
  rw [whole, Int.cast_natCast, Scalar.LawfulWhole.toNat_natCast (strip.trans (by decide)),
    Nat.min_eq_left strip]
  refine ⟨by omega, strip, ?_⟩
  rw [reach, regular, if_neg Bool.false_ne_true, abs_le]
  push_cast at west east ⊢
  constructor <;> linarith

/-- The wrapped longitude is the one from the antimeridian on that is whole turns away. -/
theorem exists_turns (finite : Scalar.isFinite lon = true) : ∃ k : ℤ,
    wrapLongitude lon = lon - 360 * k ∧ -180 ≤ wrapLongitude lon ∧ wrapLongitude lon < 180 := by
  have moved := Scalar.LawfulFinite.finite_add finite (isFinite_natCast 180)
  obtain ⟨k, exact, low, high⟩ := Scalar.exists_modulo (b := 360) moved (by decide)
  rw [wrapLongitude_eq]
  push_cast at exact low high ⊢
  exact ⟨k, by linarith, by linarith, by linarith⟩

theorem wrapLongitude_add_turns (finite : Scalar.isFinite lon = true) (k : ℤ) :
    wrapLongitude (lon + 360 * k) = wrapLongitude lon := by
  have moved := Scalar.LawfulFinite.finite_add finite (isFinite_natCast 180)
  have same := Scalar.modulo_add_mul (b := 360) moved (by decide) k
  rw [wrapLongitude_eq, wrapLongitude_eq, ← same]
  push_cast
  rw [add_right_comm]

theorem suits_numberAt (finite : Scalar.isFinite lon = true) (lat : K) :
    Suits (wrapLongitude lon) lat (numberAt lon lat) := by
  obtain ⟨-, -, low, high⟩ := exists_turns finite
  simp only [numberAt]
  split
  · exact suits_norway ‹_›
  · split
    · exact suits_svalbard ‹_›
    · exact suits_strip low high (by simp_all)

/-- The positions that the zones cover. -/
def Covered (lon lat : K) : Prop := Scalar.isFinite lon = true ∧ -80 ≤ lat ∧ lat ≤ 84

theorem ofPosition_eq_ok (covered : Covered lon lat) :
    ofPosition lon lat = .ok ⟨numberAt lon lat, decide (lat < 0)⟩ := by
  obtain ⟨finite, low, high⟩ := covered
  have south : Scalar.isFinite (-80 : K) = true :=
    mod_cast Scalar.LawfulWhole.finite_intCast (K := K) (-80)
  have latitude := Scalar.LawfulWhole.finite_of_between south (isFinite_natCast 84) low
    (mod_cast high)
  have between : Scalar.within (-80) 84 lat = true := by simp [Scalar.within, low, high]
  rw [ofPosition, finite, latitude, between]
  rfl

omit [Scalar.LawfulWhole K] in
theorem ofPosition_eq_error (outside : ¬Covered lon lat) :
    ofPosition lon lat = .error (.projection (.noUtmZone lon lat)) := by
  rw [ofPosition, if_neg]
  simp only [Scalar.within, Bool.and_eq_true, decide_eq_true_eq]
  exact fun ⟨⟨finite, _⟩, low, high⟩ => outside ⟨finite, low, high⟩

/-- A position with a finite longitude, from 80 degrees south to 84 degrees north, is in the zone
whose number and hemisphere its code tells: it has one of the sixty numbers, and its central
meridian is near the longitude, less whole turns; other turns lead to the same zone. All other
positions are refused. -/
theorem ofPosition_covers (lon lat : K) :
    (Scalar.isFinite lon = true ∧ -80 ≤ lat ∧ lat ≤ 84 → ∃ z : Zone,
      ofPosition lon lat = .ok z ∧ (ofCode z.code : Outcome K Zone) = .ok z ∧
      z.number = numberAt lon lat ∧ z.south = decide (lat < 0) ∧ 1 ≤ z.number ∧ z.number ≤ 60 ∧
      (∃ k : ℤ, wrapLongitude lon = lon - 360 * k) ∧
      -180 ≤ wrapLongitude lon ∧ wrapLongitude lon < 180 ∧
      |wrapLongitude lon - (6 * z.number - 183)| ≤
        (if inNorway (wrapLongitude lon) lat || inSvalbard (wrapLongitude lon) lat then 6 else 3) ∧
      ∀ k : ℤ, ofPosition (lon + 360 * k) lat = .ok z) ∧
    (¬(Scalar.isFinite lon = true ∧ -80 ≤ lat ∧ lat ≤ 84) →
      ofPosition lon lat = .error (.projection (.noUtmZone lon lat))) := by
  refine ⟨?_, ofPosition_eq_error⟩
  intro covered
  obtain ⟨k, turns, west, east⟩ := exists_turns covered.1
  have suits := suits_numberAt covered.1 lat
  refine ⟨⟨numberAt lon lat, decide (lat < 0)⟩, ofPosition_eq_ok covered,
    ofCode_code suits.first suits.last, rfl, rfl, suits.first, suits.last, ⟨k, turns⟩, west, east,
    suits.near, ?_⟩
  intro k
  have turned : Scalar.isFinite (lon + 360 * k) = true := by
    refine Scalar.LawfulFinite.finite_add covered.1 ?_
    exact_mod_cast Scalar.LawfulWhole.finite_intCast (360 * k)
  rw [ofPosition_eq_ok ⟨turned, covered.2⟩, numberAt, numberAt, wrapLongitude_add_turns covered.1]

/-- One turn east of Bergen, whose zone is the wide one; and a longitude beyond all numbers. -/
theorem ofPosition_covers_bergen :
    (Scalar.isFinite (365 : ℝ) = true ∧ (-80 : ℝ) ≤ 60 ∧ (60 : ℝ) ≤ 84) ∧
      wrapLongitude (365 : ℝ) = 5 ∧ ofPosition (365 : ℝ) 60 = .ok ⟨32, false⟩ ∧
      ofPosition (365 + 360 * (-2 : ℤ) : ℝ) 60 = .ok ⟨32, false⟩ ∧
    ¬(Scalar.isFinite Hyperreal.omega = true ∧ -80 ≤ (0 : Hyperreal) ∧ (0 : Hyperreal) ≤ 84) ∧
      ofPosition Hyperreal.omega 0 = .error (.projection (.noUtmZone Hyperreal.omega 0)) := by
  have covered : Scalar.isFinite (365 : ℝ) = true ∧ (-80 : ℝ) ≤ 60 ∧ (60 : ℝ) ≤ 84 :=
    ⟨rfl, by norm_num, by norm_num⟩
  have endless : ¬(Scalar.isFinite Hyperreal.omega = true ∧ -80 ≤ (0 : Hyperreal) ∧
      (0 : Hyperreal) ≤ 84) := fun ⟨finite, _⟩ => by
    rw [Hyperreal.isFinite_omega] at finite
    contradiction
  obtain ⟨⟨number, south⟩, here, -, named, side, -, -, ⟨k, turns⟩, west, east, -, again⟩ :=
    (ofPosition_covers (365 : ℝ) 60).1 covered
  obtain rfl : k = 1 := by
    rw [turns] at west east
    have above : (0 : ℝ) < k := by linarith
    have below : (k : ℝ) < 2 := by linarith
    have positive : 0 < k := by exact_mod_cast above
    have single : k < 2 := by exact_mod_cast below
    omega
  have wrapped : wrapLongitude (365 : ℝ) = 5 := by
    rw [turns]
    norm_num
  obtain rfl : number = 32 := by
    have norway : inNorway (wrapLongitude (365 : ℝ)) 60 = true := by
      rw [wrapped, inNorway_iff]
      norm_num
    exact named.trans (by simp only [numberAt, norway, if_true])
  obtain rfl : south = false := side.trans (decide_eq_false (not_lt.mpr (by norm_num)))
  exact ⟨covered, wrapped, here, again (-2), endless,
    (ofPosition_covers Hyperreal.omega 0).2 endless⟩

end Zone
end Geospatial
