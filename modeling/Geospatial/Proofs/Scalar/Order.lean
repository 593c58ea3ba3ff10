import Geospatial.Proofs.Order
import Geospatial.Scalar

/-! Laws of comparison, shared by doubles and exact numbers: `≤` orders the numbers, two numbers
are equal when each is at most the other, and a value that is not a number compares with nothing,
itself included. So `a ≤ a` says that `a` is a number, and the comparison of numbers is a total
preorder. No arithmetic takes part. -/
namespace Geospatial.Scalar

class LawfulOrder (K : Type) [Scalar K] : Prop where
  le_trans {a b c : K} : a ≤ b → b ≤ c → a ≤ c
  le_total {a b : K} : a ≤ a → b ≤ b → a ≤ b ∨ b ≤ a
  le_left {a b : K} : a ≤ b → a ≤ a
  le_right {a b : K} : a ≤ b → b ≤ b
  lt_iff {a b : K} : a < b ↔ a ≤ b ∧ ¬b ≤ a
  beq_iff {a b : K} : (a == b) = true ↔ a ≤ b ∧ b ≤ a
  le_of_isFinite {a : K} : isFinite a = true → a ≤ a

export LawfulOrder (le_trans le_total le_left le_right lt_iff beq_iff le_of_isFinite)

variable {K : Type} [Scalar K]

theorem min_choice (a b : K) : min a b = a ∨ min a b = b := by
  unfold min
  split
  · exact Or.inr rfl
  · exact Or.inl rfl

theorem max_choice (a b : K) : max a b = a ∨ max a b = b := by
  unfold max
  split
  · exact Or.inr rfl
  · exact Or.inl rfl

theorem le_min {a b c : K} (ha : c ≤ a) (hb : c ≤ b) : c ≤ min a b := by
  rcases min_choice a b with h | h <;> rw [h] <;> assumption

theorem max_le {a b c : K} (ha : a ≤ c) (hb : b ≤ c) : max a b ≤ c := by
  rcases max_choice a b with h | h <;> rw [h] <;> assumption

theorem order_eq_lt {a b : K} : order a b = .lt ↔ a < b := by
  unfold order compare?
  by_cases less : a < b
  · simp [less]
  · by_cases greater : b < a
    · simp [less, greater]
    · by_cases same : (a == b) = true <;> simp [less, greater, same]

variable [LawfulOrder K] {a b c : K}

theorem le_of_lt (h : a < b) : a ≤ b := (lt_iff.mp h).1

theorem not_lt_of_le (h : a ≤ b) : ¬b < a := fun back => (lt_iff.mp back).2 h

theorem not_le_of_isNaN (h : isNaN a = true) : ¬a ≤ a := by
  intro number
  have same : (a == a) = true := beq_iff.mpr ⟨number, number⟩
  simp [isNaN, same] at h

/-- A number that is not below another one is at least as great. -/
theorem le_of_not_lt (ha : a ≤ a) (hb : b ≤ b) (h : ¬b < a) : a ≤ b := by
  rcases le_total ha hb with ordered | ordered
  · exact ordered
  · by_cases above : a ≤ b
    · exact above
    · exact absurd (lt_iff.mpr ⟨ordered, above⟩) h

/-- The lesser of two values is at most the first one, be the second one a number or not. -/
theorem min_le_left (ha : a ≤ a) : min a b ≤ a := by
  unfold min
  split
  · rename_i chosen
    simp only [Bool.or_eq_true, decide_eq_true_eq] at chosen
    rcases chosen with below | missing
    · exact le_of_lt below
    · exact absurd ha (not_le_of_isNaN missing)
  · exact ha

theorem min_le_right (hb : b ≤ b) : min a b ≤ b := by
  unfold min
  split
  · exact hb
  · rename_i kept
    simp only [Bool.or_eq_true, decide_eq_true_eq, not_or, Bool.not_eq_true] at kept
    have ha : a ≤ a := by simpa [isNaN, beq_iff] using kept.2
    exact le_of_not_lt ha hb kept.1

theorem le_max_left (ha : a ≤ a) : a ≤ max a b := by
  unfold max
  split
  · rename_i chosen
    simp only [Bool.or_eq_true, decide_eq_true_eq] at chosen
    rcases chosen with above | missing
    · exact le_of_lt above
    · exact absurd ha (not_le_of_isNaN missing)
  · exact ha

theorem le_max_right (hb : b ≤ b) : b ≤ max a b := by
  unfold max
  split
  · exact hb
  · rename_i kept
    simp only [Bool.or_eq_true, decide_eq_true_eq, not_or, Bool.not_eq_true] at kept
    have ha : a ≤ a := by simpa [isNaN, beq_iff] using kept.2
    exact le_of_not_lt hb ha kept.1

/-- Ranges that are in order where they have a lower end are so when they are joined. -/
theorem min_le_max {d : K} (ha : a ≤ a → a ≤ c) (hb : b ≤ b → b ≤ d)
    (number : min a b ≤ min a b) : min a b ≤ max c d := by
  rcases min_choice a b with h | h <;> rw [h] at number ⊢
  · exact le_trans (ha number) (le_max_left (le_right (ha number)))
  · exact le_trans (hb number) (le_max_right (le_right (hb number)))

theorem min_beq_min {a' b' : K} (ha : (a == a') = true) (hb : (b == b') = true) :
    (min a b == min a' b') = true := by
  obtain ⟨ha, ha'⟩ := beq_iff.mp ha
  obtain ⟨hb, hb'⟩ := beq_iff.mp hb
  apply beq_iff.mpr
  constructor
  · exact le_min (le_trans (min_le_left (le_left ha)) ha) (le_trans (min_le_right (le_left hb)) hb)
  · exact le_min (le_trans (min_le_left (le_left ha')) ha')
      (le_trans (min_le_right (le_left hb')) hb')

theorem max_beq_max {a' b' : K} (ha : (a == a') = true) (hb : (b == b') = true) :
    (max a b == max a' b') = true := by
  obtain ⟨ha, ha'⟩ := beq_iff.mp ha
  obtain ⟨hb, hb'⟩ := beq_iff.mp hb
  apply beq_iff.mpr
  constructor
  · exact max_le (le_trans ha (le_max_left (le_right ha)))
      (le_trans hb (le_max_right (le_right hb)))
  · exact max_le (le_trans ha' (le_max_left (le_right ha')))
      (le_trans hb' (le_max_right (le_right hb')))

theorem order_eq_gt : order a b = .gt ↔ b < a := by
  unfold order compare?
  by_cases less : a < b
  · have notGreater : ¬b < a := fun greater => (lt_iff.mp greater).2 (le_of_lt less)
    simp [less, notGreater]
  · by_cases greater : b < a
    · simp [less, greater]
    · by_cases same : (a == b) = true <;> simp [less, greater, same]

theorem order_isLE (ha : a ≤ a) (hb : b ≤ b) : (order a b).isLE ↔ a ≤ b := by
  rw [Ordering.isLE_iff_ne_gt, order_eq_gt]
  exact ⟨le_of_not_lt ha hb, fun atMost less => (lt_iff.mp less).2 atMost⟩

/-- Numbers that no comparison tells apart are equal. -/
theorem beq_of_order_eq (ha : a ≤ a) (hb : b ≤ b) (h : order a b = .eq) : (a == b) = true := by
  refine beq_iff.mpr ⟨(order_isLE ha hb).mp (by simp [h]), le_of_not_lt hb ha fun less => ?_⟩
  rw [order_eq_lt.mpr less] at h
  contradiction

/-- A second comparison that tells any two apart decides between equal numbers. -/
theorem order_then_isLE {second : Ordering} (ha : a ≤ a) (hb : b ≤ b)
    (ordered : ((order a b).then second).isLE) (apart : second ≠ .eq) :
    a < b ∨ (a == b) = true ∧ second = .lt := by
  cases first : order a b with
  | lt => exact .inl (order_eq_lt.mp first)
  | gt => simp [first] at ordered
  | eq =>
    rw [first, Ordering.eq_then] at ordered
    refine .inr ⟨beq_of_order_eq ha hb first, ?_⟩
    cases second with
    | lt => rfl
    | eq => exact absurd rfl apart
    | gt => simp at ordered

theorem order_transOn : Order.TransOn (order : K → K → Ordering) fun a => a ≤ a where
  eq_swap {a b} := by
    cases h : order b.1 a.1 with
    | lt => exact order_eq_gt.mpr (order_eq_lt.mp h)
    | gt => exact order_eq_lt.mpr (order_eq_gt.mp h)
    | eq =>
      cases k : order a.1 b.1 with
      | lt => rw [order_eq_gt.mpr (order_eq_lt.mp k)] at h; contradiction
      | gt => rw [order_eq_lt.mpr (order_eq_gt.mp k)] at h; contradiction
      | eq => rfl
  isLE_trans {a b c} ab bc := by
    rw [order_isLE a.2 c.2]
    exact le_trans ((order_isLE a.2 b.2).mp ab) ((order_isLE b.2 c.2).mp bc)

/-- Anything may be compared by a number that it has. -/
theorem key_transOn {α : Type} {key : α → K} (numbers : ∀ x, key x ≤ key x) :
    Order.TransOn (Order.on key order) fun _ => True :=
  order_transOn.on key fun x _ => numbers x

theorem least?_by_key {α : Type} {key : α → K} (numbers : ∀ x, key x ≤ key x) {xs : List α} {m : α}
    (found : Order.least? (Order.on key order) xs = some m) : m ∈ xs ∧ ∀ x ∈ xs, key m ≤ key x := by
  obtain ⟨here, least⟩ := (key_transOn numbers).least?_isLE (fun _ _ => trivial) found
  exact ⟨here, fun x hx => (order_isLE (numbers m) (numbers x)).mp (least x hx)⟩

theorem greatest?_by_key {α : Type} {key : α → K} (numbers : ∀ x, key x ≤ key x) {xs : List α}
    {m : α} (found : Order.greatest? (Order.on key order) xs = some m) :
    m ∈ xs ∧ ∀ x ∈ xs, key x ≤ key m := by
  obtain ⟨here, greatest⟩ := (key_transOn numbers).greatest?_isLE (fun _ _ => trivial) found
  exact ⟨here, fun x hx => (order_isLE (numbers x) (numbers m)).mp (greatest x hx)⟩

end Geospatial.Scalar
