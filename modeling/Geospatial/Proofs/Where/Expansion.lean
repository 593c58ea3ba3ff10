import Geospatial.Where.Truth

/-! Membership in a list of constants against the disjunction of equalities, and a range
test against the conjunction of two comparisons, in three-valued logic. Each agrees with its
expansion except on one kind of values, on which one of the two is unknown and the other one
is not. -/
namespace Geospatial.Where

namespace Truth

theorem or_assoc (a b c : Truth) : (a.or b).or c = a.or (b.or c) := by
  rcases a with _ | _ | _ <;> rcases b with _ | _ | _ <;> rcases c with _ | _ | _ <;> rfl

theorem or_false (a : Truth) : a.or (some false) = a := by
  rcases a with _ | _ | _ <;> rfl

theorem or_eq_true {a b : Truth} : a.or b = some true ↔ a = some true ∨ b = some true := by
  rcases a with _ | _ | _ <;> rcases b with _ | _ | _ <;> decide

theorem or_eq_false {a b : Truth} : a.or b = some false ↔ a = some false ∧ b = some false := by
  rcases a with _ | _ | _ <;> rcases b with _ | _ | _ <;> decide

theorem eq_iff {a b : Truth} :
    a = b ↔ (a = some true ↔ b = some true) ∧ (a = some false ↔ b = some false) := by
  rcases a with _ | _ | _ <;> rcases b with _ | _ | _ <;> decide

theorem negateIf_none (negated : Bool) : negateIf negated none = none := by
  cases negated <;> rfl

theorem negateIf_false (negated : Bool) : negateIf negated (some false) = some negated := by
  cases negated <;> rfl

/-- The disjunction of what is said of each element, false for no elements. -/
def any (f : α → Truth) (xs : List α) : Truth := xs.foldr (fun x t => (f x).or t) (some false)

theorem any_cons (f : α → Truth) (x : α) (xs : List α) : any f (x :: xs) = (f x).or (any f xs) :=
  rfl

theorem foldl_or (f : α → Truth) (t : Truth) (xs : List α) :
    xs.foldl (fun t x => t.or (f x)) t = t.or (any f xs) := by
  induction xs generalizing t with
  | nil => exact (or_false t).symm
  | cons x xs ih => rw [List.foldl_cons, ih, or_assoc, any_cons]

variable {f : α → Truth} {xs : List α}

theorem any_eq_true : any f xs = some true ↔ ∃ x ∈ xs, f x = some true := by
  induction xs with
  | nil => simp [any]
  | cons x xs ih => simp only [any_cons, or_eq_true, ih, List.mem_cons, exists_eq_or_imp]

theorem any_eq_false : any f xs = some false ↔ ∀ x ∈ xs, f x = some false := by
  induction xs with
  | nil => simp [any]
  | cons x xs ih => rw [any_cons, or_eq_false, ih, List.forall_mem_cons]

theorem any_eq_none (open? : ∃ x ∈ xs, f x = none) (never : ∀ x ∈ xs, f x ≠ some true) :
    any f xs = none := by
  obtain ⟨x, here, unknown⟩ := open?
  cases value : any f xs with
  | none => rfl
  | some b =>
    cases b with
    | true =>
      obtain ⟨y, there, holds⟩ := any_eq_true.mp value
      exact absurd holds (never y there)
    | false =>
      rw [any_eq_false.mp value x here] at unknown
      contradiction

def strictAnd (a b : Truth) : Truth := do return (← a) && (← b)

/-- One side is false while the other one is unknown. -/
def HalfKnown (a b : Truth) : Prop := a = some false ∧ b = none ∨ a = none ∧ b = some false

theorem strictAnd_of_halfKnown {a b : Truth} (half : HalfKnown a b) :
    strictAnd a b = none ∧ a.and b = some false := by
  rcases half with ⟨rfl, rfl⟩ | ⟨rfl, rfl⟩ <;> trivial

theorem strictAnd_of_not_halfKnown {a b : Truth} (even : ¬HalfKnown a b) :
    strictAnd a b = a.and b := by
  revert even
  rcases a with _ | _ | _ <;> rcases b with _ | _ | _ <;> simp [HalfKnown, strictAnd, and]

end Truth

def equals (v l : Literal) : Truth := (compare? v l).map Comparison.eq.holds

/-- What membership reads off a constant: only null leaves it open. -/
def told (v : Literal) : Literal → Truth
  | .null => none
  | l => some (compare? v l == some .eq)

theorem compare?_null (v : Literal) : compare? v .null = none := by
  cases v <;> rfl

theorem told_of_ne_null {v l : Literal} (constant : l ≠ .null) :
    told v l = some (compare? v l == some .eq) := by
  cases l <;> trivial

theorem isAmong_cons {v l : Literal} (constant : l ≠ .null) (ls : List Literal) :
    isAmong v (l :: ls) = if compare? v l == some .eq then some true else isAmong v ls := by
  cases l <;> trivial

theorem isAmong_eq_any (v : Literal) (ls : List Literal) :
    isAmong v ls = Truth.any (told v) ls := by
  induction ls with
  | nil => rfl
  | cons l ls ih =>
    rw [Truth.any_cons, ← ih]
    by_cases constant : l = .null
    · subst constant
      change (isAmong v ls).filter id = Truth.or none (isAmong v ls)
      rcases isAmong v ls with _ | _ | _ <;> rfl
    · rw [isAmong_cons constant, told_of_ne_null constant]
      cases compare? v l == some .eq <;> rcases isAmong v ls with _ | _ | _ <;> rfl

theorem equals_eq_true {v l : Literal} : equals v l = some true ↔ compare? v l = some .eq := by
  rcases order : compare? v l with _ | _ | _ | _ <;> simp [equals, order, Comparison.holds]

theorem equals_eq_none {v l : Literal} : equals v l = none ↔ compare? v l = none :=
  Option.map_eq_none_iff

theorem told_eq_true {v l : Literal} : told v l = some true ↔ compare? v l = some .eq := by
  by_cases constant : l = .null
  · subst constant
    simp [told, compare?_null]
  · simp [told_of_ne_null constant]

theorem told_eq_false {v l : Literal} :
    told v l = some false ↔ l ≠ .null ∧ compare? v l ≠ some .eq := by
  by_cases constant : l = .null
  · subst constant
    simp [told]
  · simp [told_of_ne_null constant, constant]

theorem told_of_equals {v l : Literal} (different : equals v l = some false) :
    told v l = some false := by
  refine told_eq_false.mpr ⟨?_, fun same => ?_⟩
  · rintro rfl
    rw [equals_eq_none.mpr (compare?_null v)] at different
    contradiction
  · rw [equals_eq_true.mpr same] at different
    contradiction

/-- No constant is null or equal to the value, and one of them is of a kind that does not
compare with it. -/
def Unlike (v : Literal) (ls : List Literal) : Prop :=
  (∀ l ∈ ls, l ≠ .null ∧ compare? v l ≠ some .eq) ∧ ∃ l ∈ ls, compare? v l = none

theorem isAmong_of_unlike {v : Literal} {ls : List Literal} (unlike : Unlike v ls) :
    isAmong v ls = some false ∧ Truth.any (equals v) ls = none := by
  obtain ⟨different, l, here, apart⟩ := unlike
  constructor
  · rw [isAmong_eq_any, Truth.any_eq_false]
    exact fun l here => told_eq_false.mpr (different l here)
  · exact Truth.any_eq_none ⟨l, here, equals_eq_none.mpr apart⟩
      fun l here same => (different l here).2 (equals_eq_true.mp same)

theorem isAmong_of_not_unlike {v : Literal} {ls : List Literal} (alike : ¬Unlike v ls) :
    isAmong v ls = Truth.any (equals v) ls := by
  rw [isAmong_eq_any, Truth.eq_iff, Truth.any_eq_true, Truth.any_eq_true, Truth.any_eq_false,
    Truth.any_eq_false]
  constructor
  · simp only [told_eq_true, equals_eq_true]
  · constructor
    · intro different l here
      have distinct (l : Literal) (here : l ∈ ls) := told_eq_false.mp (different l here)
      cases said : equals v l with
      | none => exact absurd ⟨distinct, l, here, equals_eq_none.mp said⟩ alike
      | some b =>
        cases b with
        | false => rfl
        | true => exact absurd (equals_eq_true.mp said) (distinct l here).2
    · exact fun different l here => told_of_equals (different l here)

namespace Expr

/-- `x = l OR x = l₁ OR … OR x = lₙ`. -/
def equalsOneOf (x : Operand) (l : Literal) (ls : List Literal) : Expr :=
  ls.foldl (fun e l => .or e (.compare x .eq (.literal l))) (.compare x .eq (.literal l))

/-- `x >= low AND x <= high`. -/
def inRange (x low high : Operand) : Expr := .and (.compare x .gtEq low) (.compare x .ltEq high)

def negatedIf (negated : Bool) (e : Expr) : Expr := if negated then .not e else e

variable {properties : Json.Members} {negated : Bool} {x low high : Operand}

theorem evaluate_negatedIf (e : Expr) :
    (e.negatedIf negated).evaluate properties = (e.evaluate properties).negateIf negated := by
  cases negated <;> rfl

theorem evaluate_foldl_or (c : α → Expr) (e : Expr) (xs : List α) :
    (xs.foldl (fun e x => .or e (c x)) e).evaluate properties =
      xs.foldl (fun t x => t.or ((c x).evaluate properties)) (e.evaluate properties) := by
  induction xs generalizing e with
  | nil => rfl
  | cons x xs ih => exact ih _

theorem evaluate_equals (l : Literal) :
    (Expr.compare x .eq (.literal l)).evaluate properties =
      (x.known? properties).bind fun v => equals v l := by
  rw [evaluate]
  cases x.known? properties with
  | none => rfl
  | some v =>
    by_cases constant : l = .null
    · subst constant
      exact (equals_eq_none.mpr (compare?_null v)).symm
    · have known : (Operand.literal l).known? properties = some l := by
        cases l <;> trivial
      rw [known]
      cases order : compare? v l <;> simp [equals, order]

theorem evaluate_equalsOneOf (l : Literal) (ls : List Literal) :
    (equalsOneOf x l ls).evaluate properties =
      (x.known? properties).bind fun v => Truth.any (equals v) (l :: ls) := by
  rw [equalsOneOf, evaluate_foldl_or, Truth.foldl_or]
  simp only [evaluate_equals]
  cases x.known? properties with
  | none =>
    -- an unknown value leaves every equality open, and there is one
    change Truth.any (fun _ => none) (l :: ls) = none
    exact Truth.any_eq_none ⟨l, List.mem_cons_self, rfl⟩ fun _ _ => nofun
  | some v => rfl

theorem evaluate_among (ls : List Literal) : (Expr.among x ls negated).evaluate properties =
    Truth.negateIf negated ((x.known? properties).bind fun v => isAmong v ls) := by
  rw [evaluate]
  cases x.known? properties with
  | none => exact (Truth.negateIf_none negated).symm
  | some v => rfl

/-- A range test is known only where both of its comparisons are. -/
theorem evaluate_between : (Expr.between x low high negated).evaluate properties =
    (Truth.strictAnd ((Expr.compare x .gtEq low).evaluate properties)
      ((Expr.compare x .ltEq high).evaluate properties)).negateIf negated := by
  have unknown := (Truth.negateIf_none negated).symm
  rw [evaluate, evaluate, evaluate]
  cases x.known? properties with
  | none => exact unknown
  | some v =>
    cases low.known? properties with
    | none => exact unknown
    | some lo =>
      simp only [Option.bind_eq_bind, Option.bind_some]
      cases compare? v lo with
      | none => cases high.known? properties <;> exact unknown
      | some above =>
        cases high.known? properties with
        | none => exact unknown
        | some hi =>
          simp only [Option.bind_some]
          cases compare? v hi with
          | none => exact unknown
          | some below => rfl

/-- Membership agrees with the disjunction of equalities unless the value equals no constant,
none of these is null and one of them does not compare with it: then membership is false and
the disjunction unknown. A range test agrees with the conjunction of its comparisons unless
one of these is false and the other one unknown: then the range test is unknown and the
conjunction false. -/
theorem evaluate_expansion (properties : Json.Members) (negated : Bool) :
    (∀ (x : Operand) (l : Literal) (ls : List Literal),
      let membership := (Expr.among x (l :: ls) negated).evaluate properties
      let expansion := ((equalsOneOf x l ls).negatedIf negated).evaluate properties
      let unlike := ∃ v, x.known? properties = some v ∧ Unlike v (l :: ls)
      ¬unlike ∧ membership = expansion ∨
        unlike ∧ membership = some negated ∧ expansion = none) ∧
    ∀ x low high : Operand,
      let test := (Expr.between x low high negated).evaluate properties
      let expansion := ((inRange x low high).negatedIf negated).evaluate properties
      let half := Truth.HalfKnown ((Expr.compare x .gtEq low).evaluate properties)
        ((Expr.compare x .ltEq high).evaluate properties)
      ¬half ∧ test = expansion ∨ half ∧ test = none ∧ expansion = some negated := by
  constructor
  · intro x l ls
    simp only [evaluate_negatedIf, evaluate_equalsOneOf, evaluate_among]
    cases x.known? properties with
    | none => exact Or.inl ⟨nofun, rfl⟩
    | some v =>
      by_cases unlike : Unlike v (l :: ls)
      · obtain ⟨excluded, undecided⟩ := isAmong_of_unlike unlike
        refine Or.inr ⟨⟨v, rfl, unlike⟩, ?_, ?_⟩
        · rw [Option.bind_some, excluded, Truth.negateIf_false]
        · rw [Option.bind_some, undecided, Truth.negateIf_none]
      · refine Or.inl ⟨?_, ?_⟩
        · rintro ⟨w, known, found⟩
          obtain rfl := Option.some.inj known
          exact unlike found
        · rw [Option.bind_some, Option.bind_some, isAmong_of_not_unlike unlike]
  · intro x low high
    have conjunction : (inRange x low high).evaluate properties =
        ((Expr.compare x .gtEq low).evaluate properties).and
          ((Expr.compare x .ltEq high).evaluate properties) := rfl
    simp only [evaluate_negatedIf, evaluate_between, conjunction]
    by_cases half : Truth.HalfKnown ((Expr.compare x .gtEq low).evaluate properties)
        ((Expr.compare x .ltEq high).evaluate properties)
    · obtain ⟨undecided, excluded⟩ := Truth.strictAnd_of_halfKnown half
      refine Or.inr ⟨half, ?_, ?_⟩
      · rw [undecided, Truth.negateIf_none]
      · rw [excluded, Truth.negateIf_false]
    · exact Or.inl ⟨half, by rw [Truth.strictAnd_of_not_halfKnown half]⟩

/-- Five is not between ten and null, whatever null stands for, and the range test leaves that
open. Whether five differs from a word is open, and membership takes it to do so. -/
theorem expansion_of_five :
    let properties : Json.Members := [("a", .number (.whole 5))]
    let ten : Operand := .literal (.number 10)
    let null : Operand := .literal .null
    ((Expr.between (.field "a") ten null true).evaluate properties = none ∧
      ((inRange (.field "a") ten null).negatedIf true).evaluate properties = some true) ∧
    (Expr.among (.field "a") [.text "many"] true).evaluate properties = some true ∧
      ((equalsOneOf (.field "a") (.text "many") []).negatedIf true).evaluate properties = none := by
  decide +kernel

end Expr

end Geospatial.Where
