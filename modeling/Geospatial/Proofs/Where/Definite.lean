import Geospatial.Proofs.Where.Expansion

/-! What a definite answer rests on. The value of a condition without null tests is settled by the
truth values, numbers and texts among the properties: nothing that is put in the place of missing
data changes it. A missing property is nowhere told from null. -/
namespace Geospatial.Json.Members

theorem get?_cons (name key : String) (v : Value) (rest : Members) :
    get? ((name, v) :: rest) key = if name = key then some v else rest.get? key := by
  rw [get?, List.find?_cons]
  by_cases found : name = key
  · rw [if_pos found, beq_iff_eq.mpr found]
    rfl
  · rw [if_neg found, beq_eq_false_iff_ne.mpr found]
    rfl

end Geospatial.Json.Members

namespace Geospatial.Where

theorem Truth.and_eq (s t : Truth) : s.and t = (s.not.or t.not).not := by
  rcases s with _ | _ | _ <;> rcases t with _ | _ | _ <;> rfl

/-- What is known on the left is known on the right, and is the same. -/
def Settles (a b : Option α) : Prop := ∀ v, a = some v → b = some v

namespace Settles

theorem refl (a : Option α) : Settles a a := fun _ known => known

theorem bind {a b : Option α} {f g : α → Option β} (known : Settles a b)
    (next : ∀ v, Settles (f v) (g v)) : Settles (a.bind f) (b.bind g) := by
  intro w settled
  obtain ⟨v, here, settled⟩ := Option.bind_eq_some_iff.mp settled
  rw [known v here]
  exact next v w settled

variable {s s' t t' : Truth}

theorem or (left : Settles s s') (right : Settles t t') : Settles (s.or t) (s'.or t') := by
  intro v settled
  cases v with
  | true =>
    rw [Truth.or_eq_true] at settled ⊢
    exact settled.imp (left true) (right true)
  | false =>
    rw [Truth.or_eq_false] at settled ⊢
    exact settled.imp (left false) (right false)

theorem not (inner : Settles t t') : Settles t.not t'.not := by
  intro v settled
  obtain ⟨w, here, turned⟩ := Option.map_eq_some_iff.mp settled
  rw [Truth.not, inner w here]
  exact congrArg some turned

theorem and (left : Settles s s') (right : Settles t t') : Settles (s.and t) (s'.and t') := by
  rw [Truth.and_eq, Truth.and_eq]
  exact (left.not.or right.not).not

end Settles

/-- A truth value, a number or a text. -/
inductive IsScalar : Json.Value → Prop where
  | bool (b : Bool) : IsScalar (.bool b)
  | number (n : Json.Number) : IsScalar (.number n)
  | string (s : String) : IsScalar (.string s)

theorem isScalar_of_ofJson? {x : Json.Value} {l : Literal} (constant : Literal.ofJson? x = some l)
    (given : l ≠ .null) : IsScalar x := by
  cases x with
  | null => exact absurd (Option.some.inj constant).symm given
  | bool b => exact .bool b
  | number n => exact .number n
  | string s => exact .string s
  | array items => contradiction
  | object members => contradiction

/-- Every truth value, number and text on the left stands on the right as well. In place of anything
else, or of nothing, there may be anything. -/
def Agree (p q : Json.Members) : Prop :=
  ∀ key x, p.get? key = some x → IsScalar x → q.get? key = some x

namespace Operand

variable {p q : Json.Members} {o : Operand}

theorem known?_eq_some {l : Literal} :
    o.known? p = some l ↔ o.resolve p = some l ∧ l ≠ .null := by
  unfold known?
  rcases o.resolve p with _ | (_ | _ | _ | _) <;> cases l <;> simp

theorem resolve_field (name : String) :
    (Operand.field name).resolve p = Literal.ofJson? ((p.get? name).getD .null) := by
  rw [resolve]
  cases p.get? name <;> rfl

theorem settles_known? (agree : Agree p q) (o : Operand) : Settles (o.known? p) (o.known? q) := by
  intro l known
  obtain ⟨constant, given⟩ := known?_eq_some.mp known
  refine known?_eq_some.mpr ⟨?_, given⟩
  cases o with
  | literal => exact constant
  | field name =>
    rw [resolve_field] at constant ⊢
    cases here : p.get? name with
    | none =>
      rw [here] at constant
      exact absurd (Option.some.inj constant).symm given
    | some x =>
      rw [here] at constant
      rwa [agree name x here (isScalar_of_ofJson? constant given)]

end Operand

namespace Expr

/-- No part of the condition asks whether an operand is null. -/
def WithoutNullTest : Expr → Prop
  | .or a b | .and a b => a.WithoutNullTest ∧ b.WithoutNullTest
  | .not e => e.WithoutNullTest
  | .isNull _ _ => False
  | .compare _ _ _ | .among _ _ _ | .like _ _ _ | .between _ _ _ _ => True

/-- Whether a known value, written as a text, is like a pattern. -/
def likeValue (pattern : String) (negated : Bool) : Literal → Truth
  | .text s => some (matchesPattern s.toList pattern.toList != negated)
  | .number x => some (matchesPattern (Number.plain x).toList pattern.toList != negated)
  | _ => none

variable {p q : Json.Members}

theorem evaluate_like (o : Operand) (pattern : String) (negated : Bool) :
    (Expr.like o pattern negated).evaluate p = (o.known? p).bind (likeValue pattern negated) := by
  rw [evaluate, Operand.known?]
  rcases o.resolve p with _ | (_ | _ | _ | _) <;> rfl

theorem settles_evaluate (agree : Agree p q) (e : Expr) (plain : e.WithoutNullTest) :
    Settles (e.evaluate p) (e.evaluate q) := by
  have known := Operand.settles_known? agree
  induction e with
  | or a b iha ihb => exact (iha plain.1).or (ihb plain.2)
  | and a b iha ihb => exact (iha plain.1).and (ihb plain.2)
  | not e ih => exact (ih plain).not
  | isNull => exact plain.elim
  | compare left op right =>
    exact (known left).bind fun l => (known right).bind fun r => .refl _
  | among o values negated => exact (known o).bind fun v => .refl _
  | like o pattern negated =>
    rw [evaluate_like, evaluate_like]
    exact (known o).bind fun l => .refl _
  | between o low high negated =>
    exact (known o).bind fun v => (known low).bind fun lo => (known high).bind fun hi => .refl _

theorem evaluate_congr (same : ∀ o : Operand, o.resolve p = o.resolve q) (e : Expr) :
    e.evaluate p = e.evaluate q := by
  have known (o : Operand) : o.known? p = o.known? q := by
    rw [Operand.known?, Operand.known?, same]
  induction e with
  | or a b iha ihb => rw [evaluate, evaluate, iha, ihb]
  | and a b iha ihb => rw [evaluate, evaluate, iha, ihb]
  | not e ih => rw [evaluate, evaluate, ih]
  | isNull o negated => rw [evaluate, evaluate, same]
  | compare left op right => rw [evaluate, evaluate, known, known]
  | among o values negated => rw [evaluate, evaluate, known]
  | like o pattern negated => rw [evaluate, evaluate, same]
  | between o low high negated => rw [evaluate, evaluate, known, known, known]

/-- A definite value of a condition without null tests stays as it is when properties that are
missing, null, arrays or objects are replaced by anything else. The value of any condition stays as
it is when null is put for what is missing, or left out. -/
theorem evaluate_definite (e : Expr) (p q : Json.Members) :
    (e.WithoutNullTest → Agree p q → ∀ v, e.evaluate p = some v → e.evaluate q = some v) ∧
    ((∀ key, (p.get? key).getD .null = (q.get? key).getD .null) → e.evaluate p = e.evaluate q) := by
  constructor
  · intro plain agree
    exact settles_evaluate agree e plain
  · intro same
    apply evaluate_congr
    intro o
    cases o with
    | literal => rfl
    | field name => rw [Operand.resolve_field, Operand.resolve_field, same]

/-- One side of a disjunction is unknown as long as a name is missing, null or a list. The other
side is known, and decides the answer whatever the name is. -/
theorem evaluate_definite_unnamed :
    let e : Expr := .or (.compare (.field "size") .gt (.literal (.number 1)))
      (.among (.field "name") [.text "x", .null] true)
    let size : String × Json.Value := ("size", .number (.whole 2))
    let listed : Json.Members := [size, ("name", .array [])]
    (e.evaluate listed = some true ∧ e.evaluate [size, ("name", .string "x")] = some true) ∧
      e.evaluate [size] = e.evaluate [size, ("name", .null)] := by
  intro e size listed
  have plain : e.WithoutNullTest := ⟨trivial, trivial⟩
  have definite : e.evaluate listed = some true := by decide +kernel
  refine ⟨⟨definite, (evaluate_definite e listed _).1 plain ?_ _ definite⟩,
    (evaluate_definite e _ _).2 ?_⟩
  · intro key x here scalar
    rw [Json.Members.get?_cons] at here ⊢
    split at here
    · rw [if_pos ‹_›]
      exact here
    · rw [Json.Members.get?_cons] at here
      split at here
      · obtain rfl := Option.some.inj here
        cases scalar
      · contradiction
  · intro key
    simp only [size, Json.Members.get?_cons]
    split
    · rfl
    · split <;> rfl

/-- The test for null is definite on a missing property, and turns over when it is filled in. -/
example :
    let e : Expr := .isNull (.field "a") false
    e.evaluate [] = some true ∧ e.evaluate [("a", .bool true)] = some false := by
  decide +kernel

end Expr

end Geospatial.Where
