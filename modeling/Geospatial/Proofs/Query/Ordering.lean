import Geospatial.Query
import Geospatial.Proofs.Outcome
import Geospatial.Proofs.Order
import Geospatial.Proofs.Scalar.DoubleUnits
import Mathlib.Data.List.Forall2

/-! The order of an answer. The terms of a query compare any two features, whatever kinds of values
they hold, as a total preorder; the answer is the stable arrangement of the matches in that order,
with what lacks a value last, and a limit cuts it off. -/
namespace Geospatial.Query

/-- One value comes before another: numbers, texts, truth values and at last arrays and objects
follow each other, and values of one of the first three kinds are in their own order. -/
inductive Less : Json.Value → Json.Value → Prop where
  | kind {v w : Json.Value} : rank (some v) < rank (some w) → Less v w
  | number {m n : Json.Number} : Double.units m.toDouble < Double.units n.toDouble →
      Less (.number m) (.number n)
  | text {s t : String} : s < t → Less (.string s) (.string t)
  | bool : Less (.bool false) (.bool true)

theorem less_number_iff {m n : Json.Number} (hm : m.toDouble ≤ m.toDouble)
    (hn : n.toDouble ≤ n.toDouble) : Less (.number m) (.number n) ↔ m.toDouble < n.toDouble := by
  rw [← Double.units_lt_iff hm hn]
  constructor
  · intro less
    cases less with
    | kind below => exact absurd below (Nat.lt_irrefl 0)
    | number below => exact below
  · exact .number

/-- A value that is there and not null. -/
def given? : Option Json.Value → Option Json.Value
  | some .null => none
  | v => v

theorem given?_of_isNull {a : Option Json.Value} (missing : isNull a = true) : given? a = none := by
  rcases a with _ | (_ | _ | _ | _ | _ | _) <;> first | rfl | contradiction

theorem given?_of_not_isNull {a : Option Json.Value} (here : isNull a = false) :
    ∃ v, a = some v ∧ given? a = some v := by
  rcases a with _ | (_ | _ | _ | _ | _ | _) <;> first | exact ⟨_, rfl, rfl⟩ | contradiction

/-- What is compared within a rank; values of another kind count as one. -/
def numberKey : Option Json.Value → Int
  | some (.number n) => Double.units n.toDouble
  | _ => 0

def textKey : Option Json.Value → String
  | some (.string s) => s
  | _ => ""

def boolKey : Option Json.Value → Bool
  | some (.bool b) => b
  | _ => false

theorem compareValues_eq_compareLex : compareValues =
    compareLex (compareOn rank) (compareLex (compareOn numberKey)
      (compareLex (compareOn textKey) (compareOn boolKey))) := by
  funext a b
  rcases a with _ | (_ | _ | _ | _ | _ | _) <;> rcases b with _ | (_ | _ | _ | _ | _ | _) <;>
    simp [compareValues, compareLex, compareOn, rank, numberKey, textKey, boolKey,
      Std.ReflCmp.compare_self]
  all_goals rfl

instance : Std.TransCmp compareValues := by
  rw [compareValues_eq_compareLex]
  infer_instance

theorem compareValues_eq_lt {v w : Json.Value} :
    compareValues (some v) (some w) = .lt ↔ Less v w := by
  constructor
  · intro less
    cases v <;> cases w
    case number.number m n => exact .number (Std.compare_eq_lt.mp less)
    case string.string s t => exact .text (compareOfLessAndEq_eq_lt.mp less)
    case bool.bool b c =>
      cases b <;> cases c
      case false.true => exact .bool
      all_goals contradiction
    all_goals exact .kind (Std.compare_eq_lt.mp less)
  · intro less
    cases less with
    | kind below =>
      rw [compareValues_eq_compareLex]
      exact Ordering.then_eq_lt.mpr (.inl (Std.compare_eq_lt.mpr below))
    | number below => exact Std.compare_eq_lt.mpr below
    | text below => exact compareOfLessAndEq_eq_lt.mpr below
    | bool => rfl

/-- Null comes last, and equals what is missing. -/
theorem compareValues_isNull {a b : Option Json.Value} (missing : (isNull a || isNull b) = true) :
    compareValues a b = compare (isNull a) (isNull b) := by
  rcases a with _ | (_ | _ | _ | _ | _ | _) <;> rcases b with _ | (_ | _ | _ | _ | _ | _) <;>
    first
    | rfl
    | contradiction

namespace OrderTerm

variable {K : Type}

/-- A piece of a clause that writes a term: a property, alone or before a direction in any case. -/
inductive Written : String → OrderTerm → Prop where
  | plain {s field : String} : Text.words s = [field] → Written s ⟨field, false⟩
  | ascending {s field direction : String} : Text.words s = [field, direction] →
      Text.asciiLower direction = "asc" → Written s ⟨field, false⟩
  | descending {s field direction : String} : Text.words s = [field, direction] →
      Text.asciiLower direction = "desc" → Written s ⟨field, true⟩

theorem ofText_eq_ok {s : String} {t : OrderTerm} :
    (ofText s : Outcome K OrderTerm) = .ok t ↔ Written s t := by
  constructor
  · intro read
    unfold ofText at read
    split at read
    · rename_i field words
      obtain rfl := Except.ok.inj read
      exact .plain words
    · rename_i field direction words
      split at read
      · rename_i ascending
        obtain rfl := Except.ok.inj read
        exact .ascending words (by simpa using ascending)
      · split at read
        · rename_i descending
          obtain rfl := Except.ok.inj read
          exact .descending words (by simpa using descending)
        · contradiction
    · contradiction
  · intro written
    cases written with
    | plain words => simp [ofText, words]
    | ascending words direction => simp [ofText, words, direction]
    | descending words direction => simp [ofText, words, direction]

/-- What has a value comes before what has none, and of two values the lesser one comes first, or
the greater one if the term says so. -/
inductive Before (t : OrderTerm) : Option Json.Value → Option Json.Value → Prop where
  | given {v : Json.Value} : Before t (some v) none
  | ascending {v w : Json.Value} : t.descending = false → Less v w → Before t (some v) (some w)
  | descending {v w : Json.Value} : t.descending = true → Less w v → Before t (some v) (some w)

variable {t : OrderTerm} {a b : Option Json.Value}

/-- What is missing stays last where the order of the values is turned. -/
theorem compareValues_isNull (missing : (isNull a || isNull b) = true) :
    t.compareValues a b = Ord.compare (isNull a) (isNull b) := by
  rw [compareValues, missing, Query.compareValues_isNull missing, Bool.not_true, Bool.and_false]
  rfl

theorem compareValues_some {v w : Json.Value}
    (here : (isNull (some v) || isNull (some w)) = false) :
    t.compareValues (some v) (some w) =
      if t.descending then Query.compareValues (some w) (some v)
      else Query.compareValues (some v) (some w) := by
  have turned : Query.compareValues (some w) (some v) =
      (Query.compareValues (some v) (some w)).swap := Std.OrientedCmp.eq_swap
  rw [compareValues, here, Bool.not_false, Bool.and_true, turned]

theorem compareValues_eq_lt : t.compareValues a b = .lt ↔ t.Before (given? a) (given? b) := by
  cases ha : isNull a with
  | true =>
    rw [compareValues_isNull (by simp [ha]), ha, given?_of_isNull ha]
    constructor
    · cases isNull b <;> exact nofun
    · exact nofun
  | false =>
    obtain ⟨v, rfl, value⟩ := given?_of_not_isNull ha
    rw [value]
    cases hb : isNull b with
    | true =>
      rw [compareValues_isNull (by simp [hb]), ha, hb, given?_of_isNull hb]
      exact ⟨fun _ => .given, fun _ => rfl⟩
    | false =>
      obtain ⟨w, rfl, value'⟩ := given?_of_not_isNull hb
      rw [value', compareValues_some (by simp [ha, hb])]
      cases direction : t.descending with
      | false =>
        rw [if_neg nofun, Query.compareValues_eq_lt]
        refine ⟨.ascending direction, fun before => ?_⟩
        cases before with
        | ascending _ less => exact less
        | descending turned _ =>
          rw [direction] at turned
          contradiction
      | true =>
        rw [if_pos rfl, Query.compareValues_eq_lt]
        refine ⟨.descending direction, fun before => ?_⟩
        cases before with
        | ascending kept _ =>
          rw [direction] at kept
          contradiction
        | descending _ less => exact less

theorem compareValues_descending (descending : t.descending = true) :
    t.compareValues = compareLex (compareOn isNull) fun a b => Query.compareValues b a := by
  funext a b
  unfold compareLex compareOn
  cases missing : isNull a || isNull b with
  | true =>
    have turned : (isNull b || isNull a) = true := by rwa [Bool.or_comm]
    rw [compareValues_isNull missing]
    simp only [Query.compareValues_isNull turned]
    cases isNull a <;> cases isNull b <;> rfl
  | false =>
    obtain ⟨ha, hb⟩ := Bool.or_eq_false_iff.mp missing
    obtain ⟨v, rfl, _⟩ := given?_of_not_isNull ha
    obtain ⟨w, rfl, _⟩ := given?_of_not_isNull hb
    rw [compareValues_some missing, if_pos descending, ha, hb]
    rfl

theorem compareValues_ascending (ascending : t.descending = false) :
    t.compareValues = Query.compareValues := by
  funext a b
  rw [compareValues, ascending]
  rfl

instance (t : OrderTerm) : Std.TransCmp t.compareValues := by
  cases direction : t.descending with
  | false =>
    rw [compareValues_ascending direction]
    infer_instance
  | true =>
    rw [compareValues_descending direction]
    infer_instance

/-- What a feature has for a term, unless that is null. -/
def value? (t : OrderTerm) (f : Feature K) : Option Json.Value := given? (f.property? t.field)

/-- The order of two features by one term. -/
def order (t : OrderTerm) (f g : Feature K) : Ordering :=
  t.compareValues (f.property? t.field) (g.property? t.field)

instance (t : OrderTerm) : Std.TransCmp (t.order (K := K)) where
  eq_swap {_ _} := @Std.OrientedCmp.eq_swap _ t.compareValues _ _ _
  isLE_trans {_ _ _} := @Std.TransCmp.isLE_trans _ t.compareValues _ _ _ _

/-- By the term alone, the first feature comes before the second. -/
def Ahead (t : OrderTerm) (f g : Feature K) : Prop := t.Before (t.value? f) (t.value? g)

/-- The term does not tell the features apart. -/
def Level (t : OrderTerm) (f g : Feature K) : Prop := ¬t.Ahead f g ∧ ¬t.Ahead g f

theorem order_eq_lt {f g : Feature K} : t.order f g = .lt ↔ t.Ahead f g := compareValues_eq_lt

theorem order_eq_gt {f g : Feature K} : t.order f g = .gt ↔ t.Ahead g f := by
  rw [← order_eq_lt]
  exact Std.OrientedCmp.gt_iff_lt

theorem order_eq_eq {f g : Feature K} : t.order f g = .eq ↔ t.Level f g := by
  rw [Level, ← order_eq_lt, ← order_eq_gt]
  cases t.order f g <;> simp

end OrderTerm

variable {K : Type}

theorem orderTerms_eq_ok {text : String} {ts : List OrderTerm} :
    (orderTerms text : Outcome K (List OrderTerm)) = .ok ts ↔
      List.Forall₂ OrderTerm.Written (Text.splitAt ',' text) ts := by
  rw [orderTerms, mapM_eq_ok]
  simp only [OrderTerm.ofText_eq_ok]

/-- The first term that tells two features apart puts the first one before the second. -/
inductive Precedes : List OrderTerm → Feature K → Feature K → Prop where
  | first {t : OrderTerm} {ts : List OrderTerm} {f g : Feature K} :
      t.Ahead f g → Precedes (t :: ts) f g
  | next {t : OrderTerm} {ts : List OrderTerm} {f g : Feature K} :
      t.Level f g → Precedes ts f g → Precedes (t :: ts) f g

theorem precedes_of_ahead {us : List OrderTerm} {t : OrderTerm} (vs : List OrderTerm)
    {f g : Feature K} (level : ∀ u ∈ us, u.Level f g) (ahead : t.Ahead f g) :
    Precedes (us ++ t :: vs) f g := by
  induction us with
  | nil => exact .first ahead
  | cons u us ih =>
    obtain ⟨here, there⟩ := List.forall_mem_cons.mp level
    exact .next here (ih there)

theorem compareFeatures_cons (t : OrderTerm) (ts : List OrderTerm) :
    compareFeatures (K := K) (t :: ts) = compareLex t.order (compareFeatures ts) := rfl

instance (ts : List OrderTerm) : Std.TransCmp (compareFeatures (K := K) ts) := by
  induction ts with
  | nil => exact { eq_swap := rfl, isLE_trans := fun _ _ => rfl }
  | cons t ts ih =>
    rw [compareFeatures_cons]
    infer_instance

theorem compareFeatures_eq_lt {ts : List OrderTerm} {f g : Feature K} :
    compareFeatures ts f g = .lt ↔ Precedes ts f g := by
  induction ts with
  | nil => exact ⟨nofun, nofun⟩
  | cons t ts ih =>
    rw [compareFeatures_cons, compareLex, Ordering.then_eq_lt, ih, OrderTerm.order_eq_lt,
      OrderTerm.order_eq_eq]
    constructor
    · rintro (ahead | ⟨level, later⟩)
      · exact .first ahead
      · exact .next level later
    · intro precedes
      cases precedes with
      | first ahead => exact .inl ahead
      | next level later => exact .inr ⟨level, later⟩

/-- Features that lack a value for a term come behind those that have one, among features that the
terms before it do not tell apart. -/
theorem missing_last {us vs : List OrderTerm} {t : OrderTerm} {fs : List (Feature K)}
    (ascending : fs.Pairwise fun f g => (compareFeatures (us ++ t :: vs) f g).isLE) :
    fs.Pairwise fun f g =>
      (∀ u ∈ us, u.Level f g) → t.value? f = none → t.value? g = none := by
  refine ascending.imp fun {f g} notAfter level missing => ?_
  cases value : t.value? g with
  | none => rfl
  | some v =>
    have ahead : t.Ahead g f := by
      rw [OrderTerm.Ahead, missing, value]
      exact .given
    have before := precedes_of_ahead vs (fun u here => (level u here).symm) ahead
    rw [← compareFeatures_eq_lt, ← Std.OrientedCmp.gt_iff_lt] at before
    rw [before] at notAfter
    contradiction

variable [Scalar K]

/-- The features that pass both filters, in the order in which they were looked at. -/
def matching (q : Query K) (condition : Option Where.Expr) (features : List (Feature K))
    (index : Option (Index K (Slot K))) : List (Feature K) :=
  (q.candidates features index).filter fun f =>
    q.admits f && condition.all fun e => e.holds f.properties

theorem execute_eq_ok {q : Query K} {e : Option Where.Expr} {ts : List OrderTerm}
    (condition : q.condition.mapM parseCondition = (.ok e : Outcome K _))
    (terms : q.orderBy.mapM orderTerms = (.ok (some ts) : Outcome K _))
    (meaningful : q.relation.isSome = true → q.geometry.isSome = true)
    (features : List (Feature K)) (index : Option (Index K (Slot K))) :
    q.execute features index =
      let ordered := Order.sort (compareFeatures ts) (q.matching e features index)
      .ok ((q.limit.elim ordered ordered.take).map q.record) := by
  have asked : (q.geometry.isNone && q.relation.isSome) = false := by
    cases related : q.relation.isSome with
    | false => exact Bool.and_false _
    | true => simpa using meaningful related
  unfold execute
  rw [condition, terms]
  simp only [asked, bind, Except.bind, matching]
  cases q.limit <;> rfl

/-- The terms of a query order any features as a total preorder, term by term, with numbers in the
order of their doubles. The answer is the one stable arrangement of the matches in that order, in
which what lacks a value for a term comes last, whatever its direction. A limit keeps the records
from the front. -/
theorem execute_ordered {q : Query K} {text : String} {ts : List OrderTerm} {e : Option Where.Expr}
    (clause : q.orderBy = some text)
    (written : List.Forall₂ OrderTerm.Written (Text.splitAt ',' text) ts)
    (condition : q.condition.mapM parseCondition = (.ok e : Outcome K _))
    (meaningful : q.relation.isSome = true → q.geometry.isSome = true)
    (features : List (Feature K)) (index : Option (Index K (Slot K))) :
    Std.TransCmp (compareFeatures (K := K) ts) ∧
    (∀ f g : Feature K, compareFeatures ts f g = .lt ↔ Precedes ts f g) ∧
    (∀ m n : Json.Number, m.toDouble ≤ m.toDouble → n.toDouble ≤ n.toDouble →
      (Less (.number m) (.number n) ↔ m.toDouble < n.toDouble)) ∧
    ∃ ordered : List (Feature K),
      (∀ fs, Order.StablySorted (compareFeatures ts) (q.matching e features index) fs ↔
        fs = ordered) ∧
      (∀ us t vs, ts = us ++ t :: vs → ordered.Pairwise fun f g =>
        (∀ u ∈ us, u.Level f g) → t.value? f = none → t.value? g = none) ∧
      execute { q with limit := none } features index = .ok (ordered.map q.record) ∧
      ∀ n, execute { q with limit := some n } features index =
        .ok ((ordered.map q.record).take n) := by
  have terms : q.orderBy.mapM orderTerms = (.ok (some ts) : Outcome K _) := by
    rw [clause, Option.mapM_some, orderTerms_eq_ok.mpr written]
    rfl
  refine ⟨inferInstance, fun f g => compareFeatures_eq_lt, fun m n => less_number_iff,
    Order.sort (compareFeatures ts) (q.matching e features index), ?_, ?_, ?_, ?_⟩
  · exact fun fs => Order.stablySorted_iff
  · rintro us t vs rfl
    exact missing_last (Order.sort_pairwise _ _)
  · exact execute_eq_ok (q := { q with limit := none }) condition terms meaningful features index
  · intro n
    rw [execute_eq_ok (q := { q with limit := some n }) condition terms meaningful features index,
      ← List.map_take]
    rfl

/-- Values of two kinds in descending order, with two level numbers, null, and a missing value that
a second term puts before null. -/
theorem execute_ordered_mixed :
    let value (i : Int64) (v : Json.Value) : Feature Float :=
      { id := some (.number i), geometry := .collection [], properties := [("v", v)] }
    let missing : Feature Float :=
      { id := some (.number 5), geometry := .collection [], properties := [("s", .string "a")] }
    let features := [value 1 (.whole 1), value 2 (.string "x"), value 3 .null,
      value 4 (.double 2.5), missing, value 6 (.double 1)]
    let q : Query Float := { orderBy := some "v DESC, s" }
    let ts : List OrderTerm := [⟨"v", true⟩, ⟨"s", false⟩]
    ∃ ordered : List (Feature Float),
      Order.StablySorted (compareFeatures ts) (q.matching none features none) ordered ∧
      execute { q with limit := some 3 } features none = .ok ((ordered.map q.record).take 3) ∧
      q.execute features none = .ok (ordered.map q.record) ∧
      (q.execute features none).toOption.map (·.map (·.id)) =
        some ([2, 4, 1, 6, 5, 3].map fun i => some (.number i)) := by
  intro value missing features q ts
  have pieces : Text.splitAt ',' "v DESC, s" = ["v DESC", " s"] := by decide +kernel
  have first : Text.words "v DESC" = ["v", "DESC"] := by decide +kernel
  have second : Text.words " s" = ["s"] := by decide +kernel
  have written : List.Forall₂ OrderTerm.Written (Text.splitAt ',' "v DESC, s") ts := by
    rw [pieces]
    exact .cons (.descending first (by decide +kernel)) (.cons (.plain second) .nil)
  obtain ⟨-, -, -, ordered, sorted, -, all, cut⟩ :=
    execute_ordered (q := q) rfl written rfl nofun features none
  exact ⟨ordered, (sorted ordered).mpr rfl, cut 3, all, by decide +kernel⟩

end Geospatial.Query
