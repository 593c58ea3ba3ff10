import Geospatial.Proofs.Outcome
import Geospatial.Where.Parser

/-! The grammar of conditions, on tokens without their places. Its phrases below the
connectives are read without a look at what follows them, so each of those readers gives
exactly the phrases of its kind. -/
namespace Geospatial.Where

inductive IsLiteral : List Token → Literal → Prop
  | text : IsLiteral [.text s] (.text s)
  | number : IsLiteral [.number x] (.number x)
  | negative : IsLiteral [.mark .minus, .number x] (.number (-x))
  | true : IsLiteral [.keyword .true] (.bool true)
  | false : IsLiteral [.keyword .false] (.bool false)
  | null : IsLiteral [.keyword .null] .null

inductive IsOperand : List Token → Operand → Prop
  | field : IsOperand [.identifier name] (.field name)
  | literal : IsLiteral ts l → IsOperand ts (.literal l)

/-- One constant or more with commas between them. -/
inductive IsLiterals : List Token → List Literal → Prop
  | one : IsLiteral ts l → IsLiterals ts [l]
  | more : IsLiteral ts l → IsLiterals us ls → IsLiterals (ts ++ .mark .comma :: us) (l :: ls)

/-- A test that NOT may stand before. The AND of BETWEEN stands between its bounds. -/
inductive IsNegatable (o : Operand) (negated : Bool) : List Token → Expr → Prop
  | among : IsLiterals ts values →
      IsNegatable o negated (.keyword .among :: .mark .opening :: (ts ++ [.mark .closing]))
        (.among o values negated)
  | like : IsNegatable o negated [.keyword .like, .text pattern] (.like o pattern negated)
  | between : IsOperand ts low → IsOperand us high →
      IsNegatable o negated (.keyword .between :: (ts ++ .keyword .and :: us))
        (.between o low high negated)

/-- The test that follows an operand. -/
inductive IsTail (o : Operand) : List Token → Expr → Prop
  | compare : IsOperand ts right → IsTail o (.compare op :: ts) (.compare o op right)
  | isNull : IsTail o [.keyword .is, .keyword .null] (.isNull o false)
  | isNotNull : IsTail o [.keyword .is, .keyword .not, .keyword .null] (.isNull o true)
  | plain : IsNegatable o false ts e → IsTail o ts e
  | negated : IsNegatable o true ts e → IsTail o (.keyword .not :: ts) e

/-- How tightly a phrase binds, the loosest first. -/
inductive Level where
  | or | and | not | predicate

/-- Phrases of a level with their trees, in which at most the given number of parentheses and
NOTs are open at once. OR and AND join to the left. -/
inductive Derives : Level → Nat → List Token → Expr → Prop
  | conjunction : Derives .and n ts e → Derives .or n ts e
  | or : Derives .or n ts left → Derives .and n us right →
      Derives .or n (ts ++ .keyword .or :: us) (.or left right)
  | inversion : Derives .not n ts e → Derives .and n ts e
  | and : Derives .and n ts left → Derives .not n us right →
      Derives .and n (ts ++ .keyword .and :: us) (.and left right)
  | predicate : Derives .predicate n ts e → Derives .not n ts e
  | not : Derives .not n ts e → Derives .not (n + 1) (.keyword .not :: ts) (.not e)
  | group : Derives .or n ts e →
      Derives .predicate (n + 1) (.mark .opening :: (ts ++ [.mark .closing])) e
  | test : IsOperand ts o → IsTail o us e → Derives .predicate n (ts ++ us) e

def kinds (ts : List Placed) : List Token := ts.map Prod.fst

@[simp] theorem kinds_nil : kinds [] = [] := rfl

@[simp] theorem kinds_cons (t : Placed) (ts : List Placed) :
    kinds (t :: ts) = t.1 :: kinds ts := rfl

@[simp] theorem kinds_append (ts us : List Placed) : kinds (ts ++ us) = kinds ts ++ kinds us :=
  List.map_append

@[simp] theorem length_kinds (ts : List Placed) : (kinds ts).length = ts.length := List.length_map _

theorem kinds_eq_nil {ts : List Placed} : kinds ts = [] ↔ ts = [] := List.map_eq_nil_iff

theorem kinds_eq_cons {ts : List Placed} {k : Token} {ks : List Token} :
    kinds ts = k :: ks ↔ ∃ o us, ts = (k, o) :: us ∧ kinds us = ks := by
  constructor
  · intro h
    obtain ⟨⟨t, o⟩, us, rfl, rfl, rfl⟩ := List.map_eq_cons_iff.mp h
    exact ⟨o, us, rfl, rfl⟩
  · rintro ⟨o, us, rfl, rfl⟩
    rfl

theorem kinds_eq_singleton {ts : List Placed} {k : Token} :
    kinds ts = [k] ↔ ∃ o, ts = [(k, o)] := by
  simp [kinds_eq_cons, kinds_eq_nil]

theorem kinds_eq_append {ts : List Placed} {ks ls : List Token} :
    kinds ts = ks ++ ls ↔ ∃ us vs, ts = us ++ vs ∧ kinds us = ks ∧ kinds vs = ls :=
  List.map_eq_append_iff

/-- Reading gives exactly the values of the phrases at the front, with what follows them. -/
def Reads (read : List Placed → Except Fault (α × List Placed)) (phrase : List Token → α → Prop) :
    Prop :=
  ∀ ts x r, read ts = .ok (x, r) ↔ ∃ us, ts = us ++ r ∧ phrase (kinds us) x

variable {stop : Nat}

theorem beq_mark (t : Token) (m : Mark) : (t == .mark m) = true ↔ t = .mark m := by
  change instBEqToken.beq t (.mark m) = true ↔ _
  cases t <;> simp [instBEqToken.beq]

theorem beq_keyword (t : Token) (k : Keyword) : (t == .keyword k) = true ↔ t = .keyword k := by
  change instBEqToken.beq t (.keyword k) = true ↔ _
  cases t <;> simp [instBEqToken.beq]

theorem expect_eq_ok {want : Token} (lawful : ∀ t, (t == want) = true ↔ t = want)
    {ts r : List Placed} {x : Unit} :
    expect stop want ts = .ok (x, r) ↔ ∃ o, ts = (want, o) :: r := by
  constructor
  · intro h
    unfold expect at h
    split at h
    · rename_i t o rest
      split at h
      · rename_i same
        cases h
        exact ⟨o, by rw [(lawful t).mp same]⟩
      · contradiction
    · contradiction
  · rintro ⟨o, rfl⟩
    exact if_pos ((lawful want).mpr rfl)

theorem readLiteral_eq_ok : Reads (readLiteral stop) IsLiteral := by
  intro ts l r
  constructor
  · intro h
    unfold readLiteral at h
    split at h <;> cases h
    · exact ⟨[_], rfl, .text⟩
    · exact ⟨[_], rfl, .number⟩
    · exact ⟨[_, _], rfl, .negative⟩
    · exact ⟨[_], rfl, .true⟩
    · exact ⟨[_], rfl, .false⟩
    · exact ⟨[_], rfl, .null⟩
  · rintro ⟨us, rfl, phrase⟩
    generalize same : kinds us = ks at phrase
    cases phrase with
    | negative =>
      obtain ⟨_, _, rfl, rest⟩ := kinds_eq_cons.mp same
      obtain ⟨_, rfl⟩ := kinds_eq_singleton.mp rest
      rfl
    | _ =>
      obtain ⟨_, rfl⟩ := kinds_eq_singleton.mp same
      rfl

theorem readLiteral_length {ts r : List Placed} {l : Literal}
    (h : readLiteral stop ts = .ok (l, r)) : r.length < ts.length := by
  obtain ⟨us, rfl, phrase⟩ := (readLiteral_eq_ok _ _ _).mp h
  cases us with
  | nil => nomatch phrase
  | cons =>
    simp only [List.length_append, List.length_cons]
    omega

theorem readOperand_eq_ok : Reads (readOperand stop) IsOperand := by
  intro ts x r
  constructor
  · intro h
    unfold readOperand at h
    split at h
    · cases h
      exact ⟨[_], rfl, .field⟩
    · cases literal : readLiteral stop ts with
      | error f =>
        rw [literal] at h
        contradiction
      | ok found =>
        rw [literal] at h
        cases h
        obtain ⟨us, rfl, phrase⟩ := (readLiteral_eq_ok _ _ _).mp literal
        exact ⟨us, rfl, .literal phrase⟩
  · rintro ⟨us, rfl, phrase⟩
    generalize same : kinds us = ks at phrase
    rcases phrase with _ | ⟨_ | _ | _ | _ | _ | _⟩
    case literal.negative =>
      obtain ⟨_, _, rfl, rest⟩ := kinds_eq_cons.mp same
      obtain ⟨_, rfl⟩ := kinds_eq_singleton.mp rest
      rfl
    all_goals
      obtain ⟨_, rfl⟩ := kinds_eq_singleton.mp same
      rfl

theorem isLiterals_of_readMoreLiterals {fuel : Nat} {ts r : List Placed} {ls : List Literal}
    (h : readMoreLiterals stop ts fuel = .ok (ls, r)) {ks : List Token} {l : Literal}
    (first : IsLiteral ks l) :
    ∃ us o, ts = us ++ (.mark .closing, o) :: r ∧ IsLiterals (ks ++ kinds us) (l :: ls) := by
  induction fuel generalizing ts r ls ks l with
  | zero => contradiction
  | succ fuel ih =>
    unfold readMoreLiterals at h
    split at h
    · rename_i comma rest
      obtain ⟨⟨l', r'⟩, next, h⟩ := bind_eq_ok.mp h
      obtain ⟨⟨ls', r''⟩, more, h⟩ := bind_eq_ok.mp h
      cases h
      obtain ⟨vs, rfl, phrase⟩ := (readLiteral_eq_ok _ _ _).mp next
      obtain ⟨us, o, rfl, phrases⟩ := ih more phrase
      refine ⟨(.mark .comma, comma) :: (vs ++ us), o, by simp, ?_⟩
      rw [kinds_cons, kinds_append]
      exact .more first phrases
    · obtain ⟨⟨_, r'⟩, closed, h⟩ := bind_eq_ok.mp h
      cases h
      obtain ⟨o, rfl⟩ := (expect_eq_ok (beq_mark · .closing)).mp closed
      exact ⟨[], o, rfl, by simpa using IsLiterals.one first⟩

theorem readMoreLiterals_of_isLiterals (stop o : Nat) (r : List Placed) {ks : List Token}
    {values : List Literal} (phrase : IsLiterals ks values) {us : List Placed}
    (same : kinds us = ks) :
    ∃ l r', readLiteral stop (us ++ (.mark .closing, o) :: r) = .ok (l, r') ∧
      ∀ fuel, r'.length < fuel →
        ∃ ls, readMoreLiterals stop r' fuel = .ok (ls, r) ∧ values = l :: ls := by
  induction phrase generalizing us with
  | one phrase =>
    refine ⟨_, (.mark .closing, o) :: r, (readLiteral_eq_ok _ _ _).mpr ⟨us, rfl, same ▸ phrase⟩, ?_⟩
    intro fuel enough
    obtain ⟨fuel, rfl⟩ := Nat.exists_eq_succ_of_ne_zero (Nat.ne_zero_of_lt enough)
    exact ⟨[], rfl, rfl⟩
  | more first _ ih =>
    obtain ⟨vs, ws, rfl, rfl, tail⟩ := kinds_eq_append.mp same
    obtain ⟨o', ws, rfl, rest⟩ := kinds_eq_cons.mp tail
    obtain ⟨l, r', next, more⟩ := ih rest
    refine ⟨_, (.mark .comma, o') :: (ws ++ (.mark .closing, o) :: r),
      (readLiteral_eq_ok _ _ _).mpr ⟨vs, by simp, first⟩, ?_⟩
    intro fuel enough
    obtain ⟨fuel, rfl⟩ := Nat.exists_eq_succ_of_ne_zero (Nat.ne_zero_of_lt enough)
    have shorter := readLiteral_length next
    simp only [List.length_cons] at enough
    obtain ⟨ls, found, rfl⟩ := more fuel (by omega)
    exact ⟨l :: ls, bind_eq_ok.mpr ⟨_, next, bind_eq_ok.mpr ⟨_, found, rfl⟩⟩, rfl⟩

theorem readLiterals_eq_ok : Reads (readLiterals stop) fun ks values =>
    ∃ ls, ks = .mark .opening :: (ls ++ [.mark .closing]) ∧ IsLiterals ls values := by
  intro ts values r
  constructor
  · intro h
    obtain ⟨⟨_, r₁⟩, opened, h⟩ := bind_eq_ok.mp h
    obtain ⟨⟨l, r₂⟩, first, h⟩ := bind_eq_ok.mp h
    obtain ⟨⟨ls, r₃⟩, more, h⟩ := bind_eq_ok.mp h
    cases h
    obtain ⟨o, rfl⟩ := (expect_eq_ok (beq_mark · .opening)).mp opened
    obtain ⟨vs, rfl, phrase⟩ := (readLiteral_eq_ok _ _ _).mp first
    obtain ⟨ws, o', rfl, phrases⟩ := isLiterals_of_readMoreLiterals more phrase
    refine ⟨(.mark .opening, o) :: (vs ++ ws) ++ [(.mark .closing, o')], by simp, _, ?_, phrases⟩
    simp
  · rintro ⟨us, rfl, ks, same, phrase⟩
    obtain ⟨o, us, rfl, rest⟩ := kinds_eq_cons.mp same
    obtain ⟨us, vs, rfl, inner, last⟩ := kinds_eq_append.mp rest
    obtain ⟨o', rfl⟩ := kinds_eq_singleton.mp last
    obtain ⟨l, r', first, more⟩ := readMoreLiterals_of_isLiterals stop o' r phrase inner
    obtain ⟨ls, found, rfl⟩ := more _ (Nat.lt_succ_self _)
    rw [List.cons_append, List.append_assoc, List.singleton_append]
    exact bind_eq_ok.mpr ⟨((), _), (expect_eq_ok (beq_mark · .opening)).mpr ⟨o, rfl⟩,
      bind_eq_ok.mpr ⟨_, first, bind_eq_ok.mpr ⟨_, found, rfl⟩⟩⟩

theorem readNegatable_eq_ok {start : Nat} {o : Operand} {negated : Bool} :
    Reads (readNegatable stop start o negated) (IsNegatable o negated) := by
  intro ts e r
  constructor
  · intro h
    unfold readNegatable at h
    split at h
    · rename_i at' rest
      obtain ⟨⟨values, r'⟩, list, h⟩ := bind_eq_ok.mp h
      cases h
      obtain ⟨us, rfl, ls, same, phrase⟩ := (readLiterals_eq_ok _ _ _).mp list
      exact ⟨(_, at') :: us, rfl, by rw [kinds_cons, same]; exact .among phrase⟩
    · rename_i at' rest
      obtain ⟨⟨pattern, r'⟩, text, h⟩ := bind_eq_ok.mp h
      cases h
      unfold readPattern at text
      split at text
      · cases text
        exact ⟨[_, _], rfl, .like⟩
      · contradiction
    · rename_i at' rest
      obtain ⟨⟨low, r₁⟩, lower, h⟩ := bind_eq_ok.mp h
      obtain ⟨⟨_, r₂⟩, middle, h⟩ := bind_eq_ok.mp h
      obtain ⟨⟨high, r₃⟩, upper, h⟩ := bind_eq_ok.mp h
      cases h
      obtain ⟨us, rfl, low⟩ := (readOperand_eq_ok _ _ _).mp lower
      obtain ⟨o', rfl⟩ := (expect_eq_ok (beq_keyword · .and)).mp middle
      obtain ⟨vs, rfl, high⟩ := (readOperand_eq_ok _ _ _).mp upper
      refine ⟨(.keyword .between, at') :: (us ++ (.keyword .and, o') :: vs), by simp, ?_⟩
      rw [kinds_cons, kinds_append, kinds_cons]
      exact .between low high
    · contradiction
  · rintro ⟨us, rfl, phrase⟩
    generalize same : kinds us = ks at phrase
    cases phrase with
    | among phrase =>
      obtain ⟨o', us, rfl, rest⟩ := kinds_eq_cons.mp same
      exact bind_eq_ok.mpr ⟨_, (readLiterals_eq_ok _ _ _).mpr ⟨us, rfl, _, rest, phrase⟩, rfl⟩
    | like =>
      obtain ⟨_, us, rfl, rest⟩ := kinds_eq_cons.mp same
      obtain ⟨_, rfl⟩ := kinds_eq_singleton.mp rest
      rfl
    | between low high =>
      obtain ⟨_, us, rfl, rest⟩ := kinds_eq_cons.mp same
      obtain ⟨us, vs, rfl, rfl, rest'⟩ := kinds_eq_append.mp rest
      obtain ⟨o', vs, rfl, rfl⟩ := kinds_eq_cons.mp rest'
      rw [List.cons_append, List.append_assoc, List.cons_append]
      exact bind_eq_ok.mpr ⟨_, (readOperand_eq_ok _ _ _).mpr ⟨us, rfl, low⟩,
        bind_eq_ok.mpr ⟨((), _), (expect_eq_ok (beq_keyword · .and)).mpr ⟨o', rfl⟩,
          bind_eq_ok.mpr ⟨_, (readOperand_eq_ok _ _ _).mpr ⟨vs, rfl, high⟩, rfl⟩⟩⟩

theorem readTail_eq_ok {o : Operand} : Reads (readTail stop o) (IsTail o) := by
  intro ts e r
  constructor
  · intro h
    unfold readTail at h
    split at h
    · rename_i op at' rest
      obtain ⟨⟨right, r'⟩, operand, h⟩ := bind_eq_ok.mp h
      cases h
      obtain ⟨us, rfl, phrase⟩ := (readOperand_eq_ok _ _ _).mp operand
      exact ⟨(_, at') :: us, rfl, .compare phrase⟩
    · obtain ⟨⟨_, r'⟩, null, h⟩ := bind_eq_ok.mp h
      cases h
      obtain ⟨_, rfl⟩ := (expect_eq_ok (beq_keyword · .null)).mp null
      exact ⟨[_, _, _], rfl, .isNotNull⟩
    · obtain ⟨⟨_, r'⟩, null, h⟩ := bind_eq_ok.mp h
      cases h
      obtain ⟨_, rfl⟩ := (expect_eq_ok (beq_keyword · .null)).mp null
      exact ⟨[_, _], rfl, .isNull⟩
    · rename_i at' rest
      obtain ⟨us, rfl, phrase⟩ := (readNegatable_eq_ok _ _ _).mp h
      exact ⟨(_, at') :: us, rfl, .negated phrase⟩
    · obtain ⟨us, rfl, phrase⟩ := (readNegatable_eq_ok _ _ _).mp h
      exact ⟨us, rfl, .plain phrase⟩
  · rintro ⟨us, rfl, phrase⟩
    generalize same : kinds us = ks at phrase
    cases phrase with
    | compare phrase =>
      obtain ⟨_, us, rfl, rfl⟩ := kinds_eq_cons.mp same
      exact bind_eq_ok.mpr ⟨_, (readOperand_eq_ok _ _ _).mpr ⟨us, rfl, phrase⟩, rfl⟩
    | isNull =>
      obtain ⟨_, us, rfl, rest⟩ := kinds_eq_cons.mp same
      obtain ⟨_, rfl⟩ := kinds_eq_singleton.mp rest
      rfl
    | isNotNull =>
      obtain ⟨_, us, rfl, rest⟩ := kinds_eq_cons.mp same
      obtain ⟨_, us, rfl, rest'⟩ := kinds_eq_cons.mp rest
      obtain ⟨_, rfl⟩ := kinds_eq_singleton.mp rest'
      rfl
    | negated phrase =>
      obtain ⟨_, us, rfl, rfl⟩ := kinds_eq_cons.mp same
      exact (readNegatable_eq_ok _ _ _).mpr ⟨us, rfl, phrase⟩
    | plain phrase =>
      have unchanged : readTail stop o (us ++ r) =
          readNegatable stop (offsetOf stop (us ++ r)) o false (us ++ r) := by
        cases phrase <;>
          obtain ⟨_, us, rfl, _⟩ := kinds_eq_cons.mp same <;> rfl
      rw [unchanged]
      exact (readNegatable_eq_ok _ _ _).mpr ⟨us, rfl, same ▸ phrase⟩

end Geospatial.Where
