import Geospatial.Proofs.Where.Grammar
import Geospatial.Fault

/-! Reading a condition by recursive descent gives exactly the trees of the grammar. What was
read has a derivation, by induction on the rounds; and what has a derivation is read, by
induction on it. A phrase with connectives is read as far as they go, so what follows it must
not go on with one; `nestingLimit` less the depth is what a phrase may still open. -/
namespace Geospatial.Where

variable {stop : Nat}

/-- What the readers with so many rounds give has a derivation. The readers of further
phrases extend the derivation of what stands before them. -/
structure Sound (stop fuel : Nat) : Prop where
  or : ∀ {depth ts e r}, readOr stop depth ts fuel = .ok (e, r) →
    ∃ us, ts = us ++ r ∧ Derives .or (nestingLimit - depth) (kinds us) e
  ors : ∀ {depth left ts e r}, readOrs stop depth left ts fuel = .ok (e, r) →
    ∃ us, ts = us ++ r ∧ ∀ ks, Derives .or (nestingLimit - depth) ks left →
      Derives .or (nestingLimit - depth) (ks ++ kinds us) e
  and : ∀ {depth ts e r}, readAnd stop depth ts fuel = .ok (e, r) →
    ∃ us, ts = us ++ r ∧ Derives .and (nestingLimit - depth) (kinds us) e
  ands : ∀ {depth left ts e r}, readAnds stop depth left ts fuel = .ok (e, r) →
    ∃ us, ts = us ++ r ∧ ∀ ks, Derives .and (nestingLimit - depth) ks left →
      Derives .and (nestingLimit - depth) (ks ++ kinds us) e
  not : ∀ {depth ts e r}, readNot stop depth ts fuel = .ok (e, r) →
    ∃ us, ts = us ++ r ∧ Derives .not (nestingLimit - depth) (kinds us) e

/-- One opening symbol more leaves one less to open. -/
theorem nestingLimit_sub {depth : Nat} (within : ¬nestingLimit ≤ depth) :
    nestingLimit - depth = nestingLimit - (depth + 1) + 1 := by
  omega

theorem sound_zero : Sound stop 0 where
  or := nofun
  ors := nofun
  and := nofun
  ands := nofun
  not := nofun

theorem Sound.succ {fuel : Nat} (sound : Sound stop fuel) : Sound stop (fuel + 1) where
  or := by
    intro depth ts e r h
    obtain ⟨⟨left, r'⟩, first, more⟩ := bind_eq_ok.mp h
    obtain ⟨us, rfl, phrase⟩ := sound.and first
    obtain ⟨vs, rfl, further⟩ := sound.ors more
    refine ⟨us ++ vs, (List.append_assoc us vs r).symm, ?_⟩
    rw [kinds_append]
    exact further _ (.conjunction phrase)
  ors := by
    intro depth left ts e r h
    unfold readOrs at h
    split at h
    · rename_i o rest
      obtain ⟨⟨right, r'⟩, next, more⟩ := bind_eq_ok.mp h
      obtain ⟨us, rfl, phrase⟩ := sound.and next
      obtain ⟨vs, rfl, further⟩ := sound.ors more
      refine ⟨(.keyword .or, o) :: (us ++ vs), by simp, ?_⟩
      intro ks derived
      simpa using further _ (.or derived phrase)
    · cases h
      exact ⟨[], rfl, fun ks derived => by simpa using derived⟩
  and := by
    intro depth ts e r h
    obtain ⟨⟨left, r'⟩, first, more⟩ := bind_eq_ok.mp h
    obtain ⟨us, rfl, phrase⟩ := sound.not first
    obtain ⟨vs, rfl, further⟩ := sound.ands more
    refine ⟨us ++ vs, (List.append_assoc us vs r).symm, ?_⟩
    rw [kinds_append]
    exact further _ (.inversion phrase)
  ands := by
    intro depth left ts e r h
    unfold readAnds at h
    split at h
    · rename_i o rest
      obtain ⟨⟨right, r'⟩, next, more⟩ := bind_eq_ok.mp h
      obtain ⟨us, rfl, phrase⟩ := sound.not next
      obtain ⟨vs, rfl, further⟩ := sound.ands more
      refine ⟨(.keyword .and, o) :: (us ++ vs), by simp, ?_⟩
      intro ks derived
      simpa using further _ (.and derived phrase)
    · cases h
      exact ⟨[], rfl, fun ks derived => by simpa using derived⟩
  not := by
    intro depth ts e r h
    unfold readNot at h
    split at h
    · rename_i o rest
      split at h
      · contradiction
      · rename_i within
        obtain ⟨⟨inner, r'⟩, operand, h⟩ := bind_eq_ok.mp h
        cases h
        obtain ⟨us, rfl, phrase⟩ := sound.not operand
        refine ⟨(.keyword .not, o) :: us, rfl, ?_⟩
        rw [nestingLimit_sub within]
        exact .not phrase
    · rename_i o rest
      split at h
      · contradiction
      · rename_i within
        obtain ⟨⟨inner, r₁⟩, content, h⟩ := bind_eq_ok.mp h
        obtain ⟨⟨_, r₂⟩, closed, h⟩ := bind_eq_ok.mp h
        cases h
        obtain ⟨us, rfl, phrase⟩ := sound.or content
        obtain ⟨o', rfl⟩ := (expect_eq_ok (beq_mark · .closing)).mp closed
        refine ⟨(.mark .opening, o) :: (us ++ [(.mark .closing, o')]), by simp, ?_⟩
        rw [nestingLimit_sub within, kinds_cons, kinds_append]
        exact .predicate (.group phrase)
    · obtain ⟨⟨o, r'⟩, operand, rest⟩ := bind_eq_ok.mp h
      obtain ⟨us, rfl, subject⟩ := (readOperand_eq_ok _ _ _).mp operand
      obtain ⟨vs, rfl, tail⟩ := (readTail_eq_ok _ _ _).mp rest
      refine ⟨us ++ vs, (List.append_assoc us vs r).symm, ?_⟩
      rw [kinds_append]
      exact .predicate (.test subject tail)

theorem sound (stop fuel : Nat) : Sound stop fuel := by
  induction fuel with
  | zero => exact sound_zero
  | succ fuel ih => exact ih.succ

/-- With enough rounds a phrase is read up to its end: a phrase without connectives is read
whole, and after one with connectives the reader stands where it looks for further ones. -/
def Accepts (stop : Nat) (level : Level) (n : Nat) (ks : List Token) (e : Expr) : Prop :=
  ∀ depth us r fuel, n + depth ≤ nestingLimit → kinds us = ks →
    match level with
    | .or => 3 * ks.length + 3 ≤ fuel → nextToken? r ≠ some (.keyword .and) →
        ∃ rounds, fuel ≤ rounds + ks.length + 1 ∧
          readOr stop depth (us ++ r) fuel = readOrs stop depth e r rounds
    | .and => 3 * ks.length + 2 ≤ fuel →
        ∃ rounds, fuel ≤ rounds + ks.length + 1 ∧
          readAnd stop depth (us ++ r) fuel = readAnds stop depth e r rounds
    | .not | .predicate => 3 * ks.length + 1 ≤ fuel →
        readNot stop depth (us ++ r) fuel = .ok (e, r)

theorem readOrs_end {depth : Nat} {e : Expr} {r : List Placed} {fuel : Nat}
    (rounds : 0 < fuel) (ends : nextToken? r ≠ some (.keyword .or)) :
    readOrs stop depth e r fuel = .ok (e, r) := by
  obtain ⟨fuel, rfl⟩ := Nat.exists_eq_succ_of_ne_zero (Nat.ne_of_gt rounds)
  unfold readOrs
  split
  · exact absurd rfl ends
  · rfl

theorem readAnds_end {depth : Nat} {e : Expr} {r : List Placed} {fuel : Nat}
    (rounds : 0 < fuel) (ends : nextToken? r ≠ some (.keyword .and)) :
    readAnds stop depth e r fuel = .ok (e, r) := by
  obtain ⟨fuel, rfl⟩ := Nat.exists_eq_succ_of_ne_zero (Nat.ne_of_gt rounds)
  unfold readAnds
  split
  · exact absurd rfl ends
  · rfl

/-- An operand starts with a token that no other phrase starts with. -/
theorem readNot_of_isOperand {depth fuel : Nat} {us r : List Placed} {o : Operand}
    (phrase : IsOperand (kinds us) o) :
    readNot stop depth (us ++ r) (fuel + 1) =
      (readOperand stop (us ++ r) >>= fun x => readTail stop x.1 x.2) := by
  generalize same : kinds us = ks at phrase
  rcases phrase with _ | ⟨_ | _ | _ | _ | _ | _⟩ <;>
    obtain ⟨_, us, rfl, _⟩ := kinds_eq_cons.mp same <;> rfl

theorem IsOperand.ne_nil {ks : List Token} {o : Operand} (phrase : IsOperand ks o) : ks ≠ [] := by
  rcases phrase with _ | ⟨_ | _ | _ | _ | _ | _⟩ <;> exact List.cons_ne_nil _ _

theorem Derives.ne_nil {level : Level} {n : Nat} {ks : List Token} {e : Expr}
    (derived : Derives level n ks e) : ks ≠ [] := by
  induction derived with
  | test subject => simp [subject.ne_nil]
  | _ => simp_all

theorem Accepts.readAnd {n : Nat} {ks : List Token} {e : Expr} (accepts : Accepts stop .and n ks e)
    {depth : Nat} {us : List Placed} (r : List Placed) (fuel : Nat)
    (within : n + depth ≤ nestingLimit) (same : kinds us = ks)
    (enough : 3 * ks.length + 2 ≤ fuel) (ends : nextToken? r ≠ some (.keyword .and)) :
    Where.readAnd stop depth (us ++ r) fuel = .ok (e, r) := by
  obtain ⟨rounds, left, read⟩ := accepts _ _ r _ within same enough
  rw [read, readAnds_end (by omega) ends]

theorem Accepts.readOr {n : Nat} {ks : List Token} {e : Expr} (accepts : Accepts stop .or n ks e)
    {depth : Nat} {us : List Placed} (r : List Placed) (fuel : Nat)
    (within : n + depth ≤ nestingLimit) (same : kinds us = ks)
    (enough : 3 * ks.length + 3 ≤ fuel) (endsOr : nextToken? r ≠ some (.keyword .or))
    (endsAnd : nextToken? r ≠ some (.keyword .and)) :
    Where.readOr stop depth (us ++ r) fuel = .ok (e, r) := by
  obtain ⟨rounds, left, read⟩ := accepts _ _ _ _ within same enough endsAnd
  rw [read, readOrs_end (by omega) endsOr]

theorem accepts (stop : Nat) {level : Level} {n : Nat} {ks : List Token} {e : Expr}
    (derived : Derives level n ks e) : Accepts stop level n ks e := by
  induction derived with
  | conjunction _ ih =>
    intro depth us r fuel within same enough ends
    obtain ⟨fuel, rfl⟩ : ∃ g, fuel = g + 1 := ⟨fuel - 1, by omega⟩
    have read := ih.readAnd r fuel within same (by omega) ends
    refine ⟨fuel, by omega, ?_⟩
    rw [readOr, read]
    rfl
  | or _ _ ihLeft ihRight =>
    intro depth us r fuel within same enough ends
    obtain ⟨us, vs, rfl, first, rest⟩ := kinds_eq_append.mp same
    obtain ⟨o, vs, rfl, second⟩ := kinds_eq_cons.mp rest
    simp only [List.length_append, List.length_cons] at enough
    -- The left phrase is read up to the OR, where the reader takes one more phrase.
    obtain ⟨rounds, left, read⟩ := ihLeft _ _ ((.keyword .or, o) :: (vs ++ r)) fuel
      within first (by omega) (by simp [nextToken?])
    obtain ⟨rounds, rfl⟩ : ∃ g, rounds = g + 1 := ⟨rounds - 1, by omega⟩
    have readRight := ihRight.readAnd r rounds within second (by omega) ends
    refine ⟨rounds, by simp only [List.length_append, List.length_cons]; omega, ?_⟩
    rw [List.append_assoc, List.cons_append, read, readOrs, readRight]
    rfl
  | inversion _ ih =>
    intro depth us r fuel within same enough
    obtain ⟨fuel, rfl⟩ : ∃ g, fuel = g + 1 := ⟨fuel - 1, by omega⟩
    have read := ih _ _ r fuel within same (by omega)
    refine ⟨fuel, by omega, ?_⟩
    rw [readAnd, read]
    rfl
  | and _ _ ihLeft ihRight =>
    intro depth us r fuel within same enough
    obtain ⟨us, vs, rfl, first, rest⟩ := kinds_eq_append.mp same
    obtain ⟨o, vs, rfl, second⟩ := kinds_eq_cons.mp rest
    simp only [List.length_append, List.length_cons] at enough
    obtain ⟨rounds, left, read⟩ := ihLeft _ _ ((.keyword .and, o) :: (vs ++ r)) fuel
      within first (by omega)
    obtain ⟨rounds, rfl⟩ : ∃ g, rounds = g + 1 := ⟨rounds - 1, by omega⟩
    have readRight := ihRight _ _ r rounds within second (by omega)
    refine ⟨rounds, by simp only [List.length_append, List.length_cons]; omega, ?_⟩
    rw [List.append_assoc, List.cons_append, read, readAnds, readRight]
    rfl
  | predicate _ ih =>
    intro depth us r fuel within same enough
    exact ih _ _ _ _ within same enough
  | not _ ih =>
    intro depth us r fuel within same enough
    obtain ⟨o, us, rfl, inner⟩ := kinds_eq_cons.mp same
    simp only [List.length_cons] at enough
    obtain ⟨fuel, rfl⟩ : ∃ g, fuel = g + 1 := ⟨fuel - 1, by omega⟩
    have read := ih (depth + 1) _ r fuel (by omega) inner (by omega)
    have shallow : ¬nestingLimit ≤ depth := by omega
    rw [List.cons_append, readNot, if_neg shallow, read]
    rfl
  | @group n ks e _ ih =>
    intro depth us r fuel within same enough
    -- Inside, one more parenthesis is open and one fewer may be opened.
    have deeper : n + (depth + 1) ≤ nestingLimit := by omega
    obtain ⟨o, us, rfl, rest⟩ := kinds_eq_cons.mp same
    obtain ⟨us, vs, rfl, inner, last⟩ := kinds_eq_append.mp rest
    obtain ⟨o', rfl⟩ := kinds_eq_singleton.mp last
    simp only [List.length_cons, List.length_append] at enough
    obtain ⟨fuel, rfl⟩ : ∃ g, fuel = g + 1 := ⟨fuel - 1, by omega⟩
    have read := ih.readOr ((.mark .closing, o') :: r) fuel deeper inner (by omega)
      (by simp [nextToken?]) (by simp [nextToken?])
    have shallow : ¬nestingLimit ≤ depth := by omega
    rw [List.cons_append, List.append_assoc, List.singleton_append, readNot, if_neg shallow, read]
    exact bind_eq_ok.mpr ⟨_, rfl,
      bind_eq_ok.mpr ⟨((), r), (expect_eq_ok (beq_mark · .closing)).mpr ⟨o', rfl⟩, rfl⟩⟩
  | test subject tail =>
    intro depth us r fuel within same enough
    obtain ⟨us, vs, rfl, rfl, rfl⟩ := kinds_eq_append.mp same
    obtain ⟨fuel, rfl⟩ : ∃ g, fuel = g + 1 := ⟨fuel - 1, by omega⟩
    rw [List.append_assoc, readNot_of_isOperand subject]
    exact bind_eq_ok.mpr ⟨_, (readOperand_eq_ok _ _ _).mpr ⟨us, rfl, subject⟩,
      (readTail_eq_ok _ _ _).mpr ⟨vs, rfl, tail⟩⟩

theorem parseTokens_eq_ok {ts : List Placed} {e : Expr} :
    parseTokens stop ts = .ok e ↔ Derives .or nestingLimit (kinds ts) e := by
  constructor
  · intro h
    unfold parseTokens at h
    split at h
    · contradiction
    · obtain ⟨⟨e', r⟩, read, rest⟩ := bind_eq_ok.mp h
      cases r with
      | nil =>
        cases rest
        obtain ⟨us, rfl, derived⟩ := (sound stop _).or read
        simpa using derived
      | cons => contradiction
  · intro derived
    have nonempty : ts ≠ [] := by
      rintro rfl
      exact derived.ne_nil rfl
    have read := (accepts stop derived).readOr [] (4 * ts.length + 4)
      (Nat.le_refl (nestingLimit + 0)) rfl (by rw [length_kinds]; omega) nofun nofun
    rw [List.append_nil] at read
    rw [parseTokens, if_neg (by simpa using nonempty), read]
    rfl

/-- Tokens are read as a condition exactly when the grammar derives one from them with at most
`nestingLimit` parentheses and NOTs open at once, and the tree of the derivation is what is
read. All other tokens are invalid input, wherever they stand in a text. -/
theorem parseTokens_reads_grammar (K : Type) (stop : Nat) (ts : List Placed) :
    (∀ e, parseTokens stop ts = .ok e ↔ Derives .or nestingLimit (kinds ts) e) ∧
      ((∃ e, Derives .or nestingLimit (kinds ts) e) ∨
        ∃ f, parseTokens stop ts = .error f ∧
          (Fault.input (.condition f) : Geospatial.Fault K).kind = .invalidInput) := by
  refine ⟨fun e => parseTokens_eq_ok, ?_⟩
  cases read : parseTokens stop ts with
  | ok e => exact Or.inl ⟨e, parseTokens_eq_ok.mp read⟩
  | error f => exact Or.inr ⟨f, rfl, rfl⟩

-- The first AND stands between the bounds, the second one joins the two tests.
example : parseTokens 0 [(.identifier "x", 0), (.keyword .between, 1), (.text "a", 2),
      (.keyword .and, 3), (.text "b", 4), (.keyword .and, 5), (.identifier "y", 6),
      (.keyword .is, 7), (.keyword .null, 8)] =
    .ok (.and (.between (.field "x") (.literal (.text "a")) (.literal (.text "b")) false)
      (.isNull (.field "y") false)) := rfl

end Geospatial.Where
