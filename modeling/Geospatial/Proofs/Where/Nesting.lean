import Geospatial.Proofs.Where.Parser
import Geospatial.Proofs.Where.Spelling

/-! How deep the trees of conditions are. The limit on open parentheses and NOTs bounds a tree as
long as a chain of ORs, or of ANDs, counts as one level. The chains themselves have no bound: each
of their links is a level of the tree, so that the height grows with the text. -/
namespace Geospatial.Where

namespace Expr

/-- The number of evaluations that are under way at once when the condition is evaluated. -/
def height : Expr → Nat
  | .or a b | .and a b => max a.height b.height + 1
  | .not e => e.height + 1
  | .compare .. | .isNull .. | .among .. | .like .. | .between .. => 1

def isOr : Expr → Bool
  | .or .. => true
  | _ => false

def isAnd : Expr → Bool
  | .and .. => true
  | _ => false

/-- The height when a chain of ORs, or of ANDs, that is joined to the left counts as one level. -/
def levels : Expr → Nat
  | .or a b => max (if a.isOr then a.levels else a.levels + 1) (b.levels + 1)
  | .and a b => max (if a.isAnd then a.levels else a.levels + 1) (b.levels + 1)
  | .not e => e.levels + 1
  | .compare .. | .isNull .. | .among .. | .like .. | .between .. => 1

end Expr

/-- The ANDs and ORs among some tokens, those of BETWEEN included. -/
def connectives (ks : List Token) : Nat :=
  ks.countP fun k => k == .keyword .or || k == .keyword .and

@[simp] theorem connectives_append (ks ls : List Token) :
    connectives (ks ++ ls) = connectives ks + connectives ls := List.countP_append

@[simp] theorem connectives_or (ks : List Token) :
    connectives (.keyword .or :: ks) = connectives ks + 1 :=
  List.countP_cons_of_pos (by simp [(beq_keyword _ _).mpr])

@[simp] theorem connectives_and (ks : List Token) :
    connectives (.keyword .and :: ks) = connectives ks + 1 :=
  List.countP_cons_of_pos (by simp [(beq_keyword _ _).mpr])

theorem connectives_cons_le (k : Token) (ks : List Token) :
    connectives ks ≤ connectives (k :: ks) :=
  (List.sublist_cons_self k ks).countP_le

/-- What follows an operand has no parts that are conditions. -/
theorem IsTail.single {o : Operand} {ks : List Token} {e : Expr} (tail : IsTail o ks e) :
    e.levels = 1 ∧ e.height = 1 := by
  cases tail with
  | plain phrase | negated phrase => cases phrase <;> exact ⟨rfl, rfl⟩
  | _ => exact ⟨rfl, rfl⟩

/-- The bound on the levels of a phrase in which `n` parentheses and NOTs may be open. A chain has
one level more than what it joins. -/
def Level.WithinLevels (n : Nat) (e : Expr) : Level → Prop
  | .or => e.levels ≤ 2 * n + 3 ∧ (e.isOr = false → e.levels ≤ 2 * n + 2)
  | .and => e.levels ≤ 2 * n + 2 ∧ (e.isAnd = false → e.levels ≤ 2 * n + 1)
  | .not | .predicate => e.levels ≤ 2 * n + 1

/-- By induction on the derivation: a parenthesis adds the levels of two chains, a NOT one level. -/
theorem Derives.withinLevels {level : Level} {n : Nat} {ks : List Token} {e : Expr}
    (derived : Derives level n ks e) : level.WithinLevels n e := by
  induction derived with
  | conjunction _ ih => exact ⟨Nat.le_succ_of_le ih.1, fun _ => ih.1⟩
  | @or n ts left us right _ _ ihLeft ihRight =>
    refine ⟨?_, nofun⟩
    obtain ⟨chain, link⟩ := ihLeft
    have last := ihRight.1
    rw [Expr.levels]
    cases joined : left.isOr with
    | true => simp; omega
    | false =>
      have first := link joined
      simp; omega
  | inversion _ ih => exact ⟨Nat.le_succ_of_le ih, fun _ => ih⟩
  | @and n ts left us right _ _ ihLeft ihRight =>
    refine ⟨?_, nofun⟩
    obtain ⟨chain, link⟩ := ihLeft
    have last : right.levels ≤ 2 * n + 1 := ihRight
    rw [Expr.levels]
    cases joined : left.isAnd with
    | true => simp; omega
    | false =>
      have first := link joined
      simp; omega
  | predicate _ ih => exact ih
  | @not n ts e _ ih =>
    have inner : e.levels ≤ 2 * n + 1 := ih
    change e.levels + 1 ≤ 2 * (n + 1) + 1
    omega
  | group _ ih => exact ih.1
  | @test ts o us e n _ tail =>
    have leaf := tail.single.1
    change e.levels ≤ 2 * n + 1
    omega

/-- Every level that is no NOT comes from a connective. -/
theorem Derives.height_le {level : Level} {n : Nat} {ks : List Token} {e : Expr}
    (derived : Derives level n ks e) : e.height ≤ n + 1 + connectives ks := by
  induction derived with
  | conjunction _ ih | inversion _ ih | predicate _ ih => exact ih
  | or _ _ ihLeft ihRight | and _ _ ihLeft ihRight =>
    simp only [Expr.height, connectives_append, connectives_or, connectives_and]
    omega
  | @not n ts e _ ih =>
    have grown := connectives_cons_le (.keyword .not) ts
    simp only [Expr.height]
    omega
  | @group n ts e _ ih =>
    have grown := connectives_cons_le (.mark .opening) (ts ++ [.mark .closing])
    simp only [connectives_append] at grown
    omega
  | test _ tail =>
    have leaf := tail.single.2
    omega

theorem parse_eq_ok {s : String} {e : Expr} : parse s = .ok e ↔
    ∃ ts, tokens s = .ok ts ∧ Derives .or nestingLimit (kinds ts) e := by
  simp only [parse, bind_eq_ok, parseTokens_eq_ok]

/-- The text `"a" IS NULL` by its tokens. -/
def nullTest : List (Token × String) :=
  [(.identifier "a", quotedWith '"' "a"), (.keyword .is, "IS"), (.keyword .null, "NULL")]

/-- The same test over and over with ORs between. -/
def nullTests : Nat → List (Token × String)
  | 0 => nullTest
  | n + 1 => nullTests n ++ (.keyword .or, "OR") :: nullTest

def nullTestsTree : Nat → Expr
  | 0 => .isNull (.field "a") false
  | n + 1 => .or (nullTestsTree n) (.isNull (.field "a") false)

theorem nullTests_spelled (n : Nat) : ∀ e ∈ nullTests n, e.1.Spelled e.2 := by
  have test : ∀ e ∈ nullTest, e.1.Spelled e.2 :=
    List.forall_mem_cons.mpr ⟨.identifier "a", List.forall_mem_cons.mpr
      ⟨.keyword (by decide), List.forall_mem_singleton.mpr (.keyword (by decide))⟩⟩
  induction n with
  | zero => exact test
  | succ n ih =>
    have link : ∀ e ∈ (Token.keyword .or, "OR") :: nullTest, e.1.Spelled e.2 :=
      List.forall_mem_cons.mpr ⟨.keyword (by decide), test⟩
    intro e member
    exact (List.mem_append.mp member).elim (ih e) (link e)

theorem kinds_placed (before : String) (written : List (Token × String)) :
    kinds (placed before written) = written.map (·.1) := by
  induction written generalizing before with
  | nil => rfl
  | cons e rest ih => rw [placed, kinds_cons, ih, List.map_cons]

theorem derives_nullTest (n : Nat) :
    Derives .and n (nullTest.map (·.1)) (.isNull (.field "a") false) :=
  .inversion (.predicate (.test .field .isNull))

theorem derives_nullTests (limit n : Nat) :
    Derives .or limit ((nullTests n).map (·.1)) (nullTestsTree n) := by
  induction n with
  | zero => exact .conjunction (derives_nullTest limit)
  | succ n ih =>
    rw [nullTests, List.map_append]
    exact .or ih (derives_nullTest limit)

theorem parse_nullTests (n : Nat) : parse (spaced (nullTests n)) = .ok (nullTestsTree n) := by
  apply parse_eq_ok.mpr
  refine ⟨_, tokensFrom_spelled (nullTests_spelled n) "" (Nat.le_refl _), ?_⟩
  rw [kinds_placed]
  exact derives_nullTests nestingLimit n

theorem height_nullTestsTree (n : Nat) : (nullTestsTree n).height = n + 1 := by
  induction n with
  | zero => rfl
  | succ n ih =>
    rw [nullTestsTree, Expr.height, ih, Expr.height]
    omega

/-- One bound holds for every condition that is read when a chain of ORs, or of ANDs, counts as one
level. The height exceeds the nesting limit by no more than the connectives of the text. -/
theorem parse_levels_le {s : String} {e : Expr} (read : parse s = .ok e) :
    e.levels ≤ 2 * nestingLimit + 3 ∧
      ∃ ts, tokens s = .ok ts ∧ e.height ≤ nestingLimit + 1 + connectives (kinds ts) := by
  obtain ⟨ts, split, derived⟩ := parse_eq_ok.mp read
  exact ⟨derived.withinLevels.1, ts, split, derived.height_le⟩

/-- Every OR of a chain is a level of the tree, and the chain is one. -/
theorem parse_levels_le_chain :
    spaced (nullTests 2) = "\"a\" IS NULL OR \"a\" IS NULL OR \"a\" IS NULL" ∧
      (nullTestsTree 2).height = 3 ∧ (nullTestsTree 2).levels = 2 ∧
      (nullTestsTree 2).levels ≤ 2 * nestingLimit + 3 ∧
      ∃ ts, tokens (spaced (nullTests 2)) = .ok ts ∧
        (nullTestsTree 2).height ≤ nestingLimit + 1 + connectives (kinds ts) :=
  ⟨by decide, rfl, rfl, parse_levels_le (parse_nullTests 2)⟩

/-- A long enough chain is higher than any bound. -/
theorem parse_height_unbounded :
    ¬∃ bound, ∀ s e, parse s = .ok e → e.height ≤ bound := by
  rintro ⟨bound, within⟩
  have low := within _ _ (parse_nullTests bound)
  rw [height_nullTestsTree] at low
  omega

end Geospatial.Where
