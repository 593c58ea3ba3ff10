import Geospatial.Where.Lexer
import Geospatial.Where.Truth

/-! Reading a condition by recursive descent. OR binds weaker than AND, AND weaker than
NOT, and both join to the left; the AND after BETWEEN belongs to it. Every operand needs
a comparison, IS NULL, IN, LIKE or BETWEEN after it. At most `nestingLimit` parentheses
and NOTs may be open at once. -/
namespace Geospatial.Where

def nestingLimit : Nat := 64

/-- Offset of the next token, or `stop` behind the last one. -/
def offsetOf (stop : Nat) : List Placed → Nat
  | [] => stop
  | (_, o) :: _ => o

def nextToken? : List Placed → Option Token
  | [] => none
  | (t, _) :: _ => some t

def failAt (stop : Nat) (ts : List Placed) (d : Defect) : Except Fault α :=
  .error ⟨d, offsetOf stop ts⟩

/-- Takes one given token. -/
def expect (stop : Nat) (want : Token) : List Placed → Except Fault (Unit × List Placed)
  | (t, o) :: r => if t == want then .ok ((), r) else .error ⟨.expected want (some t), o⟩
  | [] => .error ⟨.expected want none, stop⟩

def readLiteral (stop : Nat) : List Placed → Except Fault (Literal × List Placed)
  | (.text s, _) :: r => .ok (.text s, r)
  | (.number x, _) :: r => .ok (.number x, r)
  | (.mark .minus, _) :: (.number x, _) :: r => .ok (.number (-x), r)
  | (.mark .minus, o) :: _ => .error ⟨.expectedNumber, o⟩
  | (.keyword .true, _) :: r => .ok (.bool true, r)
  | (.keyword .false, _) :: r => .ok (.bool false, r)
  | (.keyword .null, _) :: r => .ok (.null, r)
  | (t, o) :: _ => .error ⟨.expectedValue (some t), o⟩
  | [] => .error ⟨.expectedValue none, stop⟩

def readOperand (stop : Nat) : List Placed → Except Fault (Operand × List Placed)
  | (.identifier name, _) :: r => .ok (.field name, r)
  | ts => (readLiteral stop ts).map fun (l, r) => (.literal l, r)

/-- Constants after commas, up to the closing parenthesis. -/
def readMoreLiterals (stop : Nat) (ts : List Placed) : Nat → Except Fault (List Literal × List Placed)
  | 0 => failAt stop ts (.expectedValue (nextToken? ts))
  | fuel + 1 =>
    match ts with
    | (.mark .comma, _) :: r => do
      let (l, r) ← readLiteral stop r
      let (ls, r) ← readMoreLiterals stop r fuel
      .ok (l :: ls, r)
    | ts => do
      let (_, r) ← expect stop (.mark .closing) ts
      .ok ([], r)

def readLiterals (stop : Nat) (ts : List Placed) : Except Fault (List Literal × List Placed) := do
  let (_, r) ← expect stop (.mark .opening) ts
  let (l, r) ← readLiteral stop r
  let (ls, r) ← readMoreLiterals stop r (r.length + 1)
  .ok (l :: ls, r)

def readPattern (stop : Nat) : List Placed → Except Fault (String × List Placed)
  | (.text p, _) :: r => .ok (p, r)
  | ts => failAt stop ts .expectedPattern

/-- What follows an operand and a possible NOT that stands at `start`. -/
def readNegatable (stop start : Nat) (operand : Operand) (negated : Bool) :
    List Placed → Except Fault (Expr × List Placed)
  | (.keyword .among, _) :: r => do
    let (values, r) ← readLiterals stop r
    .ok (.among operand values negated, r)
  | (.keyword .like, _) :: r => do
    let (pattern, r) ← readPattern stop r
    .ok (.like operand pattern negated, r)
  | (.keyword .between, _) :: r => do
    let (low, r) ← readOperand stop r
    let (_, r) ← expect stop (.keyword .and) r
    let (high, r) ← readOperand stop r
    .ok (.between operand low high negated, r)
  | ts => .error ⟨.expectedComparison (nextToken? ts), start⟩

/-- The test that has to follow an operand. -/
def readTail (stop : Nat) (operand : Operand) : List Placed → Except Fault (Expr × List Placed)
  | (.compare op, _) :: r => do
    let (right, r) ← readOperand stop r
    .ok (.compare operand op right, r)
  | (.keyword .is, _) :: (.keyword .not, _) :: r => do
    let (_, r) ← expect stop (.keyword .null) r
    .ok (.isNull operand true, r)
  | (.keyword .is, _) :: r => do
    let (_, r) ← expect stop (.keyword .null) r
    .ok (.isNull operand false, r)
  | (.keyword .not, o) :: r => readNegatable stop o operand true r
  | ts => readNegatable stop (offsetOf stop ts) operand false ts

mutual

/-- A disjunction below `depth` open parentheses and NOTs. -/
def readOr (stop depth : Nat) (ts : List Placed) : Nat → Except Fault (Expr × List Placed)
  | 0 => failAt stop ts .nestedTooDeeply
  | fuel + 1 => do
    let (left, r) ← readAnd stop depth ts fuel
    readOrs stop depth left r fuel
termination_by structural n => n

/-- Further alternatives, joined to the left. -/
def readOrs (stop depth : Nat) (left : Expr) (ts : List Placed) :
    Nat → Except Fault (Expr × List Placed)
  | 0 => failAt stop ts .nestedTooDeeply
  | fuel + 1 =>
    match ts with
    | (.keyword .or, _) :: r => do
      let (right, r) ← readAnd stop depth r fuel
      readOrs stop depth (.or left right) r fuel
    | ts => .ok (left, ts)
termination_by structural n => n

def readAnd (stop depth : Nat) (ts : List Placed) : Nat → Except Fault (Expr × List Placed)
  | 0 => failAt stop ts .nestedTooDeeply
  | fuel + 1 => do
    let (left, r) ← readNot stop depth ts fuel
    readAnds stop depth left r fuel
termination_by structural n => n

/-- Further conjuncts, joined to the left. -/
def readAnds (stop depth : Nat) (left : Expr) (ts : List Placed) :
    Nat → Except Fault (Expr × List Placed)
  | 0 => failAt stop ts .nestedTooDeeply
  | fuel + 1 =>
    match ts with
    | (.keyword .and, _) :: r => do
      let (right, r) ← readNot stop depth r fuel
      readAnds stop depth (.and left right) r fuel
    | ts => .ok (left, ts)
termination_by structural n => n

def readNot (stop depth : Nat) (ts : List Placed) : Nat → Except Fault (Expr × List Placed)
  | 0 => failAt stop ts .nestedTooDeeply
  | fuel + 1 =>
    match ts with
    | (.keyword .not, _) :: r =>
      if nestingLimit ≤ depth then failAt stop r .nestedTooDeeply
      else do
        let (inner, r) ← readNot stop (depth + 1) r fuel
        .ok (.not inner, r)
    | (.mark .opening, _) :: r =>
      if nestingLimit ≤ depth then failAt stop r .nestedTooDeeply
      else do
        let (inner, r) ← readOr stop (depth + 1) r fuel
        let (_, r) ← expect stop (.mark .closing) r
        .ok (inner, r)
    | ts => do
      let (operand, r) ← readOperand stop ts
      readTail stop operand r
termination_by structural n => n

end

/-- Reads all tokens of a text of `stop` bytes as one condition. -/
def parseTokens (stop : Nat) (ts : List Placed) : Except Fault Expr :=
  if ts.isEmpty then .error ⟨.emptyExpression, 0⟩
  else do
    let (e, r) ← readOr stop 0 ts (4 * ts.length + 4)
    match r with
    | [] => .ok e
    | (t, o) :: _ => .error ⟨.unexpected t, o⟩

def parse (s : String) : Except Fault Expr := do parseTokens s.utf8ByteSize (← tokens s)

end Geospatial.Where
