import Geospatial.Where.Token
import Geospatial.Number.Notation
import Geospatial.Text

/-! Splitting the text of a condition into tokens with their byte offsets. Single quotes
delimit texts and double quotes identifiers; a quote inside is written twice. A word is
a keyword in any case, otherwise an identifier. -/
namespace Geospatial.Where

/-- A token and the byte offset of its first character. -/
abbrev Placed := Token × Nat

def byteLength (cs : List Char) : Nat := cs.foldl (fun n c => n + c.utf8Size) 0

/-- The characters up to the closing quote, and the rest. -/
def readQuoted? (quote : Char) : List Char → Option (List Char × List Char)
  | [] => none
  | [c] => if c = quote then some ([], []) else none
  | c :: d :: r =>
    if c = quote then
      if d = quote then (readQuoted? quote r).map fun (text, rest) => (quote :: text, rest)
      else some ([], d :: r)
    else (readQuoted? quote (d :: r)).map fun (text, rest) => (c :: text, rest)

/-- Characters of a numeral; a sign belongs to it after an exponent mark only. -/
def spanNumeral (afterMark : Bool) : List Char → List Char × List Char
  | [] => ([], [])
  | c :: r =>
    if c.isDigit || c == '.' || c == 'e' || c == 'E' || ((c == '+' || c == '-') && afterMark) then
      let (raw, rest) := spanNumeral (c == 'e' || c == 'E') r
      (c :: raw, rest)
    else ([], c :: r)

def isWordStart (c : Char) : Bool := Text.isLetter c || c == '_'

def isWordRest (c : Char) : Bool := Text.isWordChar c || c == '_' || c == '.'

def tokenOfWord (word : String) : Token :=
  match Keyword.ofWord? word with
  | some k => .keyword k
  | none => .identifier word

/-- The token at the start of a text that does not start with a blank, and the rest. -/
def readToken (c : Char) (r : List Char) : Except Defect (Token × List Char) :=
  match c, r with
  | '(', r => .ok (.mark .opening, r)
  | ')', r => .ok (.mark .closing, r)
  | ',', r => .ok (.mark .comma, r)
  | '-', r => .ok (.mark .minus, r)
  | '=', r => .ok (.compare .eq, r)
  | '!', '=' :: r => .ok (.compare .notEq, r)
  | '!', _ => .error .bangWithoutEquals
  | '<', '=' :: r => .ok (.compare .ltEq, r)
  | '<', '>' :: r => .ok (.compare .notEq, r)
  | '<', r => .ok (.compare .lt, r)
  | '>', '=' :: r => .ok (.compare .gtEq, r)
  | '>', r => .ok (.compare .gt, r)
  | '\'', r =>
    match readQuoted? '\'' r with
    | some (text, rest) => .ok (.text (String.ofList text), rest)
    | none => .error .unterminatedQuote
  | '"', r =>
    match readQuoted? '"' r with
    | some (name, rest) => .ok (.identifier (String.ofList name), rest)
    | none => .error .unterminatedQuote
  | c, r =>
    if c.isDigit || c == '.' then
      let (raw, rest) := spanNumeral false (c :: r)
      match Number.doubleOfChars? raw with
      | some x => .ok (.number x, rest)
      | none => .error (.invalidNumber (String.ofList raw))
    else if isWordStart c then
      let (word, rest) := (c :: r).span isWordRest
      .ok (tokenOfWord (String.ofList word), rest)
    else .error (.unexpectedCharacter c)

/-- Tokens of a text that starts at a byte offset. -/
def tokensFrom (offset : Nat) (cs : List Char) : Nat → Except Fault (List Placed)
  | 0 => .ok []
  | fuel + 1 =>
    match cs with
    | [] => .ok []
    | c :: r =>
      if Text.isBlank c then tokensFrom (offset + c.utf8Size) r fuel
      else
        match readToken c r with
        | .error d => .error ⟨d, offset⟩
        | .ok (t, rest) => do
          let read := byteLength (c :: r) - byteLength rest
          let ts ← tokensFrom (offset + read) rest fuel
          .ok ((t, offset) :: ts)

/-- The tokens of a text. Every token takes a character at least. -/
def tokens (s : String) : Except Fault (List Placed) := tokensFrom 0 s.toList s.toList.length

end Geospatial.Where
