import Geospatial.Number.Notation
import Geospatial.Text

/-! Tokens of attribute conditions, and the faults of their texts. A fault carries what
was found and the byte offset where it was found. -/
namespace Geospatial.Where

inductive Keyword where
  | and | or | not | is | null | among | like | between | true | false
  deriving DecidableEq

namespace Keyword

def all : List Keyword := [.and, .or, .not, .is, .null, .among, .like, .between, .true, .false]

def spelling : Keyword → String
  | .and => "AND"
  | .or => "OR"
  | .not => "NOT"
  | .is => "IS"
  | .null => "NULL"
  | .among => "IN"
  | .like => "LIKE"
  | .between => "BETWEEN"
  | .true => "TRUE"
  | .false => "FALSE"

/-- Keywords are recognized in any case. -/
def ofWord? (word : String) : Option Keyword :=
  all.find? fun k => k.spelling == Text.asciiUpper word

end Keyword

inductive Comparison where
  | eq | notEq | lt | ltEq | gt | gtEq
  deriving DecidableEq

def Comparison.name : Comparison → String
  | eq => "Eq"
  | notEq => "NotEq"
  | lt => "Lt"
  | ltEq => "LtEq"
  | gt => "Gt"
  | gtEq => "GtEq"

def Comparison.spelling : Comparison → String
  | .eq => "="
  | .notEq => "!="
  | .lt => "<"
  | .ltEq => "<="
  | .gt => ">"
  | .gtEq => ">="

inductive Mark where
  | opening | closing | comma | minus
  deriving DecidableEq

def Mark.spelling : Mark → String
  | .opening => "("
  | .closing => ")"
  | .comma => ","
  | .minus => "-"

inductive Token where
  | identifier (name : String)
  | text (s : String)
  | number (x : Float)
  | compare (c : Comparison)
  | mark (m : Mark)
  | keyword (k : Keyword)
  deriving BEq

/-- How a token is named in a fault. -/
def Token.describe : Token → String
  | .identifier name => s!"identifier '{name}'"
  | .text s => s!"string '{s}'"
  | .number x => s!"number {Number.plain x}"
  | .compare c => s!"'{c.spelling}'"
  | .mark m => s!"'{m.spelling}'"
  | .keyword k => k.spelling

/-- Why a text is not a condition. `none` stands for the end of the text. -/
inductive Defect where
  | bangWithoutEquals
  | unterminatedQuote
  | invalidNumber (raw : String)
  | unexpectedCharacter (c : Char)
  | emptyExpression
  | unexpected (t : Token)
  | expected (want : Token) (found : Option Token)
  | expectedComparison (found : Option Token)
  | expectedValue (found : Option Token)
  | expectedNumber
  | expectedPattern
  | nestedTooDeeply

structure Fault where
  defect : Defect
  offset : Nat

def describeFound : Option Token → String
  | none => "end of input"
  | some t => t.describe

def Defect.message : Defect → String
  | .bangWithoutEquals => "expected '=' after '!'"
  | .unterminatedQuote => "unterminated quote"
  | .invalidNumber raw => s!"invalid number '{raw}'"
  | .unexpectedCharacter c => s!"unexpected character '{c}'"
  | .emptyExpression => "empty expression"
  | .unexpected t => s!"unexpected {t.describe}"
  | .expected want found => s!"expected {want.describe}, found {describeFound found}"
  | .expectedComparison found => s!"expected a comparison, found {describeFound found}"
  | .expectedValue found => s!"expected a value, found {describeFound found}"
  | .expectedNumber => "expected a number after '-'"
  | .expectedPattern => "LIKE needs a quoted pattern"
  | .nestedTooDeeply => "expression nested too deeply"

def Fault.message (f : Fault) : String := s!"WHERE clause: {f.defect.message} at offset {f.offset}"

end Geospatial.Where
