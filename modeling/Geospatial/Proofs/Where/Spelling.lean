import Geospatial.Where.Lexer
import Mathlib

/-! Tokens written out and read again. Each word is read as its token, and no further, wherever a
space or the end follows; so tokens written with single spaces between them are found again, each
one at the place where its word starts. -/
namespace Geospatial.Where

/-- Each quote is written twice. -/
def doubled (quote : Char) (cs : List Char) : List Char :=
  cs.flatMap fun c => if c = quote then [c, c] else [c]

def quotedWith (quote : Char) (s : String) : String :=
  String.ofList (quote :: (doubled quote s.toList ++ [quote]))

/-- The ways to write a token: names and texts in quotes, and keywords in any case. The numeral of a
number has no sign and reads back as the number. -/
inductive Token.Spelled : Token → String → Prop where
  | identifier (name : String) : Spelled (.identifier name) (quotedWith '"' name)
  | text (s : String) : Spelled (.text s) (quotedWith '\'' s)
  | number {x : Float} {c : Char} {cs : List Char} (unsigned : c.isDigit = true ∨ c = '.')
      (value : Number.doubleOfChars? (c :: cs) = some x) :
      Spelled (.number x) (String.ofList (c :: cs))
  | compare (c : Comparison) : Spelled (.compare c) c.spelling
  | unequal : Spelled (.compare .notEq) "<>"
  | mark (m : Mark) : Spelled (.mark m) m.spelling
  | keyword {k : Keyword} {word : String} (anyCase : Text.asciiUpper word = k.spelling) :
      Spelled (.keyword k) word

/-- The words with single spaces between them. -/
def spaced (written : List (Token × String)) : String := " ".intercalate (written.map (·.2))

/-- Each token at the number of bytes before it. A space follows each word. -/
def placed (before : String) : List (Token × String) → List Placed
  | [] => []
  | (t, word) :: rest => (t, before.utf8ByteSize) :: placed (before ++ word ++ " ") rest

/-- A space or the end. -/
def Parted (rest : List Char) : Prop := ∀ c ∈ rest.head?, c = ' '

/-- A word is read as a token, and no further, wherever a space or the end follows. -/
def ReadsAs (t : Token) (word : List Char) : Prop :=
  ∃ c r, word = c :: r ∧ Text.isBlank c = false ∧
    ∀ rest, Parted rest → readToken c (r ++ rest) = .ok (t, rest)

theorem byteLength_eq (cs : List Char) : byteLength cs = (String.ofList cs).utf8ByteSize := by
  have sum (n : Nat) : cs.foldl (fun n c => n + c.utf8Size) n = n + cs.utf8Encode.size := by
    induction cs generalizing n with
    | nil => simp
    | cons c cs ih =>
      rw [List.foldl_cons, ih, List.utf8Encode_cons, ByteArray.size_append,
        List.utf8Encode_singleton, List.size_toByteArray, String.length_utf8EncodeChar,
        Nat.add_assoc]
  rw [byteLength, sum, Nat.zero_add, String.utf8ByteSize, String.toByteArray_ofList]

theorem byteLength_append (cs ds : List Char) :
    byteLength (cs ++ ds) = byteLength cs + byteLength ds := by
  simp only [byteLength_eq, String.ofList_append, String.utf8ByteSize_append]

section Quotes

theorem readQuoted?_cons {quote c : Char} (other : c ≠ quote) (cs : List Char) :
    readQuoted? quote (c :: cs) =
      (readQuoted? quote cs).map fun (text, rest) => (c :: text, rest) := by
  cases cs with
  | nil => simp [readQuoted?, other]
  | cons d r => rw [readQuoted?, if_neg other]

theorem readQuoted?_doubled {quote : Char} {rest : List Char} (closed : rest.head? ≠ some quote)
    (cs : List Char) :
    readQuoted? quote (doubled quote cs ++ quote :: rest) = some (cs, rest) := by
  induction cs with
  | nil =>
    cases rest with
    | nil => simp [doubled, readQuoted?]
    | cons d r =>
      have other : d ≠ quote := fun same => closed (congrArg some same)
      simp [doubled, readQuoted?, other]
  | cons c cs ih =>
    rw [doubled, List.flatMap_cons, List.append_assoc, ← doubled]
    by_cases same : c = quote
    · subst same
      rw [if_pos rfl, List.cons_append, List.cons_append, List.nil_append, readQuoted?, if_pos rfl,
        if_pos rfl, ih]
      rfl
    · rw [if_neg same, List.cons_append, List.nil_append, readQuoted?_cons same, ih]
      rfl

theorem Parted.head?_ne {rest : List Char} (parted : Parted rest) {c : Char} (other : c ≠ ' ') :
    rest.head? ≠ some c :=
  fun here => other (parted c here)

variable (s : String)

theorem quotedWith_readsAs {quote : Char} {t : Token} (plain : Text.isBlank quote = false)
    (read : ∀ r rest, readQuoted? quote r = some (s.toList, rest) →
      readToken quote r = .ok (t, rest)) :
    ReadsAs t (quotedWith quote s).toList := by
  refine ⟨quote, _, String.toList_ofList, plain, fun rest parted => read _ _ ?_⟩
  rw [List.append_assoc]
  apply readQuoted?_doubled
  apply parted.head?_ne
  rintro rfl
  contradiction

theorem identifier_readsAs : ReadsAs (.identifier s) (quotedWith '"' s).toList := by
  apply quotedWith_readsAs s (by decide)
  intro r rest found
  simp only [readToken, found, String.ofList_toList]

theorem text_readsAs : ReadsAs (.text s) (quotedWith '\'' s).toList := by
  apply quotedWith_readsAs s (by decide)
  intro r rest found
  simp only [readToken, found, String.ofList_toList]

end Quotes

section Symbols

theorem Parted.cases {rest : List Char} (parted : Parted rest) :
    rest = [] ∨ ∃ r, rest = ' ' :: r := by
  cases rest with
  | nil => exact .inl rfl
  | cons c r => exact .inr ⟨r, by rw [parted c rfl]⟩

theorem mark_readsAs (m : Mark) : ReadsAs (.mark m) m.spelling.toList := by
  cases m <;> exact ⟨_, [], rfl, by decide, fun rest _ => rfl⟩

theorem compare_readsAs (c : Comparison) : ReadsAs (.compare c) c.spelling.toList := by
  cases c with
  | eq => exact ⟨_, [], rfl, by decide, fun rest _ => rfl⟩
  | notEq => exact ⟨_, ['='], rfl, by decide, fun rest _ => rfl⟩
  | ltEq => exact ⟨_, ['='], rfl, by decide, fun rest _ => rfl⟩
  | gtEq => exact ⟨_, ['='], rfl, by decide, fun rest _ => rfl⟩
  | lt =>
    refine ⟨_, [], rfl, by decide, fun rest parted => ?_⟩
    rcases parted.cases with rfl | ⟨r, rfl⟩ <;> rfl
  | gt =>
    refine ⟨_, [], rfl, by decide, fun rest parted => ?_⟩
    rcases parted.cases with rfl | ⟨r, rfl⟩ <;> rfl

theorem unequal_readsAs : ReadsAs (.compare .notEq) "<>".toList :=
  ⟨_, ['>'], rfl, by decide, fun _ _ => rfl⟩

end Symbols

/-- The characters that symbols, texts and names in quotes start with. -/
def symbolStarts : List Char := ['(', ')', ',', '-', '=', '!', '<', '>', '\'', '"']

theorem not_mem_symbolStarts {p : Char → Bool} (other : symbolStarts.any p = false) {c : Char}
    (start : p c = true) : c ∉ symbolStarts :=
  fun symbol => List.any_eq_false.mp other c symbol start

theorem readToken_unquoted {c : Char} (plain : c ∉ symbolStarts) (r : List Char) :
    readToken c r =
      if c.isDigit || c == '.' then
        let (raw, rest) := spanNumeral false (c :: r)
        match Number.doubleOfChars? raw with
        | some x => .ok (.number x, rest)
        | none => .error (.invalidNumber (String.ofList raw))
      else if isWordStart c then
        let (word, rest) := (c :: r).span isWordRest
        .ok (tokenOfWord (String.ofList word), rest)
      else .error (.unexpectedCharacter c) := by
  unfold readToken
  split <;> first | rfl | exact absurd plain (by decide)

theorem isBlank_eq_false {c : Char} (above : 32 < c.toNat) (below : c.toNat < 127) :
    Text.isBlank c = false := by
  simp only [Text.isBlank, Bool.or_eq_false_iff, Bool.and_eq_false_iff, decide_eq_false_iff_not,
    beq_eq_false_iff_ne]
  omega

theorem toNat_of_isDigit {c : Char} (digit : c.isDigit = true) : 48 ≤ c.toNat ∧ c.toNat ≤ 57 :=
  Char.isDigit_iff_toNat.mp digit

section Words

theorem toNat_of_isAlpha {c : Char} (letter : c.isAlpha = true) :
    65 ≤ c.toNat ∧ c.toNat ≤ 90 ∨ 97 ≤ c.toNat ∧ c.toNat ≤ 122 := by
  rcases (Bool.or_eq_true _ _).mp letter with upper | lower
  · exact .inl (of_decide_eq_true upper)
  · obtain ⟨above, below⟩ := (Bool.and_eq_true _ _).mp lower
    exact .inr ⟨of_decide_eq_true above, of_decide_eq_true below⟩

theorem isUpper_of_mem_spelling (k : Keyword) : ∀ c ∈ k.spelling.toList, c.isUpper = true := by
  apply List.all_eq_true.mp
  cases k <;> decide

theorem span_append {p : Char → Bool} {cs rest : List Char} (all : ∀ c ∈ cs, p c = true)
    (stops : ∀ c ∈ rest.head?, p c = false) : (cs ++ rest).span p = (cs, rest) := by
  rw [List.span_eq_takeWhile_dropWhile, List.takeWhile_append_of_pos all,
    List.dropWhile_append_of_pos all]
  cases rest with
  | nil => simp
  | cons c r => simp [stops c rfl]

variable {k : Keyword} {word : String} (anyCase : Text.asciiUpper word = k.spelling)
include anyCase

theorem map_toUpper_eq : word.toList.map Char.toUpper = k.spelling.toList := by
  rw [← anyCase, Text.asciiUpper, String.toList_ofList]

theorem isAlpha_of_mem : ∀ c ∈ word.toList, c.isAlpha = true := by
  intro c member
  rw [← Char.isUpper_toUpper_eq_isAlpha]
  apply isUpper_of_mem_spelling k
  rw [← map_toUpper_eq anyCase]
  exact List.mem_map_of_mem member

theorem tokenOfWord_keyword : tokenOfWord word = .keyword k := by
  have found : Keyword.ofWord? word = some k := by
    rw [Keyword.ofWord?, anyCase]
    cases k <;> decide
  rw [tokenOfWord, found]

theorem keyword_readsAs : ReadsAs (.keyword k) word.toList := by
  have letters := isAlpha_of_mem anyCase
  cases written : word.toList with
  | nil =>
    have empty := map_toUpper_eq anyCase
    rw [written] at empty
    cases k <;> contradiction
  | cons c r =>
    rw [written] at letters
    have letter : c.isAlpha = true := letters c List.mem_cons_self
    have code := toNat_of_isAlpha letter
    refine ⟨c, r, rfl, isBlank_eq_false (by omega) (by omega), fun rest parted => ?_⟩
    have plain : c ∉ symbolStarts := not_mem_symbolStarts (by decide) letter
    have numeral : (c.isDigit || c == '.') = false := by
      rw [Bool.or_eq_false_iff, beq_eq_false_iff_ne]
      constructor
      · apply Bool.eq_false_iff.mpr
        intro digit
        have := toNat_of_isDigit digit
        omega
      · rintro rfl
        contradiction
    have all : ∀ d ∈ c :: r, isWordRest d = true := by
      intro d member
      simp [isWordRest, Text.isWordChar, Text.isLetter, letters d member]
    have whole : (c :: (r ++ rest)).span isWordRest = (c :: r, rest) := by
      apply span_append all
      intro d here
      rw [parted d here]
      decide
    have start : isWordStart c = true := by simp [isWordStart, Text.isLetter, letter]
    rw [readToken_unquoted plain, numeral, if_neg Bool.false_ne_true, if_pos start, whole]
    dsimp only
    rw [← written, String.ofList_toList, tokenOfWord_keyword anyCase]

end Words

section Numerals

/-- All these characters belong to a numeral, wherever a space or the end follows. -/
def Spanned (afterMark : Bool) (cs : List Char) : Prop :=
  ∀ rest, Parted rest → spanNumeral afterMark (cs ++ rest) = (cs, rest)

variable {afterMark : Bool} {c : Char} {cs ds : List Char}

theorem spanned_nil : Spanned afterMark [] := by
  intro rest parted
  rcases parted.cases with rfl | ⟨r, rfl⟩
  · rfl
  · cases afterMark <;> rfl

theorem Spanned.cons
    (numeral : (c.isDigit || c == '.' || c == 'e' || c == 'E' ||
      ((c == '+' || c == '-') && afterMark)) = true)
    (more : Spanned (c == 'e' || c == 'E') cs) : Spanned afterMark (c :: cs) := by
  intro rest parted
  rw [List.cons_append, spanNumeral, if_pos numeral, more rest parted]

theorem Spanned.digit (digit : c.isDigit = true) (more : Spanned false cs) :
    Spanned afterMark (c :: cs) := by
  apply Spanned.cons
  · rw [digit]
    rfl
  · have unmarked : (c == 'e' || c == 'E') = false := by
      rw [Bool.or_eq_false_iff, beq_eq_false_iff_ne, beq_eq_false_iff_ne]
      constructor <;> rintro rfl <;> contradiction
    rwa [unmarked]

theorem Spanned.digits (digits : ∀ c ∈ ds, c.isDigit = true) (more : Spanned false cs) :
    Spanned false (ds ++ cs) := by
  induction ds with
  | nil => exact more
  | cons c ds ih =>
    obtain ⟨digit, digits⟩ := List.forall_mem_cons.mp digits
    exact .digit digit (ih digits)

theorem spanned_digits (digits : ∀ c ∈ ds, c.isDigit = true) : Spanned afterMark ds := by
  cases ds with
  | nil => exact spanned_nil
  | cons c ds =>
    obtain ⟨digit, digits⟩ := List.forall_mem_cons.mp digits
    rw [← List.append_nil ds]
    exact .digit digit (.digits digits spanned_nil)

theorem spanned_of_exponentOf? {n : Int} (value : Number.exponentOf? cs = some n) :
    Spanned true cs := by
  have digits {ds : List Char} (read : ¬(ds.isEmpty || !ds.all Char.isDigit) = true) :
      ∀ c ∈ ds, c.isDigit = true := by
    simp only [Bool.or_eq_true, Bool.not_eq_true', not_or, Bool.not_eq_false] at read
    exact List.all_eq_true.mp read.2
  unfold Number.exponentOf? at value
  split at value <;> dsimp only at value <;> split at value
  any_goals contradiction
  · exact .cons rfl (spanned_digits (digits ‹_›))
  · exact .cons rfl (spanned_digits (digits ‹_›))
  · exact spanned_digits (digits ‹_›)

theorem of_spanDigits {whole rest : List Char} (found : Number.spanDigits cs = (whole, rest)) :
    cs = whole ++ rest ∧ ∀ c ∈ whole, c.isDigit = true := by
  rw [Number.spanDigits, List.span_eq_takeWhile_dropWhile] at found
  cases found
  exact ⟨List.takeWhile_append_dropWhile.symm, List.all_eq_true.mp List.all_takeWhile⟩

/-- What may stand after the digits of a numeral: an exponent or nothing. -/
theorem spanned_of_exponent {f : Int → Number.Numeral} {n : Number.Numeral}
    {x : Option Number.Numeral} (value : (match cs with
      | [] => x
      | 'e' :: rest => (Number.exponentOf? rest).map f
      | 'E' :: rest => (Number.exponentOf? rest).map f
      | _ => none) = some n) : Spanned false cs := by
  split at value
  · exact spanned_nil
  · obtain ⟨_, exponent, -⟩ := Option.map_eq_some_iff.mp value
    exact .cons rfl (spanned_of_exponentOf? exponent)
  · obtain ⟨_, exponent, -⟩ := Option.map_eq_some_iff.mp value
    exact .cons rfl (spanned_of_exponentOf? exponent)
  · contradiction

theorem spanned_of_ofChars? {n : Number.Numeral} (value : Number.Numeral.ofChars? cs = some n) :
    Spanned false cs := by
  unfold Number.Numeral.ofChars? at value
  rcases found : Number.spanDigits cs with ⟨whole, rest⟩
  obtain ⟨rfl, digits⟩ := of_spanDigits found
  apply Spanned.digits digits
  rw [found] at value
  dsimp only at value
  split at value
  · rename_i after
    rcases decimals : Number.spanDigits after with ⟨fraction, tail⟩
    obtain ⟨rfl, digits⟩ := of_spanDigits decimals
    rw [decimals] at value
    split at value
    · contradiction
    · exact .cons rfl (.digits digits (spanned_of_exponent value))
  · split at value
    · contradiction
    · exact spanned_of_exponent value

section Unsigned

variable (unsigned : c.isDigit = true ∨ c = '.')
include unsigned

theorem toNat_of_unsigned : 46 ≤ c.toNat ∧ c.toNat ≤ 57 := by
  rcases unsigned with digit | rfl
  · have := toNat_of_isDigit digit
    omega
  · decide

theorem ne_word (w : Char) (letter : 57 < w.toNat) (ds : List Char) :
    String.ofList ((c :: cs).map Char.toLower) ≠ String.ofList (w :: ds) := by
  have code := toNat_of_unsigned unsigned
  have lower : c.toLower = c := by
    apply Char.toLower_eq_of_not_isUpper
    intro upper
    have bounds : 65 ≤ c.toNat ∧ c.toNat ≤ 90 := of_decide_eq_true upper
    omega
  intro same
  rw [String.ofList_inj, List.map_cons, lower] at same
  obtain rfl := (List.cons.inj same).1
  omega

/-- A numeral that starts with a digit or a point has no sign, and is none of the words. -/
theorem doubleOfChars?_unsigned :
    Number.doubleOfChars? (c :: cs) =
      (Number.Numeral.ofChars? (c :: cs)).map Number.Numeral.toDouble := by
  have code := toNat_of_unsigned unsigned
  have words : ∀ word ∈ ["inf", "infinity", "nan"],
      (String.ofList ((c :: cs).map Char.toLower) == word) = false := by
    simp only [List.forall_mem_cons, beq_eq_false_iff_ne]
    exact ⟨ne_word unsigned 'i' (by decide) _, ne_word unsigned 'i' (by decide) _,
      ne_word unsigned 'n' (by decide) _, nofun⟩
  have inf := words "inf" (by decide)
  have infinity := words "infinity" (by decide)
  have nan := words "nan" (by decide)
  unfold Number.doubleOfChars?
  split
  rename_i signed
  -- Neither sign is a digit or a point.
  split at signed
  · rename_i here
    obtain ⟨rfl, -⟩ := List.cons.inj here
    contradiction
  · rename_i here
    obtain ⟨rfl, -⟩ := List.cons.inj here
    contradiction
  · obtain ⟨rfl, rfl⟩ := Prod.mk.inj signed
    dsimp only
    rw [inf, infinity, nan]
    exact Option.map_id'

end Unsigned

theorem number_readsAs {x : Float} (unsigned : c.isDigit = true ∨ c = '.')
    (value : Number.doubleOfChars? (c :: cs) = some x) : ReadsAs (.number x) (c :: cs) := by
  have code := toNat_of_unsigned unsigned
  have start : (c.isDigit || c == '.') = true := by rwa [Bool.or_eq_true, beq_iff_eq]
  have plain : c ∉ symbolStarts := not_mem_symbolStarts (p := fun d => d.isDigit || d == '.')
    (by decide) start
  refine ⟨c, cs, rfl, isBlank_eq_false (by omega) (by omega), fun rest parted => ?_⟩
  have whole : spanNumeral false (c :: (cs ++ rest)) = (c :: cs, rest) := by
    rw [doubleOfChars?_unsigned unsigned] at value
    obtain ⟨n, numeral, -⟩ := Option.map_eq_some_iff.mp value
    exact spanned_of_ofChars? numeral rest parted
  rw [readToken_unquoted plain, if_pos start, whole]
  dsimp only
  rw [value]

end Numerals

theorem Token.Spelled.readsAs {t : Token} {word : String} (spelled : t.Spelled word) :
    ReadsAs t word.toList := by
  cases spelled with
  | identifier name => exact identifier_readsAs name
  | text s => exact text_readsAs s
  | number unsigned value =>
    rw [String.toList_ofList]
    exact number_readsAs unsigned value
  | compare c => exact compare_readsAs c
  | unequal => exact unequal_readsAs
  | mark m => exact mark_readsAs m
  | keyword anyCase => exact keyword_readsAs anyCase

theorem tokensFrom_space (offset : Nat) (rest : List Char) (fuel : Nat) :
    tokensFrom offset (' ' :: rest) (fuel + 1) = tokensFrom (offset + 1) rest fuel := by
  rfl

theorem tokensFrom_readsAs {t : Token} {word rest : List Char} {offset fuel : Nat}
    {ts : List Placed} (read : ReadsAs t word) (parted : Parted rest)
    (later : tokensFrom (offset + byteLength word) rest fuel = .ok ts) :
    tokensFrom offset (word ++ rest) (fuel + 1) = .ok ((t, offset) :: ts) := by
  obtain ⟨c, r, rfl, plain, read⟩ := read
  have consumed : byteLength (c :: (r ++ rest)) - byteLength rest = byteLength (c :: r) := by
    rw [← List.cons_append, byteLength_append, Nat.add_sub_cancel]
  rw [List.cons_append, tokensFrom, plain, if_neg Bool.false_ne_true, read rest parted]
  dsimp only
  rw [consumed, later]
  rfl

theorem spaced_singleton (t : Token) (word : String) : spaced [(t, word)] = word :=
  String.intercalate_singleton

theorem spaced_cons (t : Token) (word : String) (e : Token × String)
    (rest : List (Token × String)) :
    spaced ((t, word) :: e :: rest) = word ++ (" " ++ spaced (e :: rest)) := by
  rw [spaced, List.map_cons, List.map_cons, String.intercalate_cons_cons, String.append_assoc]
  rfl

/-- By induction on the words: each one is read up to the space after it, or to the end. -/
theorem tokensFrom_spelled {written : List (Token × String)}
    (spelled : ∀ e ∈ written, e.1.Spelled e.2) (before : String) {fuel : Nat}
    (enough : (spaced written).toList.length ≤ fuel) :
    tokensFrom before.utf8ByteSize (spaced written).toList fuel = .ok (placed before written) := by
  induction written generalizing before fuel with
  | nil => cases fuel <;> rfl
  | cons e rest ih =>
    obtain ⟨t, word⟩ := e
    obtain ⟨first, others⟩ := List.forall_mem_cons.mp spelled
    have read : ReadsAs t word.toList := first.readsAs
    have size : 0 < word.toList.length := by
      obtain ⟨c, r, same, -⟩ := read
      simp [same]
    cases rest with
    | nil =>
      rw [spaced_singleton] at enough ⊢
      obtain ⟨fuel, rfl⟩ : ∃ n, fuel = n + 1 := ⟨fuel - 1, by omega⟩
      rw [← List.append_nil word.toList]
      apply tokensFrom_readsAs read (by simp [Parted])
      cases fuel <;> rfl
    | cons e rest =>
      rw [spaced_cons, String.toList_append, String.toList_append] at enough ⊢
      rw [List.length_append, List.length_append] at enough
      have space : " ".toList.length = 1 := rfl
      obtain ⟨fuel, rfl⟩ : ∃ n, fuel = n + 2 := ⟨fuel - 2, by omega⟩
      apply tokensFrom_readsAs read (by simp [Parted])
      have next : before.utf8ByteSize + byteLength word.toList + 1 =
          (before ++ word ++ " ").utf8ByteSize := by
        rw [byteLength_eq, String.ofList_toList, String.utf8ByteSize_append,
          String.utf8ByteSize_append]
        rfl
      have later :
          tokensFrom (before ++ word ++ " ").utf8ByteSize (spaced (e :: rest)).toList fuel =
            .ok (placed (before ++ word ++ " ") (e :: rest)) := ih others _ (by omega)
      rw [← next] at later
      exact (tokensFrom_space _ _ fuel).trans later

/-- Tokens written with single spaces between them are read as they are, each one at the number of
bytes that stand before its word. -/
theorem tokens_spelled {written : List (Token × String)}
    (spelled : ∀ e ∈ written, e.1.Spelled e.2) :
    tokens (spaced written) = .ok (placed "" written) :=
  tokensFrom_spelled spelled "" (Nat.le_refl _)

/-- A name with a quote and a letter of two bytes, a text with a quote, a numeral with a sign in its
exponent, and a symbol that another one is the start of. -/
theorem tokens_spelled_quoted :
    let written : List (Token × String) :=
      [(.identifier "a\"é", quotedWith '"' "a\"é"), (.keyword .among, "iN"), (.mark .opening, "("),
        (.text "it's", quotedWith '\'' "it's"), (.mark .comma, ","), (.number 150, "1.5e+2"),
        (.mark .closing, ")"), (.keyword .or, "OR"), (.number 0.5, ".5"), (.compare .notEq, "<>"),
        (.compare .lt, "<")]
    spaced written = "\"a\"\"é\" iN ( 'it''s' , 1.5e+2 ) OR .5 <> <" ∧
      tokens (spaced written) = .ok (placed "" written) ∧
      (placed "" written).map (·.2) = [0, 8, 11, 13, 21, 23, 30, 32, 35, 38, 41] := by
  intro written
  refine ⟨by decide +kernel, tokens_spelled ?_, by decide +kernel⟩
  simp only [written, List.forall_mem_cons]
  have exponent : Number.doubleOfChars? "1.5e+2".toList = some 150 := by decide +kernel
  have half : Number.doubleOfChars? ".5".toList = some 0.5 := by decide +kernel
  exact ⟨.identifier _, .keyword rfl, .mark _, .text _, .mark _, .number (.inl rfl) exponent,
    .mark _, .keyword rfl, .number (.inr rfl) half, .unequal, .compare _, nofun⟩

/-- Without a space between them, two texts are read as one with a quote in it. -/
example : tokens "'a''b'" = .ok [(.text "a'b", 0)] := by
  rfl

end Geospatial.Where
