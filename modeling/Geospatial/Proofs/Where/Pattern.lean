import Mathlib.Data.List.Forall2
import Geospatial.Where.Truth

/-! A text matches a pattern exactly when it can be cut into consecutive pieces, one for each
character of the pattern. While the text is walked, every answer that is kept says whether what was
read can be cut for its prefix of the pattern: a longer prefix is answered from the one before it,
and a longer text from the shorter one. -/
namespace Geospatial.Where

/-- The pieces of a text that a character of a pattern stands for. -/
inductive StandsFor : Char → List Char → Prop
  | run (piece : List Char) : StandsFor '%' piece
  | any (c : Char) : StandsFor '_' [c]
  | itself {c : Char} : c ≠ '%' → c ≠ '_' → StandsFor c [c]

/-- The text is made of pieces that the characters of the pattern stand for, in order. -/
def Cut (pattern text : List Char) : Prop :=
  ∃ pieces, List.Forall₂ StandsFor pattern pieces ∧ pieces.flatten = text

theorem standsFor_any {piece : List Char} : StandsFor '_' piece ↔ ∃ c, piece = [c] := by
  constructor
  · intro stands
    cases stands with
    | any c => exact ⟨c, rfl⟩
    | itself _ other => exact absurd rfl other
  · rintro ⟨c, rfl⟩
    exact .any c

theorem standsFor_itself {p : Char} (notRun : p ≠ '%') (notAny : p ≠ '_') {piece : List Char} :
    StandsFor p piece ↔ piece = [p] := by
  constructor
  · intro stands
    cases stands with
    | run => exact absurd rfl notRun
    | any => exact absurd rfl notAny
    | itself => rfl
  · rintro rfl
    exact .itself notRun notAny

theorem forall₂_concat_iff {α β : Type} {R : α → β → Prop} {as : List α} {a : α} {bs : List β} :
    List.Forall₂ R (as ++ [a]) bs ↔ ∃ bs' b, List.Forall₂ R as bs' ∧ R a b ∧ bs = bs' ++ [b] := by
  induction as generalizing bs with
  | nil =>
    rw [List.nil_append, List.forall₂_cons_left_iff]
    constructor
    · rintro ⟨b, _, here, rest, rfl⟩
      rw [List.forall₂_nil_left_iff.mp rest]
      exact ⟨[], b, .nil, here, rfl⟩
    · rintro ⟨bs', b, rest, here, rfl⟩
      rw [List.forall₂_nil_left_iff.mp rest]
      exact ⟨b, [], here, .nil, rfl⟩
  | cons a' as ih =>
    rw [List.cons_append, List.forall₂_cons_left_iff]
    constructor
    · rintro ⟨b', _, first, all, rfl⟩
      obtain ⟨bs', b, rest, here, rfl⟩ := ih.mp all
      exact ⟨b' :: bs', b, .cons first rest, here, rfl⟩
    · rintro ⟨_, b, all, here, rfl⟩
      obtain ⟨b', bs', first, rest, rfl⟩ := List.forall₂_cons_left_iff.mp all
      exact ⟨b', bs' ++ [b], first, ih.mpr ⟨bs', b, rest, here, rfl⟩, rfl⟩

section

variable {done text : List Char} {p c : Char}

theorem cut_nil : Cut [] text ↔ text = [] := by
  constructor
  · rintro ⟨pieces, stand, rfl⟩
    rw [List.forall₂_nil_left_iff.mp stand]
    rfl
  · rintro rfl
    exact ⟨[], .nil, rfl⟩

/-- The last character of a pattern stands for the last piece. -/
theorem cut_concat : Cut (done ++ [p]) text ↔
    ∃ front piece, Cut done front ∧ StandsFor p piece ∧ front ++ piece = text := by
  constructor
  · rintro ⟨_, all, rfl⟩
    obtain ⟨pieces, piece, stand, last, rfl⟩ := forall₂_concat_iff.mp all
    exact ⟨pieces.flatten, piece, ⟨pieces, stand, rfl⟩, last, by simp⟩
  · rintro ⟨_, piece, ⟨pieces, stand, rfl⟩, last, rfl⟩
    exact ⟨pieces ++ [piece], forall₂_concat_iff.mpr ⟨pieces, piece, stand, last, rfl⟩, by simp⟩

/-- Only a run may be empty. -/
theorem cut_concat_nil : Cut (done ++ [p]) [] ↔ Cut done [] ∧ p = '%' := by
  rw [cut_concat]
  constructor
  · rintro ⟨front, piece, cut, stands, empty⟩
    obtain ⟨rfl, rfl⟩ := List.append_eq_nil_iff.mp empty
    cases stands
    exact ⟨cut, rfl⟩
  · rintro ⟨cut, rfl⟩
    exact ⟨[], [], cut, .run [], rfl⟩

/-- A run is empty, or it holds the last character of the text. -/
theorem cut_concat_run :
    Cut (done ++ ['%']) (text ++ [c]) ↔ Cut done (text ++ [c]) ∨ Cut (done ++ ['%']) text := by
  rw [cut_concat, cut_concat]
  constructor
  · rintro ⟨front, piece, cut, -, whole⟩
    rcases List.eq_nil_or_concat piece with rfl | ⟨piece, last, rfl⟩
    · rw [List.append_nil] at whole
      exact Or.inl (whole ▸ cut)
    · rw [List.concat_eq_append, ← List.append_assoc] at whole
      exact Or.inr ⟨front, piece, cut, .run piece, (List.append_inj' whole rfl).1⟩
  · rintro (cut | ⟨front, piece, cut, -, rfl⟩)
    · exact ⟨text ++ [c], [], cut, .run [], List.append_nil _⟩
    · exact ⟨front, piece ++ [c], cut, .run _, (List.append_assoc front piece [c]).symm⟩

theorem cut_concat_any : Cut (done ++ ['_']) (text ++ [c]) ↔ Cut done text := by
  rw [cut_concat]
  constructor
  · rintro ⟨front, piece, cut, stands, whole⟩
    obtain ⟨d, rfl⟩ := standsFor_any.mp stands
    exact (List.append_inj' whole rfl).1 ▸ cut
  · intro cut
    exact ⟨text, [c], cut, .any c, rfl⟩

theorem cut_concat_itself (notRun : p ≠ '%') (notAny : p ≠ '_') :
    Cut (done ++ [p]) (text ++ [c]) ↔ Cut done text ∧ p = c := by
  rw [cut_concat]
  constructor
  · rintro ⟨front, piece, cut, stands, whole⟩
    obtain rfl := (standsFor_itself notRun notAny).mp stands
    obtain ⟨rfl, same⟩ := List.append_inj' whole rfl
    exact ⟨cut, (List.cons.inj same).1⟩
  · rintro ⟨cut, rfl⟩
    exact ⟨text, [p], cut, .itself notRun notAny, rfl⟩

end

/-- One answer for the prefix `done` of a pattern and one for every longer prefix: whether the text
can be cut for it. -/
inductive Answered (text : List Char) : List Char → List Char → List Bool → Prop
  | last {done : List Char} {b : Bool} : (b = true ↔ Cut done text) → Answered text done [] [b]
  | next {done ps : List Char} {p : Char} {b : Bool} {bs : List Bool} : (b = true ↔ Cut done text) →
      Answered text (done ++ [p]) ps bs → Answered text done (p :: ps) (b :: bs)

theorem answered_emptyMatches {done : List Char} {before : Bool}
    (here : before = true ↔ Cut done []) (ps : List Char) :
    Answered [] done ps (before :: emptyMatches before ps) := by
  induction ps generalizing done before with
  | nil => exact .last here
  | cons p ps ih =>
    refine .next here (ih ?_)
    rw [Bool.and_eq_true, beq_iff_eq, cut_concat_nil, here]

namespace Answered

variable {text done ps : List Char} {bs : List Bool}

/-- The first answer is that for `done`. -/
theorem exists_first (answered : Answered text done ps bs) :
    ∃ b rest, bs = b :: rest ∧ (b = true ↔ Cut done text) := by
  cases answered with
  | last here => exact ⟨_, [], rfl, here⟩
  | next here _ => exact ⟨_, _, rfl, here⟩

theorem getLast? (answered : Answered text done ps bs) :
    bs.getLast?.getD false = true ↔ Cut (done ++ ps) text := by
  induction answered with
  | last here => simpa using here
  | @next done ps p b bs _ rest ih =>
    obtain ⟨first, later, rfl, -⟩ := rest.exists_first
    rw [List.getLast?_cons_cons, ih, List.append_assoc, List.singleton_append]

/-- One more character of the text, given the new answer for `done`. -/
theorem advanceFrom (answered : Answered text done ps bs) {c : Char} {now : Bool}
    (here : now = true ↔ Cut done (text ++ [c])) :
    Answered (text ++ [c]) done ps (now :: Where.advanceFrom c now ps bs) := by
  induction answered generalizing now with
  | last => exact .last here
  | @next done ps p old bs before rest ih =>
    obtain ⟨same, later, rfl, same_iff⟩ := rest.exists_first
    refine .next here (ih ?_)
    split
    · rename_i run
      obtain rfl : p = '%' := by simpa using run
      rw [Bool.or_eq_true, cut_concat_run, here, same_iff]
    · split
      · rename_i any
        obtain rfl : p = '_' := by simpa using any
        rw [cut_concat_any, before]
      · rename_i notRun notAny
        rw [cut_concat_itself (by simpa using notRun) (by simpa using notAny), Bool.and_eq_true,
          beq_iff_eq, before]

/-- No text with a character in it can be cut for the empty pattern. -/
theorem advance (answered : Answered text [] ps bs) (c : Char) :
    Answered (text ++ [c]) [] ps (Where.advance ps bs c) := by
  apply answered.advanceFrom
  simp [cut_nil]

/-- The answers after more of the text. -/
theorem foldl (answered : Answered text [] ps bs) (more : List Char) :
    Answered (text ++ more) [] ps (more.foldl (Where.advance ps) bs) := by
  induction more generalizing text bs with
  | nil => simpa using answered
  | cons c more ih => simpa using ih (answered.advance c)

end Answered

/-- A text matches a pattern exactly when it can be cut into consecutive pieces that the characters
of the pattern stand for, in order. -/
theorem matchesPattern_iff_cut (text pattern : List Char) :
    matchesPattern text pattern = true ↔ Cut pattern text := by
  have start : Answered [] [] pattern (true :: emptyMatches true pattern) :=
    answered_emptyMatches (by simp [cut_nil]) pattern
  simpa [matchesPattern] using (start.foldl text).getLast?

-- The run does not end where the rest of the pattern could first begin.
example : matchesPattern "abab".toList "%a_".toList = true := by decide

end Geospatial.Where
