import Mathlib.Data.List.Nodup
import Mathlib.Data.List.Perm.Basic
import Mathlib.Data.List.TakeDrop
import Geospatial.Projection.Definition
import Geospatial.Proofs.Outcome

/-! What a definition depends on: neither the blanks between its words nor their order nor the keys
that no rule asks for, only the last value of each key that one does. -/
namespace Geospatial.Text

variable {ws : List (List Char)} {c : Char} {w cs : List Char}

/-- The text has these words, each a run without blanks that ends at a blank or with the text. -/
inductive Spaced : List (List Char) → List Char → Prop where
  | nil : Spaced [] []
  | blank {ws : List (List Char)} {c : Char} {cs : List Char} :
      isBlank c = true → Spaced ws cs → Spaced ws (c :: cs)
  | word {ws : List (List Char)} {w cs : List Char} :
      w ≠ [] → (∀ c ∈ w, isBlank c = false) → (∀ c ∈ cs.head?, isBlank c = true) →
      Spaced ws cs → Spaced (w :: ws) (w ++ cs)

theorem wordsOfChars_blank (blank : isBlank c = true) :
    wordsOfChars (c :: cs) = wordsOfChars cs := by
  simp [wordsOfChars, splitChars, blank]

/-- A run without blanks joins the first piece of what follows. -/
theorem splitChars_append {separates : Char → Bool} {piece : List Char}
    {pieces : List (List Char)} (within : ∀ c ∈ w, separates c = false)
    (after : splitChars separates cs = piece :: pieces) :
    splitChars separates (w ++ cs) = (w ++ piece) :: pieces := by
  induction w with
  | nil => exact after
  | cons c w ih =>
    obtain ⟨here, later⟩ := List.forall_mem_cons.mp within
    simp [splitChars, here, ih later]

theorem wordsOfChars_word (nonempty : w ≠ []) (within : ∀ c ∈ w, isBlank c = false)
    (ends : ∀ c ∈ cs.head?, isBlank c = true) : wordsOfChars (w ++ cs) = w :: wordsOfChars cs := by
  obtain ⟨pieces, after⟩ : ∃ pieces, splitChars isBlank cs = [] :: pieces := by
    cases cs with
    | nil => exact ⟨[], rfl⟩
    | cons c cs => exact ⟨splitChars isBlank cs, by simp [splitChars, ends c rfl]⟩
  simp [wordsOfChars, splitChars_append within after, after, nonempty]

theorem exists_spaced (cs : List Char) : ∃ ws, Spaced ws cs := by
  induction cs with
  | nil => exact ⟨[], .nil⟩
  | cons c cs ih =>
    obtain ⟨ws, spaced⟩ := ih
    by_cases blank : isBlank c = true
    · exact ⟨ws, .blank blank spaced⟩
    -- The character is in front of the word that the text begins with, or is one by itself.
    have alone : ∀ b ∈ [c], isBlank b = false := by simpa using blank
    cases spaced with
    | nil => exact ⟨[[c]], .word (List.cons_ne_nil c []) alone nofun .nil⟩
    | blank next rest =>
      exact ⟨[c] :: ws, .word (List.cons_ne_nil c []) alone (by simpa using next)
        (.blank next rest)⟩
    | @word ws w cs _ within ends rest =>
      have joined : ∀ b ∈ c :: w, isBlank b = false := List.forall_mem_append.mpr ⟨alone, within⟩
      exact ⟨(c :: w) :: ws, .word (List.cons_ne_nil c w) joined ends rest⟩

/-- A text has the words that splitting it gives, and no others. -/
theorem spaced_iff : Spaced ws cs ↔ wordsOfChars cs = ws := by
  have split {vs : List (List Char)} (spaced : Spaced vs cs) : wordsOfChars cs = vs := by
    induction spaced with
    | nil => rfl
    | blank blank _ ih => exact (wordsOfChars_blank blank).trans ih
    | word nonempty within ends _ ih =>
      exact (wordsOfChars_word nonempty within ends).trans (congrArg _ ih)
  refine ⟨split, ?_⟩
  rintro rfl
  obtain ⟨vs, spaced⟩ := exists_spaced cs
  exact split spaced ▸ spaced

end Geospatial.Text

namespace Geospatial.Projection

namespace Parameters

variable {ps qs : Parameters} {key : String} {w : List Char}

/-- What a word gives a value to: the text between its plus sign and its first equals sign. -/
def keyOf? : List Char → Option String
  | '+' :: body => some (String.ofList (body.takeWhile (· != '=')))
  | _ => none

theorem entryOfChars_key (cs : List Char) :
    (entryOfChars cs).1 = String.ofList (cs.takeWhile (· != '=')) := by
  rw [entryOfChars, List.span_eq_takeWhile_dropWhile]
  split <;> simp_all

theorem keyOf?_eq_some {e : String × Option String} (read : entryOfWord w = .ok e) :
    keyOf? w = some e.1 := by
  unfold entryOfWord at read
  split at read
  · cases read
    exact congrArg some (entryOfChars_key _).symm
  · contradiction

theorem exists_entryOfWord (named : keyOf? w = some key) :
    ∃ e, entryOfWord w = .ok e ∧ e.1 = key := by
  unfold keyOf? at named
  split at named
  · cases named
    exact ⟨_, rfl, entryOfChars_key _⟩
  · contradiction

/-- The keys of entries are those of the words they are read from. -/
theorem keys_eq {ws : List (List Char)} {es : List (String × Option String)}
    (read : ws.mapM entryOfWord = .ok es) : ws.filterMap keyOf? = es.map (·.1) := by
  have related := mapM_eq_ok.mp read
  clear read
  induction related with
  | nil => rfl
  | cons first _ ih => simp [keyOf?_eq_some first, ih]

theorem last?_append (es fs : List (String × Option String)) (key : String) :
    last? ⟨es ++ fs⟩ key = (last? ⟨fs⟩ key).or (last? ⟨es⟩ key) := by
  simp [last?, List.find?_append]

/-- An entry of another key does not count. -/
theorem last?_insert_of_ne {e : String × Option String} (other : e.1 ≠ key)
    (es fs : List (String × Option String)) :
    last? ⟨es ++ e :: fs⟩ key = last? ⟨es ++ fs⟩ key := by
  have missing : last? ⟨[e]⟩ key = none := by simp [last?, other]
  rw [← List.singleton_append, last?_append, last?_append, missing, Option.or_none, last?_append]

/-- Nor does one that a later entry of its key replaces. -/
theorem last?_insert_of_later {e f : String × Option String} {fs : List (String × Option String)}
    (later : f ∈ fs) (same : f.1 = e.1) (es : List (String × Option String)) (key : String) :
    last? ⟨es ++ e :: fs⟩ key = last? ⟨es ++ fs⟩ key := by
  by_cases other : e.1 ≠ key
  · exact last?_insert_of_ne other es fs
  · have found : (last? ⟨fs⟩ key).isSome := by
      rw [last?, List.find?_isSome]
      exact ⟨f, List.mem_reverse.mpr later, by simp_all⟩
    obtain ⟨g, given⟩ := Option.isSome_iff_exists.mp found
    rw [← List.singleton_append, last?_append, last?_append, last?_append, given]
    rfl

theorem last?_eq_some (distinct : (ps.entries.map (·.1)).Nodup) {e : String × Option String} :
    ps.last? key = some e ↔ e ∈ ps.entries ∧ e.1 = key := by
  have sound {f : String × Option String} (found : ps.last? key = some f) :
      f ∈ ps.entries ∧ f.1 = key :=
    ⟨List.mem_reverse.mp (List.mem_of_find?_eq_some found), by simpa using List.find?_some found⟩
  constructor
  · exact sound
  · rintro ⟨mem, named⟩
    have found : (ps.last? key).isSome := by
      rw [last?, List.find?_isSome]
      exact ⟨e, List.mem_reverse.mpr mem, by simpa using named⟩
    obtain ⟨f, given⟩ := Option.isSome_iff_exists.mp found
    obtain ⟨there, called⟩ := sound given
    have same := List.inj_on_of_nodup_map distinct there mem (called.trans named.symm)
    exact given.trans (congrArg some same)

theorem last?_perm (perm : ps.entries.Perm qs.entries)
    (distinct : (ps.entries.map (·.1)).Nodup) (key : String) : ps.last? key = qs.last? key := by
  ext e
  rw [last?_eq_some distinct, last?_eq_some ((perm.map _).nodup_iff.mp distinct), perm.mem_iff]

end Parameters

namespace Definition

variable {ps qs : Parameters}

/-- The keys that some rule asks for. -/
def recognized : List String :=
  ["ellps", "a", "b", "rf", "datum", "towgs84", "units", "proj", "k_0", "k", "lat_ts", "lon_0",
    "x_0", "y_0", "zone", "south", "lat_0", "lat_1", "lat_2"]

/-- Two lists give the same value to every key that some rule asks for. -/
def Agree (ps qs : Parameters) : Prop := ∀ key ∈ recognized, ps.last? key = qs.last? key

section Agreement

variable (agree : Agree ps qs)
include agree

theorem Agree.text? (key : String) (known : key ∈ recognized) : ps.text? key = qs.text? key :=
  congrArg (·.bind (·.2)) (agree key known)

theorem Agree.number? (key : String) (known : key ∈ recognized) :
    ps.number? key = qs.number? key := by
  simp only [Parameters.number?, agree.text? key known]

theorem Agree.numberOr (key : String) (known : key ∈ recognized) (default : Float) :
    ps.numberOr key default = qs.numberOr key default := by
  simp only [Parameters.numberOr, agree.number? key known]

theorem Agree.scale? : scale? ps = scale? qs := by
  simp only [Definition.scale?, agree.number? "k_0" (by decide),
    agree.number? "k" (by decide)]

theorem Agree.ellipsoidOf : ellipsoidOf ps = ellipsoidOf qs := by
  simp only [Definition.ellipsoidOf, agree.text? "ellps" (by decide),
    agree.number? "a" (by decide), agree.number? "b" (by decide),
    agree.number? "rf" (by decide)]

theorem Agree.datumOf : datumOf ps = datumOf qs := by
  simp only [Definition.datumOf, agree.ellipsoidOf, agree.text? "datum" (by decide),
    agree.text? "towgs84" (by decide)]

theorem Agree.mercatorOf (e : Ellipsoid Float) : mercatorOf ps e = mercatorOf qs e := by
  simp only [Definition.mercatorOf, agree.scale?, agree.numberOr "lat_ts" (by decide),
    agree.numberOr "lon_0" (by decide), agree.numberOr "x_0" (by decide),
    agree.numberOr "y_0" (by decide)]

theorem Agree.zoneOf : zoneOf ps = zoneOf qs := by
  have south : ps.has "south" = qs.has "south" := congrArg Option.isSome (agree _ (by decide))
  simp only [Definition.zoneOf, agree.number? "zone" (by decide), south]

theorem Agree.transverseOf : transverseOf ps = transverseOf qs := by
  simp only [Definition.transverseOf, agree.scale?, agree.numberOr "lat_0" (by decide),
    agree.numberOr "lon_0" (by decide), agree.numberOr "x_0" (by decide),
    agree.numberOr "y_0" (by decide)]

theorem Agree.albersOf : albersOf ps = albersOf qs := by
  simp only [Definition.albersOf, agree.number? "lat_1" (by decide),
    agree.numberOr "lat_2" (by decide), agree.numberOr "lat_0" (by decide),
    agree.numberOr "lon_0" (by decide), agree.numberOr "x_0" (by decide),
    agree.numberOr "y_0" (by decide)]

theorem Agree.equidistantOf : equidistantOf ps = equidistantOf qs := by
  simp only [Definition.equidistantOf, agree.numberOr "lat_ts" (by decide),
    agree.numberOr "lat_0" (by decide), agree.numberOr "lon_0" (by decide),
    agree.numberOr "x_0" (by decide), agree.numberOr "y_0" (by decide)]

theorem Agree.projectionOf (e : Ellipsoid Float) : projectionOf ps e = projectionOf qs e := by
  simp only [Definition.projectionOf, agree.text? "proj" (by decide), agree.mercatorOf,
    agree.zoneOf, agree.transverseOf, agree.albersOf, agree.equidistantOf]

theorem Agree.axisUnitOf (geographic : Bool) :
    axisUnitOf ps geographic = axisUnitOf qs geographic := by
  simp only [Definition.axisUnitOf, agree.text? "units" (by decide)]

theorem Agree.ofParameters : ofParameters ps = ofParameters qs := by
  simp only [Definition.ofParameters, agree.datumOf, agree.projectionOf, agree.axisUnitOf]

end Agreement

/-- Reads a definition from its words. -/
def ofWords (ws : List (List Char)) : Outcome Float (Definition Float) := do
  ofParameters ⟨← ws.mapM Parameters.entryOfWord⟩

variable {s : String} {us vs ws : List (List Char)} {w : List Char}

theorem parse_eq_ofWords (spaced : Text.Spaced ws s.toList) : parse s = ofWords ws := by
  simp only [parse, Parameters.ofText, ofWords, Text.spaced_iff.mp spaced, bind_assoc, pure_bind]

theorem ofWords_eq {es : List (String × Option String)}
    (read : ws.mapM Parameters.entryOfWord = .ok es) : ofWords ws = ofParameters ⟨es⟩ := by
  rw [ofWords, read]
  rfl

/-- A word that changes no value among the entries around it makes no difference. -/
theorem ofWords_insert {e : String × Option String} (entry : Parameters.entryOfWord w = .ok e)
    (idle : ∀ es fs, vs.mapM Parameters.entryOfWord = .ok fs →
      Agree ⟨es ++ e :: fs⟩ ⟨es ++ fs⟩) :
    ofWords (us ++ w :: vs) = ofWords (us ++ vs) := by
  simp only [ofWords, List.mapM_append, List.mapM_cons, entry]
  cases us.mapM Parameters.entryOfWord with
  | error f => rfl
  | ok es =>
    cases read : vs.mapM Parameters.entryOfWord with
    | error f => rfl
    | ok fs => exact (idle es fs read).ofParameters

/-- Words of distinct keys in another order are refused together or mean the same. -/
theorem ofWords_perm (perm : us.Perm vs) (distinct : (us.filterMap Parameters.keyOf?).Nodup) :
    (ofWords us).toOption = (ofWords vs).toOption := by
  have carried {us vs : List (List Char)} (perm : us.Perm vs)
      {fs : List (String × Option String)} (read : vs.mapM Parameters.entryOfWord = .ok fs) :
      ∃ es, us.mapM Parameters.entryOfWord = .ok es ∧ es.Perm fs := by
    obtain ⟨es, related, arranged⟩ := List.perm_comp_forall₂ perm (mapM_eq_ok.mp read)
    exact ⟨es, mapM_eq_ok.mpr related, arranged⟩
  cases read : vs.mapM Parameters.entryOfWord with
  | ok fs =>
    obtain ⟨es, readThere, arranged⟩ := carried perm read
    have agree : Agree ⟨es⟩ ⟨fs⟩ := by
      intro key _
      exact Parameters.last?_perm arranged (Parameters.keys_eq readThere ▸ distinct) key
    rw [ofWords_eq read, ofWords_eq readThere, agree.ofParameters]
  | error f =>
    cases readThere : us.mapM Parameters.entryOfWord with
    | ok es =>
      obtain ⟨fs, contrary, _⟩ := carried perm.symm readThere
      rw [read] at contrary
      contradiction
    | error g =>
      rw [ofWords, ofWords, read, readThere]
      rfl

/-- What a definition says is in the last values of the keys that some rule asks for. It changes
neither with the blanks between its words, nor with their order where no two have the same key,
except that of two faults another one may be told, nor with a word of any other key, nor with a
word whose key comes again. -/
theorem parse_depends_on_content (spaced : Text.Spaced ws s.toList) :
    (∀ t, Text.Spaced ws t.toList → parse t = parse s) ∧
    (∀ t vs, Text.Spaced vs t.toList → vs.Perm ws → (vs.filterMap Parameters.keyOf?).Nodup →
      (parse t).toOption = (parse s).toOption) ∧
    (∀ t before w after key, Text.Spaced (before ++ w :: after) t.toList → ws = before ++ after →
      Parameters.keyOf? w = some key → key ∉ recognized → parse t = parse s) ∧
    (∀ t before w after key, Text.Spaced (before ++ w :: after) t.toList → ws = before ++ after →
      Parameters.keyOf? w = some key → (∃ v ∈ after, Parameters.keyOf? v = some key) →
      parse t = parse s) ∧
    ∀ t ps qs, Parameters.ofText t = .ok ps → Parameters.ofText s = .ok qs → Agree ps qs →
      parse t = parse s := by
  refine ⟨?_, ?_, ?_, ?_, ?_⟩
  · intro t again
    exact (parse_eq_ofWords again).trans (parse_eq_ofWords spaced).symm
  · intro t vs other perm distinct
    rw [parse_eq_ofWords other, parse_eq_ofWords spaced]
    exact ofWords_perm perm distinct
  · rintro t before w after key more rfl named unknown
    obtain ⟨e, entry, rfl⟩ := Parameters.exists_entryOfWord named
    rw [parse_eq_ofWords more, parse_eq_ofWords spaced]
    apply ofWords_insert entry
    intro es fs _ key known
    exact Parameters.last?_insert_of_ne (fun same => unknown (same ▸ known)) es fs
  · rintro t before w after key more rfl named ⟨v, mem, again⟩
    obtain ⟨e, entry, rfl⟩ := Parameters.exists_entryOfWord named
    rw [parse_eq_ofWords more, parse_eq_ofWords spaced]
    apply ofWords_insert entry
    intro es fs read key _
    have there : e.1 ∈ fs.map (·.1) :=
      Parameters.keys_eq read ▸ List.mem_filterMap.mpr ⟨v, mem, again⟩
    obtain ⟨f, later, same⟩ := List.mem_map.mp there
    exact Parameters.last?_insert_of_later later same es key
  · intro t ps qs readThere read agree
    rw [parse, parse, readThere, read]
    exact agree.ofParameters

/-- A transverse Mercator projection on another ellipsoid, written in five other ways. -/
theorem parse_depends_on_content_tmerc :
    let plain := "+proj=tmerc +lat_0=49 +lon_0=-2 +ellps=airy"
    (parse plain).toOption.isSome = true ∧
    parse "\t+proj=tmerc  +lat_0=49 +lon_0=-2\n+ellps=airy " = parse plain ∧
    (parse "+ellps=airy +lon_0=-2 +lat_0=49 +proj=tmerc").toOption = (parse plain).toOption ∧
    parse "+proj=tmerc +no_defs +lat_0=49 +lon_0=-2 +ellps=airy" = parse plain ∧
    parse "+proj=tmerc +lat_0=abc +lat_0=49 +lon_0=-2 +ellps=airy" = parse plain ∧
    parse "+lon_0=-2 +wktext +proj=merc +ellps=airy +lat_0=49 +proj=tmerc" = parse plain := by
  intro plain
  let words := ["+proj=tmerc".toList, "+lat_0=49".toList, "+lon_0=-2".toList, "+ellps=airy".toList]
  have spaced : Text.Spaced words plain.toList := Text.spaced_iff.mpr (by decide +kernel)
  obtain ⟨blanks, order, unknown, repeated, content⟩ := parse_depends_on_content spaced
  refine ⟨by decide +kernel, blanks _ (Text.spaced_iff.mpr (by decide +kernel)), ?_, ?_, ?_, ?_⟩
  · exact order _ words.reverse (Text.spaced_iff.mpr (by decide +kernel))
      (List.reverse_perm words) (by decide +kernel)
  · exact unknown _ (words.take 1) "+no_defs".toList (words.drop 1) "no_defs"
      (Text.spaced_iff.mpr (by decide +kernel)) rfl (by decide +kernel) (by decide +kernel)
  · exact repeated _ (words.take 1) "+lat_0=abc".toList (words.drop 1) "lat_0"
      (Text.spaced_iff.mpr (by decide +kernel)) rfl (by decide +kernel)
      ⟨"+lat_0=49".toList, by decide +kernel, by decide +kernel⟩
  · refine content _ _ _ rfl (by unfold plain; rfl) ?_
    unfold Agree
    decide +kernel

end Definition

end Geospatial.Projection
