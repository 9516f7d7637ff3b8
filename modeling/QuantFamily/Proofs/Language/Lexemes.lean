import Mathlib.Data.List.TakeWhile
import QuantFamily.Language.Reader
import QuantFamily.Proofs.Text.Numeral

/-!
# Where a terminal ends

The editions agree on most terminals. The full edition knows more signs, and it lets a name go on up
to the next blank or separator, where the other editions end it at the first character that is
neither a letter, a digit, an underscore nor a question mark. So it may take more characters than
they do, and it takes the same ones exactly if the name ends at a blank or a separator.
-/

namespace QuantFamily.Language

/-! ## Delimited names -/

namespace Lexeme

/-- The rest of the text behind a terminal. -/
def following (l : Lexeme) : List Char :=
  l.place.rest.drop l.text.length

/-- Whether a terminal is a name of a variable, parameter, block or index, and not a number. -/
def isName (l : Lexeme) : Bool :=
  [Terminal.name, .blockName, .index].contains l.terminal && !l.text.all Char.isDigit

/-- A name is followed by a blank, a separator or the end of the text. -/
def Delimited (l : Lexeme) : Prop :=
  l.isName = true → l.following.head?.any (continuesName .full) = false

instance (l : Lexeme) : Decidable l.Delimited :=
  inferInstanceAs (Decidable (_ → _))

end Lexeme

/-! ## Character classes -/

theorem continuesName_full_of_classic {c : Char} (h : continuesName .classic c = true) :
    continuesName .full c = true := by
  have hrange : 48 ≤ c.toNat ∧ c.toNat ≤ 57 ∨ 63 ≤ c.toNat ∧ c.toNat ≤ 122 := by
    have hkind : c.isAlphanum = true ∨ c = '_' ∨ c = '?' := by
      simpa [continuesName, Edition.isExtended, or_assoc] using h
    rcases hkind with hkind | rfl | rfl
    · rcases Bool.or_eq_true_iff.mp hkind with hkind | hkind
      · have := Text.toNat_of_isAlpha hkind
        omega
      · exact Or.inl (Text.toNat_of_isDigit hkind)
    · decide
    · decide
  have hblank : Text.isBlank c = false := by
    simp only [Text.isBlank, Text.inRanges, Text.blankRanges, List.any_cons, List.any_nil,
      Bool.or_false, Bool.or_eq_false_iff, Bool.and_eq_false_iff, decide_eq_false_iff_not]
    omega
  have hseparator : ",:;()".toList.contains c = false := by
    rw [← Bool.not_eq_true, List.contains_iff_mem]
    intro hmem
    have hall : ",:;()".toList.all
        (fun d => decide (d.toNat < 48 ∨ 57 < d.toNat ∧ d.toNat < 63)) = true := by decide
    have := of_decide_eq_true (List.all_eq_true.mp hall c hmem)
    omega
  have hbrace : (c.toNat == 0x7b) = false ∧ (c.toNat == 0x7d) = false := by
    rw [beq_eq_false_iff_ne, beq_eq_false_iff_ne]
    omega
  change (!(Text.isBlank c || ",:;()".toList.contains c || c.toNat == 0x7b ||
    c.toNat == 0x7d)) = true
  rw [hblank, hseparator, hbrace.1, hbrace.2]
  rfl

theorem isEmblem_eq_false_of_lt {edition : Edition} {c : Char} (h : c.toNat < 128) :
    isEmblem edition c = false := by
  have hranges : Text.inRanges emblemRanges c.toNat = false := by
    simp only [Text.inRanges, emblemRanges, List.any_cons, List.any_nil, Bool.or_false,
      Bool.or_eq_false_iff, Bool.and_eq_false_iff, decide_eq_false_iff_not]
    omega
  rw [isEmblem, hranges, Bool.and_false]

/-- Outside the full edition nothing but a letter begins a name. -/
theorem letter_of_begins {letter : Char → Bool} {c : Char}
    (h : (letter c || isEmblem .classic c) = true) : letter c = true := by
  have hplain : (letter c || false) = true := h
  rwa [Bool.or_false] at hplain

theorem isDigit_eq_false_of_isAlpha {c : Char} (h : c.isAlpha = true) : c.isDigit = false := by
  rw [← Bool.not_eq_true]
  intro hdigit
  have hrange := Text.toNat_of_isDigit hdigit
  have halpha := Text.toNat_of_isAlpha h
  omega

/-! ## Names -/

theorem exists_of_nameFrom {edition : Edition} {begins : Char → Bool} {text lexeme : List Char}
    (h : nameFrom edition begins text = some lexeme) :
    ∃ c rest, text = c :: rest ∧ begins c = true ∧
      lexeme = c :: rest.takeWhile (continuesName edition) := by
  cases text with
  | nil => cases h
  | cons c rest =>
      by_cases hc : begins c = true
      · rw [nameFrom, if_pos hc] at h
        exact ⟨c, rest, rfl, hc, (Option.some.inj h).symm⟩
      · rw [nameFrom, if_neg hc] at h
        cases h

/-- A wider class of characters takes no more than a narrower one if it stops there too. -/
theorem takeWhile_eq_of_stops {p q : Char → Bool} (wider : ∀ c, p c = true → q c = true)
    {text : List Char} (stops : (text.drop (text.takeWhile p).length).head?.any q = false) :
    text.takeWhile q = text.takeWhile p := by
  induction text with
  | nil => rfl
  | cons c rest ih =>
      by_cases hc : p c = true
      · rw [List.takeWhile_cons_of_pos hc] at stops
        rw [List.takeWhile_cons_of_pos hc, List.takeWhile_cons_of_pos (wider c hc), ih stops]
      · rw [List.takeWhile_cons_of_neg hc] at stops
        have hc' : q c = false := stops
        rw [List.takeWhile_cons_of_neg hc, List.takeWhile_cons_of_neg (ne_true_of_eq_false hc')]

theorem stops_takeWhile (p : Char → Bool) (text : List Char) :
    (text.drop (text.takeWhile p).length).head?.any p = false := by
  induction text with
  | nil => rfl
  | cons c rest ih =>
      by_cases hc : p c = true
      · rw [List.takeWhile_cons_of_pos hc]
        exact ih
      · rw [List.takeWhile_cons_of_neg hc]
        exact Bool.eq_false_iff.mpr hc

theorem nameFrom_full {begins begins' : Char → Bool} {text lexeme : List Char}
    (h : nameFrom .classic begins text = some lexeme)
    (wider : ∀ c, begins c = true → begins' c = true)
    (stops : (text.drop lexeme.length).head?.any (continuesName .full) = false) :
    nameFrom .full begins' text = some lexeme := by
  obtain ⟨c, rest, rfl, hc, rfl⟩ := exists_of_nameFrom h
  have hrest := takeWhile_eq_of_stops (fun _ => continuesName_full_of_classic) stops
  rw [nameFrom, if_pos (wider c hc), hrest]

theorem stops_of_nameFrom {edition : Edition} {begins : Char → Bool} {text lexeme : List Char}
    (h : nameFrom edition begins text = some lexeme) :
    (text.drop lexeme.length).head?.any (continuesName edition) = false := by
  obtain ⟨c, rest, rfl, -, rfl⟩ := exists_of_nameFrom h
  exact stops_takeWhile (continuesName edition) rest

theorem nameFrom_eq_none_iff {edition : Edition} {begins : Char → Bool} {text : List Char} :
    nameFrom edition begins text = none ↔ text.head?.any begins = false := by
  cases text with
  | nil => simp [nameFrom]
  | cons c rest => by_cases hc : begins c = true <;> simp [nameFrom, hc]

theorem takeWhile_of_runOf {among : Char → Bool} {text lexeme : List Char}
    (h : runOf among text = some lexeme) : lexeme = text.takeWhile among ∧ lexeme ≠ [] := by
  unfold runOf at h
  split at h
  · cases h
  · rename_i run hne
    cases h
    exact ⟨rfl, hne⟩

/-- An index is a name with a small first letter or else a number. -/
theorem index_cases {edition : Edition} {text lexeme : List Char}
    (h : Terminal.index.lexeme? edition text = some lexeme) :
    nameFrom edition Char.isLower text = some lexeme ∨
      nameFrom edition Char.isLower text = none ∧ runOf Char.isDigit text = some lexeme := by
  rw [Terminal.lexeme?] at h
  cases hname : nameFrom edition Char.isLower text with
  | some found =>
      rw [hname] at h
      exact Or.inl h
  | none =>
      rw [hname] at h
      exact Or.inr ⟨rfl, h⟩

/-! ## Words -/

theorem exists_of_firstWord {choices : List String} {text lexeme : List Char}
    (h : firstWord choices text = some lexeme) :
    ∃ word ∈ choices, word.toList = lexeme ∧ Text.startsWith lexeme text = true := by
  have hstart : Text.startsWith lexeme text = true :=
    List.find?_some (p := fun word => Text.startsWith word text) h
  obtain ⟨word, hword, rfl⟩ := List.mem_map.mp (List.mem_of_find?_eq_some h)
  exact ⟨word, hword, rfl, hstart⟩

theorem firstWord_append (choices others : List String) (text : List Char) :
    firstWord (choices ++ others) text = (firstWord choices text).or (firstWord others text) := by
  rw [firstWord, List.map_append, List.find?_append]
  rfl

/-- Whether each of some words begins with a character of a class. -/
def allBegin (among : Char → Bool) (words : List String) : Bool :=
  words.all fun word => word.toList.head?.any among

/-- Where one of some words is found, the text begins as they do. -/
theorem exists_head_of_firstWord {among : Char → Bool} {choices : List String}
    (begins : allBegin among choices = true) {text lexeme : List Char}
    (h : firstWord choices text = some lexeme) : ∃ c, text.head? = some c ∧ among c = true := by
  obtain ⟨word, hword, rfl, hstart⟩ := exists_of_firstWord h
  have hhead := List.all_eq_true.mp begins word hword
  obtain ⟨rest, rfl⟩ := List.isPrefixOf_iff_prefix.mp hstart
  cases hchars : word.toList with
  | nil => simp [hchars] at hhead
  | cons c chars =>
      rw [hchars] at hhead
      exact ⟨c, rfl, hhead⟩

/-- Whether a character is basic Latin. -/
def isBasic (c : Char) : Bool :=
  decide (c.toNat < 128)

/-- Whether a text begins with a basic Latin character, if it is not empty. -/
def startsBasic (text : List Char) : Bool :=
  text.head?.all isBasic

theorem startsBasic_of_firstWord {choices : List String} (basic : allBegin isBasic choices = true)
    {text lexeme : List Char} (h : firstWord choices text = some lexeme) :
    startsBasic text = true := by
  obtain ⟨c, hhead, hc⟩ := exists_head_of_firstWord basic h
  rw [startsBasic, hhead]
  exact hc

/-- Words that begin outside basic Latin are not found where a text begins within it. -/
theorem firstWord_eq_none {choices : List String} {text : List Char}
    (foreign : allBegin (fun c => !isBasic c) choices = true) (h : startsBasic text = true) :
    firstWord choices text = none := by
  cases hfound : firstWord choices text with
  | none => rfl
  | some lexeme =>
      obtain ⟨c, hhead, hc⟩ := exists_head_of_firstWord foreign hfound
      have hbasic : isBasic c = true := by
        rw [startsBasic, hhead] at h
        exact h
      rw [hbasic] at hc
      cases hc

/-! ## Terminals -/

namespace Terminal

/-- The terminals of an edition depend on whether it is extended, and on nothing else. -/
theorem lexeme?_of_basic {edition : Edition} (basic : edition.isExtended = false)
    (terminal : Terminal) (text : List Char) :
    terminal.lexeme? edition text = terminal.lexeme? .classic text := by
  cases edition with
  | full => cases basic
  | classic => rfl
  | split => cases terminal <;> rfl
  | tracing => cases terminal <;> rfl

/-- Whether a terminal may stand beside others: it is found in every edition where a text begins
with the same basic Latin characters. -/
def isPlain : Terminal → Bool
  | .operator | .familyName | .code => false
  | .word text => allBegin isBasic [text]
  | _ => true

theorem startsBasic_of_lexeme? {terminal : Terminal} (plain : terminal.isPlain = true)
    {text lexeme : List Char} (h : terminal.lexeme? .classic text = some lexeme) :
    startsBasic text = true := by
  have hname : ∀ {begins : Char → Bool}, (∀ c, begins c = true → c.isAlpha = true) →
      nameFrom .classic begins text = some lexeme → startsBasic text = true := by
    intro begins hbegins hname
    obtain ⟨c, rest, rfl, hc, -⟩ := exists_of_nameFrom hname
    have hrange := Text.toNat_of_isAlpha (hbegins c hc)
    exact decide_eq_true (show c.toNat < 128 by omega)
  have hdigits : runOf Char.isDigit text = some lexeme → startsBasic text = true := by
    intro hrun
    cases text with
    | nil => rfl
    | cons c rest =>
        by_cases hc : c.isDigit = true
        · have hrange := Text.toNat_of_isDigit hc
          exact decide_eq_true (show c.toNat < 128 by omega)
        · rw [runOf, List.takeWhile_cons_of_neg hc] at hrun
          cases hrun
  cases terminal with
  | name =>
      rw [lexeme?] at h
      split at h
      · cases h
      · exact hname (fun c hc => Text.isAlpha_of_isLower (letter_of_begins hc)) h
  | blockName => exact hname (fun c hc => Text.isAlpha_of_isUpper (letter_of_begins hc)) h
  | index =>
      rcases index_cases h with hlower | ⟨-, hnumber⟩
      · exact hname (fun c hc => Text.isAlpha_of_isLower hc) hlower
      · exact hdigits hnumber
  | number => exact hdigits h
  | finish =>
      cases text with
      | nil => rfl
      | cons c rest => cases h
  | word word => exact startsBasic_of_firstWord plain h
  | format => exact startsBasic_of_firstWord (by decide) h
  | kind => exact startsBasic_of_firstWord (by decide) h
  | quantifier => exact startsBasic_of_firstWord (by decide) h
  | negation => exact startsBasic_of_firstWord (by decide) h
  | operator => cases plain
  | familyName => cases plain
  | code => cases plain

/-- What a plain terminal finds in the full edition alone begins outside basic Latin. -/
theorem lexeme?_full_eq_none {terminal : Terminal} (plain : terminal.isPlain = true)
    {text : List Char} (basic : startsBasic text = true)
    (h : terminal.lexeme? .classic text = none) : terminal.lexeme? .full text = none := by
  have hname : ∀ {begins : Char → Bool},
      nameFrom .classic (fun c => begins c || isEmblem .classic c) text = none →
        nameFrom .full (fun c => begins c || isEmblem .full c) text = none := by
    intro begins hnone
    cases text with
    | nil => rfl
    | cons c rest =>
        have hlow : c.toNat < 128 := of_decide_eq_true basic
        rw [nameFrom_eq_none_iff] at hnone ⊢
        simpa [isEmblem_eq_false_of_lt hlow] using hnone
  cases terminal with
  | name =>
      rw [lexeme?] at h ⊢
      split at h
      · rename_i hwords
        rw [if_pos hwords]
      · rename_i hwords
        rw [if_neg hwords]
        exact hname h
  | blockName => exact hname h
  | index =>
      rw [lexeme?] at h
      split at h
      · cases h
      · rename_i hnone
        have hfull : nameFrom .full Char.isLower text = none :=
          nameFrom_eq_none_iff.mpr (nameFrom_eq_none_iff.mp hnone)
        rw [lexeme?, hfull]
        exact h
  | quantifier =>
      change firstWord (["E", "A"] ++ ["∃", "∀"]) text = none
      rw [firstWord_append, show firstWord ["E", "A"] text = none from h, Option.none_or]
      exact firstWord_eq_none (by decide) basic
  | negation =>
      change firstWord (["-"] ++ ["¬"]) text = none
      rw [firstWord_append, show firstWord ["-"] text = none from h, Option.none_or]
      exact firstWord_eq_none (by decide) basic
  | number => exact h
  | finish => exact h
  | word word => exact h
  | format => exact h
  | kind => exact h
  | operator => cases plain
  | familyName => cases plain
  | code => cases plain

end Terminal

/-! ## Names in front of a blank or a separator -/

theorem Lexeme.isName_of_nameFrom {terminal : Terminal} {edition : Edition} {begins : Char → Bool}
    {place : Cursor} {lexeme : List Char}
    (naming : [Terminal.name, .blockName, .index].contains terminal = true)
    (letters : ∀ c, begins c = true → c.isAlpha = true)
    (h : nameFrom edition begins place.rest = some lexeme) :
    isName ⟨terminal, lexeme, place⟩ = true := by
  obtain ⟨c, rest, -, hc, rfl⟩ := exists_of_nameFrom h
  rw [isName, naming, Bool.true_and, List.all_cons, isDigit_eq_false_of_isAlpha (letters c hc)]
  rfl

namespace Terminal

/-- In front of a blank or a separator the full edition takes the same characters. -/
theorem lexeme?_full_of_delimited {terminal : Terminal} {place : Cursor} {lexeme : List Char}
    (h : terminal.lexeme? .classic place.rest = some lexeme)
    (delimited : Lexeme.Delimited ⟨terminal, lexeme, place⟩) :
    terminal.lexeme? .full place.rest = some lexeme := by
  cases terminal with
  | name =>
      rw [lexeme?] at h ⊢
      split at h
      · cases h
      · rename_i hwords
        have hlower : ∀ c, (c.isLower || isEmblem .classic c) = true → c.isAlpha = true :=
          fun c hc => Text.isAlpha_of_isLower (letter_of_begins hc)
        rw [if_neg hwords]
        refine nameFrom_full h (fun c hc => ?_)
          (delimited (Lexeme.isName_of_nameFrom rfl hlower h))
        rw [letter_of_begins hc, Bool.true_or]
  | blockName =>
      have hupper : ∀ c, (c.isUpper || isEmblem .classic c) = true → c.isAlpha = true :=
        fun c hc => Text.isAlpha_of_isUpper (letter_of_begins hc)
      refine nameFrom_full h (fun c hc => ?_) (delimited (Lexeme.isName_of_nameFrom rfl hupper h))
      rw [letter_of_begins hc, Bool.true_or]
  | index =>
      rcases index_cases h with hname | ⟨hnone, hnumber⟩
      · have hstops := delimited
          (Lexeme.isName_of_nameFrom rfl (fun _ hc => Text.isAlpha_of_isLower hc) hname)
        rw [lexeme?, nameFrom_full hname (fun _ hc => hc) hstops]
      · have hfull : nameFrom .full Char.isLower place.rest = none :=
          nameFrom_eq_none_iff.mpr (nameFrom_eq_none_iff.mp hnone)
        rw [lexeme?, hfull]
        exact hnumber
  | operator =>
      obtain ⟨word, hword, rfl, hstart⟩ := exists_of_firstWord h
      obtain ⟨rest, hrest⟩ := List.isPrefixOf_iff_prefix.mp hstart
      rw [← hrest]
      have hwords : word ∈ ["AND", "XOR", "OR"] := hword
      simp only [List.mem_cons, List.not_mem_nil, or_false] at hwords
      rcases hwords with rfl | rfl | rfl <;> rfl
  | quantifier =>
      change firstWord (["E", "A"] ++ ["∃", "∀"]) place.rest = some lexeme
      rw [firstWord_append, show firstWord ["E", "A"] place.rest = some lexeme from h]
      rfl
  | negation =>
      change firstWord (["-"] ++ ["¬"]) place.rest = some lexeme
      rw [firstWord_append, show firstWord ["-"] place.rest = some lexeme from h]
      rfl
  | number => exact h
  | finish => exact h
  | word word => exact h
  | format => exact h
  | kind => exact h
  | familyName => exact h
  | code => exact h

/-- The names that the full edition takes are followed by a blank, a separator or the end. -/
theorem delimited_of_lexeme?_full {terminal : Terminal} {place : Cursor} {lexeme : List Char}
    (h : terminal.lexeme? .full place.rest = some lexeme) :
    Lexeme.Delimited ⟨terminal, lexeme, place⟩ := by
  intro hname
  obtain ⟨hterminal, hletters⟩ := Bool.and_eq_true_iff.mp hname
  cases terminal with
  | name =>
      rw [lexeme?] at h
      split at h
      · cases h
      · exact stops_of_nameFrom h
  | blockName => exact stops_of_nameFrom h
  | index =>
      rcases index_cases h with hname | ⟨-, hnumber⟩
      · exact stops_of_nameFrom hname
      · -- A number is no name.
        rw [(takeWhile_of_runOf hnumber).1, List.all_takeWhile] at hletters
        cases hletters
  | _ => cases hterminal

end Terminal

/-! ## Choices between terminals -/

namespace Reading

theorem firstMatch_of_basic {edition : Edition} (basic : edition.isExtended = false)
    (text : List Char) (acceptable : List Terminal) :
    firstMatch edition text acceptable = firstMatch .classic text acceptable := by
  induction acceptable with
  | nil => rfl
  | cons terminal others ih =>
      rw [firstMatch, firstMatch, Terminal.lexeme?_of_basic basic terminal text, ih]

theorem exists_of_firstMatch {edition : Edition} {text lexeme : List Char}
    {acceptable : List Terminal} {terminal : Terminal}
    (h : firstMatch edition text acceptable = some (terminal, lexeme)) :
    terminal ∈ acceptable ∧ terminal.lexeme? edition text = some lexeme := by
  induction acceptable with
  | nil => cases h
  | cons first others ih =>
      rw [firstMatch] at h
      split at h
      · rename_i found hfirst
        cases h
        exact ⟨List.mem_cons_self, hfirst⟩
      · obtain ⟨hmem, hterminal⟩ := ih h
        exact ⟨List.mem_cons_of_mem first hmem, hterminal⟩

/-- Whether the editions choose alike between terminals, as far as a text is basic Latin: there is
no choice, or each of them is plain. -/
def isUniform (acceptable : List Terminal) : Bool :=
  decide (acceptable.length ≤ 1) || acceptable.all Terminal.isPlain

theorem firstMatch_full_of_plain {acceptable : List Terminal}
    (plain : acceptable.all Terminal.isPlain = true) {place : Cursor}
    (basic : startsBasic place.rest = true) {terminal : Terminal} {lexeme : List Char}
    (h : firstMatch .classic place.rest acceptable = some (terminal, lexeme))
    (delimited : Lexeme.Delimited ⟨terminal, lexeme, place⟩) :
    firstMatch .full place.rest acceptable = some (terminal, lexeme) := by
  induction acceptable with
  | nil => cases h
  | cons first others ih =>
      obtain ⟨hfirst, hothers⟩ := Bool.and_eq_true_iff.mp plain
      rw [firstMatch] at h ⊢
      cases hfound : first.lexeme? .classic place.rest with
      | none =>
          rw [hfound] at h
          rw [Terminal.lexeme?_full_eq_none hfirst basic hfound]
          exact ih hothers h
      | some found =>
          rw [hfound] at h
          cases h
          rw [Terminal.lexeme?_full_of_delimited hfound delimited]

/-- In front of a blank or a separator the full edition chooses the same terminal. -/
theorem firstMatch_full_of_delimited {acceptable : List Terminal}
    (uniform : isUniform acceptable = true) {place : Cursor} {terminal : Terminal}
    {lexeme : List Char}
    (h : firstMatch .classic place.rest acceptable = some (terminal, lexeme))
    (delimited : Lexeme.Delimited ⟨terminal, lexeme, place⟩) :
    firstMatch .full place.rest acceptable = some (terminal, lexeme) := by
  obtain ⟨hmem, hterminal⟩ := exists_of_firstMatch h
  rcases Bool.or_eq_true_iff.mp uniform with hsingle | hplain
  · have hlength : acceptable.length ≤ 1 := of_decide_eq_true hsingle
    have honly : acceptable = [terminal] := by
      match acceptable, hmem, hlength with
      | [only], hmem, _ => rw [List.mem_singleton.mp hmem]
    rw [honly, firstMatch, Terminal.lexeme?_full_of_delimited hterminal delimited]
  · have hbasic := Terminal.startsBasic_of_lexeme? (List.all_eq_true.mp hplain _ hmem) hterminal
    exact firstMatch_full_of_plain hplain hbasic h delimited

end Reading

end QuantFamily.Language
