import QuantFamily.Proofs.Language.Lexemes
import QuantFamily.Proofs.Session.Calculus

/-!
# Reading a text in the full edition

Reading goes through the same steps in every edition; only the terminals differ. So a step of the
full edition repeats the step of another one as long as each terminal is the same, which it is if
the names are followed by a blank or a separator. The comparison is made for a single terminal and
carried from there through all the rules of the language to whole texts.
-/

namespace QuantFamily.Language

namespace Progress

/-- Every name read so far is followed by a blank, a separator or the end of the text. -/
def Delimited (p : Progress) : Prop :=
  ∀ l ∈ p.lexemes, l.Delimited

theorem Delimited.of_suffix {p q : Progress} (h : q.Delimited) (suffix : p.lexemes <:+ q.lexemes) :
    p.Delimited :=
  fun l hl => h l (suffix.subset hl)

/-- Where reading is behind a terminal. -/
def past (p : Progress) (terminal : Terminal) (lexeme : List Char) : Progress :=
  { cursor := p.cursor.settle.skip lexeme.length
    lexemes :=
      if terminal = .finish then p.lexemes
      else ⟨terminal, lexeme, p.cursor.settle⟩ :: p.lexemes
    done := p.pending.toList ++ p.done
    pending := none }

theorem lexemes_suffix_past (p : Progress) (terminal : Terminal) (lexeme : List Char) :
    p.lexemes <:+ (p.past terminal lexeme).lexemes := by
  unfold past
  split
  · exact List.suffix_refl _
  · exact List.suffix_cons _ _

theorem delimited_past_iff {p : Progress} {terminal : Terminal} {lexeme : List Char} :
    (p.past terminal lexeme).Delimited ↔
      p.Delimited ∧ Lexeme.Delimited ⟨terminal, lexeme, p.cursor.settle⟩ := by
  unfold past Delimited
  split
  · rename_i hfinish
    subst hfinish
    exact ⟨fun h => ⟨h, nofun⟩, fun h => h.1⟩
  · rw [List.forall_mem_cons, and_comm]

end Progress

namespace Reading

variable {α β : Type} {edition : Edition}

theorem run_next_of_some {acceptable : List Terminal} {p : Progress} {terminal : Terminal}
    {lexeme : List Char}
    (h : firstMatch edition p.cursor.settle.rest acceptable = some (terminal, lexeme)) :
    next edition acceptable p = .ok (terminal, String.ofList lexeme) (p.past terminal lexeme) := by
  unfold next
  rw [run_bind_of_ok (show (get : Reading Progress) p = .ok p p from rfl), h]
  rfl

theorem run_next_of_none {acceptable : List Terminal} {p : Progress}
    (h : firstMatch edition p.cursor.settle.rest acceptable = none) :
    ∃ place, next edition acceptable p = .error place p := by
  unfold next
  rw [run_bind_of_ok (show (get : Reading Progress) p = .ok p p from rfl), h]
  exact ⟨_, rfl⟩

theorem exists_of_run_next {acceptable : List Terminal} {p q : Progress}
    {found : Terminal × String} (run : next edition acceptable p = .ok found q) :
    ∃ terminal lexeme,
      firstMatch edition p.cursor.settle.rest acceptable = some (terminal, lexeme) ∧
        found = (terminal, String.ofList lexeme) ∧ q = p.past terminal lexeme := by
  cases hmatch : firstMatch edition p.cursor.settle.rest acceptable with
  | none =>
      obtain ⟨place, hnone⟩ := run_next_of_none hmatch
      cases hnone.symm.trans run
  | some entry =>
      cases (run_next_of_some hmatch).symm.trans run
      exact ⟨entry.1, entry.2, rfl, rfl, rfl⟩

/-! ## Steps compared -/

/-- Where a run has ended, well or not. -/
def ended : EStateM.Result (Nat × Nat) Progress α → Progress
  | .ok _ q => q
  | .error _ q => q

/-- How a step of reading compares with the step of the full edition. -/
structure Agrees (step full : Reading α) : Prop where
  /-- What has been read stays read. -/
  grows : ∀ {p q : Progress} {a : α}, step p = .ok a q → p.lexemes <:+ q.lexemes
  /-- If all names are delimited, the full edition reads the same. -/
  same : ∀ {p q : Progress} {a : α}, step p = .ok a q → q.Delimited → full p = .ok a q
  /-- In the full edition all names are delimited. -/
  delimits : ∀ {p : Progress}, p.Delimited → (ended (full p)).Delimited

namespace Agrees

/-- A step that reads nothing is the same in all editions. -/
theorem of_still {step : Reading α} (still : ∀ p, (ended (step p)).lexemes = p.lexemes) :
    Agrees step step where
  grows {p q a} run := by
    have hkept := still p
    rw [run] at hkept
    exact hkept ▸ List.suffix_refl _
  same run _ := run
  delimits {p} h l hl := by
    rw [still p] at hl
    exact h l hl

theorem pure (a : α) : Agrees (Pure.pure a) (Pure.pure a) :=
  of_still fun _ => rfl

theorem bind {step full : Reading α} {next next' : α → Reading β} (first : Agrees step full)
    (second : ∀ a, Agrees (next a) (next' a)) : Agrees (step >>= next) (full >>= next') where
  grows run := by
    obtain ⟨a, q, hstep, hnext⟩ := exists_of_run_bind run
    exact (first.grows hstep).trans ((second a).grows hnext)
  same run delimited := by
    obtain ⟨a, q, hstep, hnext⟩ := exists_of_run_bind run
    -- The names of the first step are among those at the end.
    have hmiddle := delimited.of_suffix ((second a).grows hnext)
    rw [run_bind_of_ok (first.same hstep hmiddle)]
    exact (second a).same hnext delimited
  delimits {p} h := by
    have hfirst := first.delimits h
    change (ended (EStateM.bind full next' p)).Delimited
    unfold EStateM.bind
    cases hfull : full p with
    | ok a q =>
        rw [hfull] at hfirst
        exact (second a).delimits hfirst
    | error place q =>
        rw [hfull] at hfirst
        exact hfirst

end Agrees

/-! ## Terminals -/

section Agreement

variable (basic : edition.isExtended = false)
include basic

theorem next_agrees {acceptable : List Terminal} (uniform : isUniform acceptable = true) :
    Agrees (next edition acceptable) (next .full acceptable) where
  grows {p q a} run := by
    obtain ⟨terminal, lexeme, -, -, rfl⟩ := exists_of_run_next run
    exact p.lexemes_suffix_past terminal lexeme
  same {p q a} run delimited := by
    obtain ⟨terminal, lexeme, hmatch, rfl, rfl⟩ := exists_of_run_next run
    rw [firstMatch_of_basic basic] at hmatch
    have hname := (Progress.delimited_past_iff.mp delimited).2
    exact run_next_of_some (firstMatch_full_of_delimited uniform hmatch hname)
  delimits {p} h := by
    cases hmatch : firstMatch .full p.cursor.settle.rest acceptable with
    | none =>
        obtain ⟨place, hnone⟩ := run_next_of_none hmatch
        rw [hnone]
        exact h
    | some entry =>
        have hname := Terminal.delimited_of_lexeme?_full (exists_of_firstMatch hmatch).2
        rw [run_next_of_some hmatch]
        exact Progress.delimited_past_iff.mpr ⟨h, hname⟩

theorem text_agrees (terminal : Terminal) : Agrees (text edition terminal) (text .full terminal) :=
  (next_agrees basic rfl).bind fun _ => .pure _

theorem expect_agrees (word : String) : Agrees (expect edition word) (expect .full word) :=
  (next_agrees basic rfl).bind fun _ => .pure _

omit basic in
theorem reject_agrees : Agrees (reject : Reading α) reject :=
  .of_still fun _ => rfl

omit basic in
theorem bound_agrees : Agrees bound bound :=
  .of_still fun _ => rfl

omit basic in
theorem await_agrees (statement : Statement) : Agrees (await statement) (await statement) :=
  .of_still fun _ => rfl

/-! ## Expressions, indices and conditions -/

theorem expressionFrom_agrees (start : Terminal × String) :
    Agrees (expressionFrom edition start) (expressionFrom .full start) := by
  unfold expressionFrom
  split
  · exact (text_agrees basic _).bind fun _ => (expect_agrees basic _).bind fun _ => .pure _
  · exact .pure _

theorem expression_agrees : Agrees (expression edition) (expression .full) :=
  (next_agrees basic (by decide)).bind (expressionFrom_agrees basic)

theorem limit_agrees : Agrees (limit edition) (limit .full) :=
  (next_agrees basic (by decide)).bind (expressionFrom_agrees basic)

theorem indicesFrom_agrees {closing : String}
    (uniform : isUniform [.word closing, .word ","] = true) (fuel : Nat) (found : List String) :
    Agrees (indicesFrom edition closing fuel found) (indicesFrom .full closing fuel found) := by
  induction fuel generalizing found with
  | zero => exact reject_agrees
  | succ fuel ih =>
      refine (next_agrees basic uniform).bind fun _ => ?_
      split
      · exact (text_agrees basic _).bind fun _ => ih _
      · exact .pure _

theorem bracketedIndices_agrees : Agrees (bracketedIndices edition) (bracketedIndices .full) :=
  (text_agrees basic _).bind fun _ => bound_agrees.bind fun _ =>
    indicesFrom_agrees basic (by decide) _ _

theorem rangesFrom_agrees (indices : List String) :
    Agrees (rangesFrom edition indices) (rangesFrom .full indices) :=
  (limit_agrees basic).bind fun _ => (expect_agrees basic _).bind fun _ =>
    (limit_agrees basic).bind fun _ => .pure _

theorem variableRanges_agrees (fuel : Nat) (found : List Condition) :
    Agrees (variableRanges edition fuel found) (variableRanges .full fuel found) := by
  induction fuel generalizing found with
  | zero => exact reject_agrees
  | succ fuel ih =>
      refine (text_agrees basic _).bind fun _ => bound_agrees.bind fun _ => ?_
      refine (indicesFrom_agrees basic (by decide) _ _).bind fun _ => ?_
      refine (rangesFrom_agrees basic _).bind fun _ => ?_
      refine (next_agrees basic (by decide)).bind fun _ => ?_
      split
      · exact ih _
      · exact .pure _

theorem condition_agrees : Agrees (condition edition) (condition .full) := by
  refine (next_agrees basic (by decide)).bind fun _ => ?_
  split
  · refine (next_agrees basic (by decide)).bind fun _ => ?_
    split
    · exact (expression_agrees basic).bind fun _ => .pure _
    · exact (text_agrees basic _).bind fun _ => bound_agrees.bind fun _ =>
        (indicesFrom_agrees basic (by decide) _ _).bind (rangesFrom_agrees basic)
    · exact rangesFrom_agrees basic _
  · exact (expressionFrom_agrees basic _).bind fun _ => .pure _

theorem conditions_agrees (fuel : Nat) (found : List Condition) :
    Agrees (conditions edition fuel found) (conditions .full fuel found) := by
  induction fuel generalizing found with
  | zero => exact reject_agrees
  | succ fuel ih =>
      refine (condition_agrees basic).bind fun _ => (next_agrees basic (by decide)).bind fun _ => ?_
      split
      · exact ih _
      · exact .pure _

theorem indicesAnd_agrees {words : List String}
    (uniform : isUniform (words.map Terminal.word ++ [.word "("]) = true)
    (uniform' : isUniform (words.map Terminal.word) = true) :
    Agrees (indicesAnd edition words) (indicesAnd .full words) := by
  refine (next_agrees basic uniform).bind fun _ => ?_
  split
  · exact (bracketedIndices_agrees basic).bind fun _ =>
      (next_agrees basic uniform').bind fun _ => .pure _
  · exact .pure _

/-! ## Blocks -/

theorem brick_agrees : Agrees (brick edition) (brick .full) := by
  refine (next_agrees basic (by decide)).bind fun _ => ?_
  split
  · exact (text_agrees basic _).bind fun _ => (next_agrees basic (by decide)).bind fun _ => .pure _
  · exact (next_agrees basic (by decide)).bind fun _ =>
      (indicesAnd_agrees basic (by decide) (by decide)).bind fun _ => .pure _
  · exact (indicesAnd_agrees basic (by decide) (by decide)).bind fun _ => .pure _

theorem bricks_agrees (fuel : Nat) (found : List Brick) :
    Agrees (bricks edition fuel found) (bricks .full fuel found) := by
  induction fuel generalizing found with
  | zero => exact reject_agrees
  | succ fuel ih =>
      refine (brick_agrees basic).bind fun (brick, stop) => ?_
      dsimp only
      split
      · exact ih _
      · exact .pure _

theorem definition_agrees (name : String) :
    Agrees (definition edition name) (definition .full name) :=
  (indicesAnd_agrees basic (by decide) (by decide)).bind fun _ => bound_agrees.bind fun _ =>
    (bricks_agrees basic _ _).bind fun _ => .pure _

theorem definitions_agrees (fuel : Nat) (found : List Definition) :
    Agrees (definitions edition fuel found) (definitions .full fuel found) := by
  induction fuel generalizing found with
  | zero => exact reject_agrees
  | succ fuel ih =>
      refine (next_agrees basic (by decide)).bind fun _ => ?_
      split
      · exact (definition_agrees basic _).bind fun _ => ih _
      · exact .pure _

theorem attributeSign_agrees (words : Terminal) :
    Agrees (attributeSign edition words) (attributeSign .full words) :=
  (text_agrees basic _).bind fun _ => (expect_agrees basic _).bind fun _ => .pure _

theorem furtherBlocks_agrees (fuel : Nat) (found : List (String × List String)) :
    Agrees (furtherBlocks edition fuel found) (furtherBlocks .full fuel found) := by
  induction fuel generalizing found with
  | zero => exact reject_agrees
  | succ fuel ih =>
      refine (text_agrees basic _).bind fun _ => ?_
      refine (indicesAnd_agrees basic (by decide) (by decide)).bind fun (indices, stop) => ?_
      dsimp only
      split
      · exact ih _
      · exact .pure _

theorem severalBlocks_agrees : Agrees (severalBlocks edition) (severalBlocks .full) := by
  refine (next_agrees basic (by decide)).bind fun _ => ?_
  extract_lets fromFirst fromFirst'
  have hfromFirst : ∀ grouping, Agrees (fromFirst grouping) (fromFirst' grouping) := by
    intro grouping
    refine (text_agrees basic _).bind fun _ => bound_agrees.bind fun _ => ?_
    refine (definition_agrees basic _).bind fun _ => (definitions_agrees basic _ _).bind fun _ => ?_
    refine (next_agrees basic (by decide)).bind fun _ => ?_
    split
    · exact bound_agrees.bind fun _ => (conditions_agrees basic _ _).bind fun _ => .pure _
    · exact .pure _
  split
  · exact (text_agrees basic _).bind fun _ => (expect_agrees basic _).bind fun _ => hfromFirst _
  · exact hfromFirst _

theorem blockStatement_agrees (start : Terminal) :
    Agrees (blockStatement edition start) (blockStatement .full start) := by
  unfold blockStatement
  split
  · exact (text_agrees basic _).bind fun _ => (definition_agrees basic _).bind fun _ => .pure _
  · exact severalBlocks_agrees basic
  · exact (text_agrees basic _).bind fun _ =>
      (indicesAnd_agrees basic (by decide) (by decide)).bind fun _ =>
        (attributeSign_agrees basic _).bind fun _ => .pure _
  · exact (text_agrees basic _).bind fun _ =>
      (indicesAnd_agrees basic (by decide) (by decide)).bind fun _ => bound_agrees.bind fun _ =>
        (furtherBlocks_agrees basic _ _).bind fun _ =>
          (attributeSign_agrees basic _).bind fun _ => .pure _
  · exact (text_agrees basic _).bind fun _ => (next_agrees basic (by decide)).bind fun _ =>
      (attributeSign_agrees basic _).bind fun _ => .pure _

theorem blockStatements_agrees (fuel : Nat) :
    Agrees (blockStatements edition fuel) (blockStatements .full fuel) := by
  induction fuel with
  | zero => exact reject_agrees
  | succ fuel ih =>
      refine (next_agrees basic (by decide)).bind fun _ => ?_
      split
      · exact .pure _
      · exact (blockStatement_agrees basic _).bind fun _ => (await_agrees _).bind fun _ => ih

theorem blockPart_agrees : Agrees (blockPart edition) (blockPart .full) := by
  refine (expect_agrees basic _).bind fun _ => (next_agrees basic (by decide)).bind fun _ => ?_
  refine (blockStatement_agrees basic _).bind fun _ => (await_agrees _).bind fun _ => ?_
  refine (next_agrees basic (by decide)).bind fun _ => ?_
  split
  · exact reject_agrees
  · exact (blockStatement_agrees basic _).bind fun _ => (await_agrees _).bind fun _ =>
      bound_agrees.bind fun _ => blockStatements_agrees basic _

/-! ## Declarations and families -/

theorem constraints_agrees (fuel : Nat) (found : List String) :
    Agrees (constraints edition fuel found) (constraints .full fuel found) := by
  induction fuel generalizing found with
  | zero => exact reject_agrees
  | succ fuel ih =>
      refine (next_agrees basic (by decide)).bind fun _ => ?_
      split
      · exact (expression_agrees basic).bind fun _ => ih _
      · exact .pure _

theorem parameter_agrees (name : String) :
    Agrees (parameter edition name) (parameter .full name) :=
  (expect_agrees basic _).bind fun _ => (text_agrees basic _).bind fun _ =>
    bound_agrees.bind fun _ => (constraints_agrees basic _ _).bind fun _ => .pure _

theorem vars_agrees (name : String) : Agrees (vars edition name) (vars .full name) := by
  refine (next_agrees basic (by decide)).bind fun _ => ?_
  split
  · refine (bracketedIndices_agrees basic).bind fun _ => ?_
    refine (next_agrees basic (by decide)).bind fun _ => ?_
    split
    · exact bound_agrees.bind fun _ => (variableRanges_agrees basic _ _).bind fun _ => .pure _
    · exact .pure _
  · exact .pure _

theorem declarations_agrees {declaration declaration' : String → Reading Statement}
    (h : ∀ name, Agrees (declaration name) (declaration' name)) (fuel : Nat) :
    Agrees (declarations edition declaration fuel) (declarations .full declaration' fuel) := by
  induction fuel with
  | zero => exact reject_agrees
  | succ fuel ih =>
      refine (next_agrees basic (by decide)).bind fun _ => ?_
      split
      · exact (h _).bind fun _ => (await_agrees _).bind fun _ => ih
      · exact .pure _

theorem declarationPart_agrees {declaration declaration' : String → Reading Statement}
    (h : ∀ name, Agrees (declaration name) (declaration' name)) :
    Agrees (declarationPart edition declaration) (declarationPart .full declaration') :=
  (expect_agrees basic _).bind fun _ => (text_agrees basic _).bind fun name =>
    (h name).bind fun _ => (await_agrees _).bind fun _ => bound_agrees.bind fun _ =>
      declarations_agrees basic h _

theorem family_agrees : Agrees (family edition) (family .full) := by
  refine (text_agrees basic _).bind fun _ => (expect_agrees basic _).bind fun _ => ?_
  refine (await_agrees _).bind fun _ => (expect_agrees basic _).bind fun _ => ?_
  refine (text_agrees basic _).bind fun _ => (expect_agrees basic _).bind fun _ => ?_
  refine (await_agrees _).bind fun _ => (next_agrees basic (by decide)).bind fun _ => ?_
  extract_lets fromVariables fromVariables'
  have hfromVariables : ∀ u, Agrees (fromVariables u) (fromVariables' u) := by
    intro u
    refine (declarationPart_agrees basic (vars_agrees basic)).bind fun _ => ?_
    refine (expect_agrees basic _).bind fun _ => (blockPart_agrees basic).bind fun _ => ?_
    refine (expect_agrees basic _).bind fun _ => (text_agrees basic _).bind fun _ => ?_
    refine (indicesAnd_agrees basic (by decide) (by decide)).bind fun _ => ?_
    exact (await_agrees _).bind fun _ => (next_agrees basic rfl).bind fun _ => .pure _
  split
  · refine (declarationPart_agrees basic (parameter_agrees basic)).bind fun _ => ?_
    exact (expect_agrees basic _).bind hfromVariables
  · exact hfromVariables ()

theorem whole_agrees (fuel : Nat) : Agrees (whole edition fuel) (whole .full fuel) := by
  induction fuel with
  | zero => exact reject_agrees
  | succ fuel ih =>
      refine (next_agrees basic (by decide)).bind fun _ => ?_
      split
      · refine (text_agrees basic _).bind fun _ => (expect_agrees basic _).bind fun _ => ?_
        refine (expression_agrees basic).bind fun _ => (expect_agrees basic _).bind fun _ => ?_
        exact (await_agrees _).bind fun _ => ih
      · exact .pure _
      · exact family_agrees basic

end Agreement

end Reading

/-! ## Texts -/

/-- Where reading a text begins. -/
def Progress.start (text : String) : Progress :=
  { cursor := { rest := text.toList } }

/-- The terminals of a text as far as it can be read, in order. -/
def lexemes (edition : Edition) (text : String) : List Lexeme :=
  (Reading.ended (Reading.whole edition (text.toList.length + 1) (.start text))).lexemes.reverse

theorem lexemes_of_toList {edition : Edition} {text : String} {chars : List Char}
    (h : text.toList = chars) :
    lexemes edition text =
      (Reading.ended (Reading.whole edition (chars.length + 1)
        { cursor := { rest := chars } })).lexemes.reverse := by
  subst h
  rfl

theorem Script.read_of_run {edition : Edition} {text : String} {p : Progress}
    (run : Reading.whole edition (text.toList.length + 1) (.start text) = .ok () p) :
    Script.read edition text = ⟨p.done.reverse, none⟩ := by
  have hrun : Reading.whole edition (text.toList.length + 1)
      { cursor := { rest := text.toList } } = .ok () p := run
  rw [Script.read, EStateM.run, hrun]

/-- Behind a text that can be read to its end is a run that ends well. -/
theorem exists_run_of_stop_eq_none {edition : Edition} {text : String}
    (complete : (Script.read edition text).stop = none) :
    ∃ p, Reading.whole edition (text.toList.length + 1) (.start text) = .ok () p := by
  cases run : Reading.whole edition (text.toList.length + 1) (.start text) with
  | ok u p => exact ⟨p, rfl⟩
  | error place p =>
      have hrun : Reading.whole edition (text.toList.length + 1)
          { cursor := { rest := text.toList } } = .error place p := run
      rw [Script.read, EStateM.run, hrun] at complete
      cases complete

theorem lexemes_full_delimited (text : String) : ∀ l ∈ lexemes .full text, l.Delimited := by
  have hstart : (Progress.start text).Delimited := nofun
  have hclassic : Edition.classic.isExtended = false := rfl
  have hends := (Reading.whole_agrees hclassic (text.toList.length + 1)).delimits hstart
  exact fun l hl => hends l (List.mem_reverse.mp hl)

section Complete

variable {edition : Edition} {text : String} (basic : edition.isExtended = false)
  (complete : (Script.read edition text).stop = none)
include basic complete

/-- A text whose names are delimited is read alike in the full edition. -/
theorem read_full_of_delimited (delimited : ∀ l ∈ lexemes edition text, l.Delimited) :
    Script.read .full text = Script.read edition text ∧
      lexemes .full text = lexemes edition text := by
  obtain ⟨p, run⟩ := exists_run_of_stop_eq_none complete
  have hlexemes : lexemes edition text = p.lexemes.reverse := by rw [lexemes, run, Reading.ended]
  have hdelimited : p.Delimited := fun l hl =>
    delimited l (hlexemes ▸ List.mem_reverse.mpr hl)
  have hfull := (Reading.whole_agrees basic _).same run hdelimited
  constructor
  · rw [Script.read_of_run hfull, Script.read_of_run run]
  · rw [hlexemes, lexemes, hfull, Reading.ended]

/-- The full edition divides a text into the same terminals exactly if its names are delimited. -/
theorem lexemes_full_eq_iff :
    lexemes .full text = lexemes edition text ↔ ∀ l ∈ lexemes edition text, l.Delimited := by
  constructor
  · intro heq
    rw [← heq]
    exact lexemes_full_delimited text
  · exact fun delimited => (read_full_of_delimited basic complete delimited).2

end Complete

end QuantFamily.Language
