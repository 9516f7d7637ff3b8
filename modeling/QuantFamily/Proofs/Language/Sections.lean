import QuantFamily.Language.Interpret
import QuantFamily.Proofs.Session.Calculus

/-!
# The order of the statements of a text

A text gives values first; then come the name of the family, its format, the parameters, the
variables, the blocks with their attributes, and the output block. Reading goes through these parts
in this order, so the statements of every text are in it, also if the text breaks off or goes wrong
somewhere. In particular no variable is declared once a block has been defined.
-/

namespace QuantFamily.Language

/-- The part of a text that a statement belongs to. -/
def Statement.part : Statement → Nat
  | .value _ _ => 0
  | .family _ => 1
  | .format _ => 2
  | .parameter _ _ _ => 3
  | .vars _ _ _ => 4
  | .blocks _ _ _ => 5
  | .mark _ _ => 5
  | .markGrouping _ _ => 5
  | .output _ _ => 6

/-- No statement belongs to an earlier part than one before it. -/
def InOrder (statements : List Statement) : Prop :=
  statements.Pairwise fun first second => first.part ≤ second.part

/-- Statements in order fall into those up to a part and those behind it. -/
theorem InOrder.split {statements : List Statement} (h : InOrder statements) (part : Nat) :
    ∃ before after, statements = before ++ after ∧
      (∀ statement ∈ before, statement.part ≤ part) ∧
        ∀ statement ∈ after, part < statement.part := by
  induction statements with
  | nil => exact ⟨[], [], rfl, by simp, by simp⟩
  | cons first rest ih =>
      obtain ⟨hfirst, hrest⟩ := List.pairwise_cons.mp h
      by_cases hpart : first.part ≤ part
      · obtain ⟨before, after, rfl, hbefore, hafter⟩ := ih hrest
        exact ⟨first :: before, after, rfl, List.forall_mem_cons.mpr ⟨hpart, hbefore⟩, hafter⟩
      · rw [Nat.not_le] at hpart
        refine ⟨[], first :: rest, rfl, by simp, List.forall_mem_cons.mpr ⟨hpart, ?_⟩⟩
        exact fun statement hst => Nat.lt_of_lt_of_le hpart (hfirst statement hst)

namespace Progress

/-- The statements so far, the one that waits included. -/
def statements (p : Progress) : List Statement :=
  p.done.reverse ++ p.pending.toList

/-- Reading has gone through the parts in order and not beyond the given one. -/
structure UpTo (part : Nat) (p : Progress) : Prop where
  inOrder : InOrder p.statements
  bounded : ∀ statement ∈ p.statements, statement.part ≤ part

theorem UpTo.of_statements {p q : Progress} {part : Nat} (h : p.UpTo part)
    (same : q.statements = p.statements) : q.UpTo part :=
  ⟨same ▸ h.inOrder, same ▸ h.bounded⟩

theorem UpTo.await {p : Progress} {part : Nat} (h : p.UpTo part) {statement : Statement}
    (later : part ≤ statement.part) : UpTo statement.part { p with pending := some statement } := by
  have hdone : ∀ earlier ∈ p.done.reverse, earlier.part ≤ part := fun earlier hearlier =>
    h.bounded earlier (List.mem_append_left _ hearlier)
  refine ⟨List.pairwise_append.mpr ⟨?_, List.pairwise_singleton _ _, ?_⟩, ?_⟩
  · exact h.inOrder.sublist (List.sublist_append_left _ _)
  · intro earlier hearlier last hlast
    rw [Option.toList_some, List.mem_singleton] at hlast
    exact hlast ▸ Nat.le_trans (hdone earlier hearlier) later
  · intro other hother
    rcases List.mem_append.mp hother with hother | hother
    · exact Nat.le_trans (hdone other hother) later
    · rw [Option.toList_some, List.mem_singleton] at hother
      exact Nat.le_of_eq (congrArg Statement.part hother)

end Progress

namespace Reading

variable {α β : Type} {edition : Edition} {part between later : Nat} {P : α → Prop} {Q : β → Prop}

/-- Reading that starts in a part ends in a later one, with a result that has the property, unless
it stops short. -/
def Goes (part : Nat) (step : Reading α) (P : α → Prop) (later : Nat) : Prop :=
  ∀ p : Progress, p.UpTo part → match step p with
    | .ok a q => P a ∧ q.UpTo later
    | .error _ q => InOrder q.statements

namespace Goes

theorem pure {a : α} (h : P a) : Goes part (Pure.pure a) P part :=
  fun _ hp => ⟨h, hp⟩

theorem bind {step : Reading α} {next : α → Reading β} (first : Goes part step P between)
    (second : ∀ a, P a → Goes between (next a) Q later) : Goes part (step >>= next) Q later := by
  intro p hp
  have hfirst := first p hp
  change match (EStateM.bind step next) p with
    | .ok b q => Q b ∧ q.UpTo later
    | .error _ q => InOrder q.statements
  unfold EStateM.bind
  cases run : step p with
  | ok a q =>
      rw [run] at hfirst
      exact second a hfirst.1 q hfirst.2
  | error place q =>
      rw [run] at hfirst
      exact hfirst

theorem mono {step : Reading α} (h : Goes between step P later) (hle : part ≤ between) :
    Goes part step P later :=
  fun p hp => h p ⟨hp.inOrder, fun statement hst => Nat.le_trans (hp.bounded statement hst) hle⟩

/-- A statement of the next part waits. -/
theorem await (statement : Statement) (h : part ≤ statement.part) {rest : Unit → Reading α}
    (second : Goes statement.part (rest ()) P later) :
    Goes part (await statement >>= rest) P later :=
  bind (P := fun _ => True) (fun _ hp => ⟨trivial, hp.await h⟩) fun _ _ => second

end Goes

/-- A step of reading that completes no statement of its own. -/
def Quiet (step : Reading α) : Prop :=
  ∀ part, Goes part step (fun _ => True) part

namespace Quiet

theorem pure {a : α} : Quiet (Pure.pure a) :=
  fun _ => Goes.pure trivial

theorem bind {step : Reading α} {next : α → Reading β} (first : Quiet step)
    (second : ∀ a, Quiet (next a)) : Quiet (step >>= next) :=
  fun part => (first part).bind fun a _ => second a part

/-- A quiet step before others. -/
theorem andThen {step : Reading α} {next : α → Reading β} (first : Quiet step)
    (second : ∀ a, Goes part (next a) Q later) : Goes part (step >>= next) Q later :=
  (first part).bind fun a _ => second a

end Quiet

/-! ## Terminals -/

theorem next_quiet (acceptable : List Terminal) : Quiet (next edition acceptable) := by
  intro part p hp
  unfold next
  rw [run_bind_of_ok (show (get : Reading Progress) p = .ok p p from rfl)]
  cases firstMatch edition p.cursor.settle.rest acceptable with
  | none => exact hp.inOrder
  | some found =>
      -- The statement that has waited moves over to those that are done.
      refine ⟨trivial, hp.of_statements ?_⟩
      cases hpending : p.pending <;> simp [Progress.statements, hpending]

theorem text_quiet (terminal : Terminal) : Quiet (text edition terminal) :=
  (next_quiet _).bind fun _ => .pure

theorem expect_quiet (word : String) : Quiet (expect edition word) :=
  (next_quiet _).bind fun _ => .pure

theorem reject_quiet : Quiet (reject : Reading α) :=
  fun _ _ hp => hp.inOrder

theorem bound_quiet : Quiet bound :=
  fun _ _ hp => ⟨trivial, hp⟩

/-! ## Expressions, indices and conditions -/

theorem expressionFrom_quiet (start : Terminal × String) :
    Quiet (expressionFrom edition start) := by
  unfold expressionFrom
  split
  · exact (text_quiet _).bind fun _ => (expect_quiet _).bind fun _ => .pure
  · exact .pure

theorem expression_quiet : Quiet (expression edition) :=
  (next_quiet _).bind expressionFrom_quiet

theorem limit_quiet : Quiet (limit edition) :=
  (next_quiet _).bind expressionFrom_quiet

theorem indicesFrom_quiet (closing : String) (fuel : Nat) (found : List String) :
    Quiet (indicesFrom edition closing fuel found) := by
  induction fuel generalizing found with
  | zero => exact reject_quiet
  | succ fuel ih =>
      refine (next_quiet _).bind fun _ => ?_
      split
      · exact (text_quiet _).bind fun _ => ih _
      · exact .pure

theorem bracketedIndices_quiet : Quiet (bracketedIndices edition) :=
  (text_quiet _).bind fun _ => bound_quiet.bind fun _ => indicesFrom_quiet _ _ _

theorem rangesFrom_quiet (indices : List String) : Quiet (rangesFrom edition indices) :=
  limit_quiet.bind fun _ => (expect_quiet _).bind fun _ => limit_quiet.bind fun _ => .pure

theorem variableRanges_quiet (fuel : Nat) (found : List Condition) :
    Quiet (variableRanges edition fuel found) := by
  induction fuel generalizing found with
  | zero => exact reject_quiet
  | succ fuel ih =>
      refine (text_quiet _).bind fun _ => bound_quiet.bind fun _ => ?_
      refine (indicesFrom_quiet _ _ _).bind fun _ => (rangesFrom_quiet _).bind fun _ => ?_
      refine (next_quiet _).bind fun _ => ?_
      split
      · exact ih _
      · exact .pure

theorem condition_quiet : Quiet (condition edition) := by
  refine (next_quiet _).bind fun _ => ?_
  split
  · refine (next_quiet _).bind fun _ => ?_
    split
    · exact expression_quiet.bind fun _ => .pure
    · exact (text_quiet _).bind fun _ => bound_quiet.bind fun _ =>
        (indicesFrom_quiet _ _ _).bind rangesFrom_quiet
    · exact rangesFrom_quiet _
  · exact (expressionFrom_quiet _).bind fun _ => .pure

theorem conditions_quiet (fuel : Nat) (found : List Condition) :
    Quiet (conditions edition fuel found) := by
  induction fuel generalizing found with
  | zero => exact reject_quiet
  | succ fuel ih =>
      refine condition_quiet.bind fun _ => (next_quiet _).bind fun _ => ?_
      split
      · exact ih _
      · exact .pure

theorem indicesAnd_quiet (words : List String) : Quiet (indicesAnd edition words) := by
  refine (next_quiet _).bind fun _ => ?_
  split
  · exact bracketedIndices_quiet.bind fun _ => (next_quiet _).bind fun _ => .pure
  · exact .pure

/-! ## Blocks -/

theorem brick_quiet : Quiet (brick edition) := by
  refine (next_quiet _).bind fun _ => ?_
  split
  · exact (text_quiet _).bind fun _ => (next_quiet _).bind fun _ => .pure
  · exact (next_quiet _).bind fun _ => (indicesAnd_quiet _).bind fun _ => .pure
  · exact (indicesAnd_quiet _).bind fun _ => .pure

theorem bricks_quiet (fuel : Nat) (found : List Brick) : Quiet (bricks edition fuel found) := by
  induction fuel generalizing found with
  | zero => exact reject_quiet
  | succ fuel ih =>
      refine brick_quiet.bind fun ⟨brick, stop⟩ => ?_
      dsimp only
      split
      · exact ih _
      · exact .pure

theorem definition_quiet (name : String) : Quiet (definition edition name) :=
  (indicesAnd_quiet _).bind fun _ => bound_quiet.bind fun _ =>
    (bricks_quiet _ _).bind fun _ => .pure

theorem definitions_quiet (fuel : Nat) (found : List Definition) :
    Quiet (definitions edition fuel found) := by
  induction fuel generalizing found with
  | zero => exact reject_quiet
  | succ fuel ih =>
      refine (next_quiet _).bind fun _ => ?_
      split
      · exact (definition_quiet _).bind fun _ => ih _
      · exact .pure

theorem attributeSign_quiet (words : Terminal) : Quiet (attributeSign edition words) :=
  (text_quiet _).bind fun _ => (expect_quiet _).bind fun _ => .pure

theorem furtherBlocks_quiet (fuel : Nat) (found : List (String × List String)) :
    Quiet (furtherBlocks edition fuel found) := by
  induction fuel generalizing found with
  | zero => exact reject_quiet
  | succ fuel ih =>
      refine (text_quiet _).bind fun _ => (indicesAnd_quiet _).bind fun ⟨indices, stop⟩ => ?_
      dsimp only
      split
      · exact ih _
      · exact .pure

theorem severalBlocks_goes :
    Goes part (severalBlocks edition) (fun statement => statement.part = 5) part := by
  refine (next_quiet _).andThen fun _ => ?_
  extract_lets fromFirst
  have hfromFirst : ∀ grouping, Goes part (fromFirst grouping) (fun st => st.part = 5) part := by
    intro grouping
    refine (text_quiet _).andThen fun _ => bound_quiet.andThen fun _ => ?_
    refine (definition_quiet _).andThen fun _ => (definitions_quiet _ _).andThen fun _ => ?_
    refine (next_quiet _).andThen fun _ => ?_
    split
    · exact bound_quiet.andThen fun _ => (conditions_quiet _ _).andThen fun _ => .pure rfl
    · exact .pure rfl
  split
  · exact (text_quiet _).andThen fun _ => (expect_quiet _).andThen fun _ => hfromFirst _
  · exact hfromFirst _

theorem blockStatement_goes (start : Terminal) :
    Goes part (blockStatement edition start) (fun statement => statement.part = 5) part := by
  unfold blockStatement
  split
  · exact (text_quiet _).andThen fun _ => (definition_quiet _).andThen fun _ => .pure rfl
  · exact severalBlocks_goes
  · exact (text_quiet _).andThen fun _ => (indicesAnd_quiet _).andThen fun _ =>
      (attributeSign_quiet _).andThen fun _ => .pure rfl
  · exact (text_quiet _).andThen fun _ => (indicesAnd_quiet _).andThen fun _ =>
      bound_quiet.andThen fun _ => (furtherBlocks_quiet _ _).andThen fun _ =>
        (attributeSign_quiet _).andThen fun _ => .pure rfl
  · exact (text_quiet _).andThen fun _ => (next_quiet _).andThen fun _ =>
      (attributeSign_quiet _).andThen fun _ => .pure rfl

/-! ## Parts -/

/-- A statement of the next part is read and waits. -/
theorem Goes.thenAwait {step : Reading Statement} {rest : Unit → Reading α}
    (first : Goes part step (fun statement => statement.part = between) part)
    (h : part ≤ between) (second : Goes between (rest ()) P later) :
    Goes part (step >>= fun statement => Reading.await statement >>= rest) P later := by
  refine Goes.bind first fun statement hstatement => ?_
  subst hstatement
  exact Goes.await statement h second

theorem blockStatements_goes (fuel : Nat) :
    Goes 5 (blockStatements edition fuel) (fun _ => True) 5 := by
  induction fuel with
  | zero => exact reject_quiet 5
  | succ fuel ih =>
      refine (next_quiet _).andThen fun _ => ?_
      split
      · exact .pure trivial
      · exact (blockStatement_goes _).thenAwait (Nat.le_refl 5) ih

theorem blockPart_goes (h : part ≤ 5) : Goes part (blockPart edition) (fun _ => True) 5 := by
  refine (expect_quiet _).andThen fun _ => (next_quiet _).andThen fun _ => ?_
  refine (blockStatement_goes _).thenAwait h ((next_quiet _).andThen fun _ => ?_)
  split
  · exact reject_quiet 5
  · exact (blockStatement_goes _).thenAwait (Nat.le_refl 5)
      (bound_quiet.andThen fun _ => blockStatements_goes _)

theorem constraints_quiet (fuel : Nat) (found : List String) :
    Quiet (constraints edition fuel found) := by
  induction fuel generalizing found with
  | zero => exact reject_quiet
  | succ fuel ih =>
      refine (next_quiet _).bind fun _ => ?_
      split
      · exact expression_quiet.bind fun _ => ih _
      · exact .pure

theorem parameter_goes (name : String) :
    Goes part (parameter edition name) (fun statement => statement.part = 3) part :=
  (expect_quiet _).andThen fun _ => (text_quiet _).andThen fun _ => bound_quiet.andThen fun _ =>
    (constraints_quiet _ _).andThen fun _ => .pure rfl

theorem vars_goes (name : String) :
    Goes part (vars edition name) (fun statement => statement.part = 4) part := by
  refine (next_quiet _).andThen fun _ => ?_
  split
  · refine bracketedIndices_quiet.andThen fun _ => (next_quiet _).andThen fun _ => ?_
    split
    · exact bound_quiet.andThen fun _ => (variableRanges_quiet _ _).andThen fun _ => .pure rfl
    · exact .pure rfl
  · exact .pure rfl

section Declarations

variable {declaration : String → Reading Statement}

theorem declarations_goes
    (h : ∀ name, Goes part (declaration name) (fun statement => statement.part = part) part)
    (fuel : Nat) : Goes part (declarations edition declaration fuel) (fun _ => True) part := by
  induction fuel with
  | zero => exact reject_quiet part
  | succ fuel ih =>
      refine (next_quiet _).andThen fun _ => ?_
      split
      · exact (h _).thenAwait (Nat.le_refl part) ih
      · exact .pure trivial

theorem declarationPart_goes
    (h : ∀ start name,
      Goes start (declaration name) (fun statement => statement.part = later) start)
    (hle : part ≤ later) :
    Goes part (declarationPart edition declaration) (fun _ => True) later :=
  (expect_quiet _).andThen fun _ => (text_quiet _).andThen fun name =>
    (h part name).thenAwait hle (bound_quiet.andThen fun _ => declarations_goes (h later) _)

end Declarations

theorem family_goes : Goes 0 (family edition) (fun _ => True) 6 := by
  refine (text_quiet _).andThen fun name => (expect_quiet _).andThen fun _ => ?_
  refine Goes.await (.family name) (Nat.zero_le 1) ((expect_quiet _).andThen fun _ => ?_)
  refine (text_quiet _).andThen fun format => (expect_quiet _).andThen fun _ => ?_
  refine Goes.await (.format format) (Nat.le_succ 1) ((next_quiet _).andThen fun _ => ?_)
  extract_lets fromVariables
  have hfromVariables : ∀ u, Goes 3 (fromVariables u) (fun _ => True) 6 := by
    intro u
    refine (declarationPart_goes (fun _ => vars_goes) (Nat.le_succ 3)).bind fun _ _ => ?_
    refine (expect_quiet _).andThen fun _ => (blockPart_goes (Nat.le_succ 4)).bind fun _ _ => ?_
    refine (expect_quiet _).andThen fun _ => (text_quiet _).andThen fun output => ?_
    refine (indicesAnd_quiet _).andThen fun ⟨indices, _⟩ => ?_
    refine Goes.await (.output output indices) (Nat.le_succ 5) ?_
    exact (next_quiet _).andThen fun _ => .pure trivial
  split
  · refine (declarationPart_goes (fun _ => parameter_goes) (Nat.le_succ 2)).bind fun _ _ => ?_
    exact (expect_quiet _).andThen hfromVariables
  · exact (hfromVariables ()).mono (Nat.le_succ 2)

theorem whole_goes (edition : Edition) (fuel : Nat) :
    Goes 0 (whole edition fuel) (fun _ => True) 6 := by
  induction fuel with
  | zero => exact fun p hp => hp.inOrder
  | succ fuel ih =>
      refine (next_quiet _).andThen fun _ => ?_
      split
      · refine (text_quiet _).andThen fun name => (expect_quiet _).andThen fun _ => ?_
        refine expression_quiet.andThen fun value => (expect_quiet _).andThen fun _ => ?_
        exact Goes.await (.value name value) (Nat.le_refl 0) ih
      · exact fun p hp => ⟨trivial, hp.inOrder, fun st hst =>
          Nat.le_trans (hp.bounded st hst) (Nat.zero_le 6)⟩
      · exact family_goes

end Reading

/-- The statements of every text are in the order of the parts. -/
theorem Script.inOrder_read (edition : Edition) (text : String) :
    InOrder (Script.read edition text).statements := by
  have hstart : Progress.UpTo 0 { cursor := { rest := text.toList } } :=
    ⟨List.Pairwise.nil, by simp [Progress.statements]⟩
  have hrun := Reading.whole_goes edition (text.toList.length + 1) _ hstart
  unfold Script.read EStateM.run
  dsimp only
  split
  · rename_i progress run
    rw [run] at hrun
    exact hrun.2.inOrder.sublist (List.sublist_append_left _ _)
  · rename_i place progress run
    rw [run] at hrun
    exact hrun.sublist (List.sublist_append_left _ _)

/-- Reading goes by the characters of a text. -/
theorem Script.read_of_toList {edition : Edition} {text : String} {chars : List Char}
    (h : text.toList = chars) :
    Script.read edition text =
      match (Reading.whole edition (chars.length + 1)).run { cursor := { rest := chars } } with
      | .ok _ progress => { statements := progress.done.reverse, stop := none }
      | .error place progress =>
          { statements := progress.done.reverse, stop := some ⟨place, progress.pending⟩ } := by
  subst h
  rfl

/-- The full edition prints nothing of its own at the end of a text. -/
theorem run_interpret_full (verbose : Bool) (text : String) (s : Session) :
    interpret .full verbose text s =
      ((Script.read .full text).statements.forM (Statement.perform .full verbose) >>= fun _ =>
        pure (Script.read .full text).stop) s := by
  unfold interpret
  generalize Script.read .full text = script
  cases hstop : script.stop <;> simp [Edition.listsAfterwards]

end QuantFamily.Language
