import QuantFamily.Proofs.Language.Agreement
import QuantFamily.Proofs.Language.Sections
import QuantFamily.Proofs.Session.Follow
import QuantFamily.Proofs.Valuation.Queue

/-!
# Texts of the other editions

The full edition reads longer names than the others and knows more signs. A text of another edition
has the same terminals there exactly if each name ends at a blank or a separator, and it then gives
the same formula: the statements are the same, and a statement does the same to the formula in every
edition that knows its sign, whatever is printed on the way.
-/

namespace QuantFamily

/-! ## Operations -/

namespace Action

theorem say_follows (line line' : String) : Follows (say line) (say line') :=
  .outside (fun _ => ⟨_, rfl, rfl⟩) fun _ => ⟨_, rfl, rfl⟩

theorem setFormat_follows (word : String) : Follows (setFormat word) (setFormat word) := by
  unfold setFormat
  split
  · exact .update _
  · exact .throw _ _

theorem evaluate_follows (expression : String) (indices : Valuation) :
    Follows (evaluate expression indices) (evaluate expression indices) :=
  .bind .formula fun _ => .lift _

theorem addValue_follows (name expression : String) :
    Follows (addValue name expression) (addValue name expression) :=
  .bind (evaluate_follows expression {}) fun _ => .update _

theorem addParameter_follows (name kind : String) (constraints : List String) :
    Follows (addParameter name kind constraints) (addParameter name kind constraints) := by
  refine .bind (.bind .formula fun _ => .orElse _ _) fun value => ?_
  refine .bind (.mapM constraints fun c _ => evaluate_follows c {}) fun outcomes => ?_
  split
  · exact .throw _ _
  · exact .update _

theorem saveVariable_follows (name : String) : Follows (saveVariable name) (saveVariable name) := by
  refine .bind .formula fun φ => ?_
  split
  · exact .throw _ _
  · exact .update _

theorem addVariables_follows (name : String) (indices : List String) (ranges : List Condition) :
    Follows (addVariables name indices ranges) (addVariables name indices ranges) := by
  by_cases hsingle : indices = [] ∨ ranges = []
  · rw [addVariables_single hsingle]
    exact saveVariable_follows _
  · obtain ⟨hindices, hranges⟩ := not_or.mp hsingle
    rw [addVariables_ranged hindices hranges]
    exact .bind .formula fun φ => .bind (.lift _) fun found =>
      .forM found fun _ _ => saveVariable_follows _

theorem brickId_follows (name : String) : Follows (brickId name) (brickId name) :=
  .bind .formula fun _ => .orElse _ _

theorem saveBlock_follows (name : String) : Follows (saveBlock name) (saveBlock name) := by
  refine .bind .formula fun φ => ?_
  split
  · exact .throw _ _
  · exact .update _

theorem saveGrouping_follows (grouping : Option String) (ids : List Id) :
    Follows (saveGrouping grouping ids) (saveGrouping grouping ids) := by
  unfold saveGrouping
  split
  · split
    · exact .pure _
    · exact .update _
  · exact .pure _

theorem brickStart_follows (brick : Brick) : Follows (brickStart brick) (brickStart brick) := by
  unfold brickStart
  split
  · refine .bind .formula fun φ => ?_
    split
    · exact .pure _
    · exact .bind (say_follows _ _) fun _ => .pure _
  · exact .pure _

theorem brickIds_follows (brick : Brick) (left : Valuation) (found : List Valuation)
    (used : List Id) :
    Follows (brickIds brick left found used) (brickIds brick left found used) := by
  unfold brickIds
  split
  · exact .pure _
  · refine .foldlM found _ fun (ids, used) v => ?_
    refine .bind .formula fun _ => .bind (.lift _) fun values => .bind (.lift _) fun name => ?_
    refine .bind (brickId_follows name) fun id => .bind (.lift _) fun id => ?_
    split
    · exact .pure _
    · exact .pure _

theorem bodyIds_follows (conditions : List Condition) (left : Valuation) (bricks : List Brick)
    (used : List Id) :
    Follows (bodyIds conditions left bricks used) (bodyIds conditions left bricks used) := by
  induction bricks generalizing used with
  | nil => exact .pure _
  | cons brick rest ih =>
      rw [bodyIds_cons]
      exact .bind .formula fun _ => .bind (.lift _) fun found =>
        .bind (brickIds_follows brick left found used) fun (_, _) => .bind (ih _) fun _ => .pure _

theorem addBlock_follows (definition : Definition) (conditions : List Condition)
    (grouping : Option String) (v : Valuation) :
    Follows (addBlock definition conditions grouping v)
      (addBlock definition conditions grouping v) := by
  refine .bind .formula fun _ => .bind (.lift _) fun indices => .bind (.lift _) fun name => ?_
  refine .bind .formula fun φ => ?_
  split
  · exact .pure _
  · refine .bind (saveBlock_follows name) fun _ => .bind (brickId_follows name) fun id => ?_
    refine .bind (.mapM _ fun brick _ => brickStart_follows brick) fun starts => ?_
    refine .bind (bodyIds_follows _ _ _ _) fun ids => ?_
    split
    · exact .throw _ _
    · exact .bind (.bind (brickId_follows _) fun _ => .update _) fun _ => .pure _

theorem addBlocks_follows (definitions : List Definition) (conditions : List Condition)
    (grouping : Option String) :
    Follows (addBlocks definitions conditions grouping)
      (addBlocks definitions conditions grouping) := by
  rw [addBlocks_eq]
  refine .bind (.mapM definitions fun definition _ => ?_) fun ids => saveGrouping_follows _ _
  exact .bind .formula fun _ => .bind (.lift _) fun found =>
    .filterMapM found fun v _ => addBlock_follows definition conditions grouping v

theorem setOutput_follows (name : String) (indices : List String) :
    Follows (setOutput name indices) (setOutput name indices) :=
  .bind (brickId_follows _) fun _ => .update _

end Action

/-! ## Attributes -/

/-- The full edition knows the signs of every other one. -/
theorem Attribute.ofSign?_full {edition : Edition} {sign : String} {mark : Attribute}
    (h : ofSign? edition sign = some mark) : ofSign? .full sign = some mark := by
  have hbasic : ofSign? .classic sign = some mark → ofSign? .full sign = some mark := by
    intro hclassic
    change (basicSigns ++ extendedSigns).lookup sign = some mark
    rw [List.lookup_append, show basicSigns.lookup sign = some mark from hclassic]
    rfl
  cases edition with
  | full => exact h
  | classic => exact hbasic h
  | split => exact hbasic h
  | tracing => exact hbasic h

namespace Action

variable (edition : Edition)

theorem markBlock_follows (id : Id) (sign : String) :
    Follows (markBlock edition id sign) (markBlock .full id sign) := by
  refine .bind (.bind .formula fun _ => .orElse _ _) fun b => ?_
  split
  · exact .throw _ _
  · cases hsign : Attribute.ofSign? edition sign with
    | none => exact .throw _ _
    | some mark =>
        rw [Attribute.ofSign?_full hsign]
        exact .update _

theorem addAttribute_follows (name : String) (indices : List String) (sign : String) :
    Follows (addAttribute edition name indices sign) (addAttribute .full name indices sign) :=
  .bind (brickId_follows _) fun id => markBlock_follows edition id sign

theorem addAttributeToGrouping_follows (grouping sign : String) :
    Follows (addAttributeToGrouping edition grouping sign)
      (addAttributeToGrouping .full grouping sign) := by
  refine .bind .formula fun φ => ?_
  split
  · exact .throw _ _
  · rename_i ids hids
    exact .forM ids fun id _ => markBlock_follows edition id sign

end Action

/-! ## Statements -/

namespace Language

open QuantFamily.Action (Follows)

theorem exists_run_announce (verbose : Bool) (line : String) (s : Session) :
    ∃ t, announce verbose line s = .ok () t ∧ t.formula = s.formula := by
  cases verbose with
  | true => exact ⟨_, rfl, rfl⟩
  | false => exact ⟨s, rfl, rfl⟩

theorem announce_follows (verbose verbose' : Bool) (line line' : String) :
    Follows (announce verbose line) (announce verbose' line') :=
  .outside (exists_run_announce verbose line) (exists_run_announce verbose' line')

/-- A step may be announced before it in one edition and after it in the other. -/
theorem announced_follows {edition : Edition} {verbose verbose' : Bool} {line : String}
    {action : Action Unit} (h : Follows action action) :
    Follows (announced edition verbose line action) (announced .full verbose' line action) := by
  intro s s' t a hs run
  obtain ⟨s₁, hsay, hformula⟩ := exists_run_announce verbose' line s'
  have hfull : announced .full verbose' line action s' = action s₁ := run_bind_of_ok hsay
  rw [hfull]
  unfold announced at run
  split at run
  · obtain ⟨u, t₁, haction, hannounce⟩ := exists_of_run_bind run
    obtain ⟨t₂, hsay₂, hformula₂⟩ := exists_run_announce verbose line t₁
    cases hsay₂.symm.trans hannounce
    obtain ⟨t', hrun, ht⟩ := h (hformula.trans hs) haction
    exact ⟨t', hrun, ht.trans hformula₂.symm⟩
  · obtain ⟨u, t₁, hannounce, haction⟩ := exists_of_run_bind run
    obtain ⟨t₂, hsay₂, hformula₂⟩ := exists_run_announce verbose line s
    cases hsay₂.symm.trans hannounce
    exact h (hformula.trans (hs.trans hformula₂.symm)) haction

theorem announceBlocks_follows (edition : Edition) (verbose verbose' : Bool)
    (definitions : List Definition) (grouping : Option String) :
    Follows (announceBlocks edition verbose definitions grouping)
      (announceBlocks .full verbose' definitions grouping) := by
  refine .bind (.forM definitions fun _ _ => announce_follows _ _ _ _) fun _ => ?_
  split
  · exact announce_follows _ _ _ _
  · exact .pure _

/-- A statement has the same effect in the full edition. -/
theorem Statement.perform_follows (edition : Edition) (verbose verbose' : Bool)
    (statement : Statement) :
    Follows (statement.perform edition verbose) (statement.perform .full verbose') := by
  cases statement with
  | value name expression =>
      exact .bind (announce_follows _ _ _ _) fun _ => Action.addValue_follows name expression
  | family name => exact .bind (announce_follows _ _ _ _) fun _ => .update _
  | format word => exact .bind (announce_follows _ _ _ _) fun _ => Action.setFormat_follows word
  | parameter name kind constraints =>
      exact .bind (announce_follows _ _ _ _) fun _ =>
        Action.addParameter_follows name kind constraints
  | vars name indices ranges => exact announced_follows (Action.addVariables_follows _ _ _)
  | blocks definitions conditions grouping =>
      exact .bind (announceBlocks_follows _ _ _ _ _) fun _ => Action.addBlocks_follows _ _ _
  | mark targets sign =>
      exact .forM targets fun target _ => .bind (announce_follows _ _ _ _) fun _ =>
        Action.addAttribute_follows edition target.1 target.2 sign
  | markGrouping grouping sign =>
      exact .bind (announce_follows _ _ _ _) fun _ =>
        Action.addAttributeToGrouping_follows edition grouping sign
  | output name indices => exact announced_follows (Action.setOutput_follows _ _)

/-! ## Texts -/

/-- A text is in the language if it is interpreted to its end, and what is printed then leaves the
formula alone. -/
theorem exists_of_interpret {edition : Edition} {verbose : Bool} {text : String} {s t : Session}
    (run : interpret edition verbose text s = .ok none t) :
    (Script.read edition text).stop = none ∧ ∃ u,
      (Script.read edition text).statements.forM (Statement.perform edition verbose) s = .ok () u ∧
        t.formula = u.formula := by
  obtain ⟨_, u, hstatements, hend⟩ := exists_of_run_bind run
  cases hstop : (Script.read edition text).stop with
  | some stop =>
      rw [hstop] at hend
      cases hend
  | none =>
      rw [hstop] at hend
      refine ⟨rfl, u, hstatements, ?_⟩
      by_cases hlists : edition.listsAfterwards = true
      · rw [if_pos hlists] at hend
        obtain ⟨φ, v, hformula, hend⟩ := exists_of_run_bind hend
        cases hformula
        obtain ⟨line, -, hend⟩ := Action.exists_of_lift_bind hend
        obtain ⟨_, v, hsay, hend⟩ := exists_of_run_bind hend
        cases hsay
        cases hend
        rfl
      · rw [if_neg hlists] at hend
        cases hend
        rfl

/-- A text of another edition is read with the same terminals in the full edition exactly if its
names are delimited, and then it gives the same formula. -/
theorem full_edition_reads_delimited_texts {edition : Edition}
    (earlier : edition.isExtended = false) {verbose : Bool} {text : String} {s t : Session}
    (run : interpret edition verbose text s = .ok none t) :
    (lexemes .full text = lexemes edition text ↔ ∀ l ∈ lexemes edition text, l.Delimited) ∧
      ((∀ l ∈ lexemes edition text, l.Delimited) →
        Script.read .full text = Script.read edition text ∧
          ∀ (verbose' : Bool) (s' : Session), s'.formula = s.formula →
            ∃ u, interpret .full verbose' text s' = .ok none u ∧ u.formula = t.formula) := by
  obtain ⟨complete, u, hstatements, hformula⟩ := exists_of_interpret run
  refine ⟨lexemes_full_eq_iff earlier complete, fun delimited => ?_⟩
  have hread := (read_full_of_delimited earlier complete delimited).1
  refine ⟨hread, fun verbose' s' same => ?_⟩
  have hfollows := Follows.forM (Script.read edition text).statements
    fun statement _ => statement.perform_follows edition verbose verbose'
  obtain ⟨u', hfull, hu⟩ := hfollows same hstatements
  refine ⟨u', ?_, hu.trans hformula.symm⟩
  rw [run_interpret_full, hread, run_bind_of_ok hfull, complete]
  rfl

/-- Blocks for a range of indices, with a grouping and a comment, all names delimited. -/
def groupedPieces : List String :=
  ["value: n = 2; ", "/* pairs */ name: F; ", "format: CNF; ", "variables: \x7b ",
   "x(i) where i in 1..n; \x7d ", "blocks: \x7b ", "define blocks grouped ", "in G \x7b ",
   "C(i) := x(i), -x(1); ", "\x7d where i in 1..n; ", "define block M := ", "all blocks in G; ",
   "all blocks in G ", "operated with OR; ", "block M operated ", "with AND; \x7d ",
   "output block: M;"]

def groupedStatements : List Statement :=
  [.value "n" "2", .family "F", .format "CNF", .vars "x" ["i"] [.range "i" "1" "n"],
   .blocks [⟨"C", ["i"], [.ref false "x" ["i"], .ref true "x" ["1"]]⟩] [.range "i" "1" "n"]
     (some "G"),
   .blocks [⟨"M", [], [.all "G"]⟩] [] none, .markGrouping "G" "OR", .mark [("M", [])] "AND",
   .output "M" []]

def groupedSession : Session :=
  (Action.perform (groupedStatements.forM (Statement.perform .classic false)) {}).2

theorem read_grouped :
    Script.read .classic (String.join groupedPieces) = ⟨groupedStatements, none⟩ := by
  rw [Script.read_of_toList String.toList_join]
  decide +kernel

theorem interpret_grouped :
    interpret .classic false (String.join groupedPieces) {} = .ok none groupedSession := by
  have hstatements : groupedStatements.forM (Statement.perform .classic false) {} =
      .ok () groupedSession := Action.ok_of_perform (by decide +kernel)
  unfold interpret
  rw [read_grouped, run_bind_of_ok hstatements]
  rfl

theorem full_edition_reads_delimited_texts_grouped :
    interpret .classic false (String.join groupedPieces) {} = .ok none groupedSession ∧
      (∀ l ∈ lexemes .classic (String.join groupedPieces), l.Delimited) ∧
      groupedSession.formula.counter = 5 ∧
      ∃ u, interpret .full true (String.join groupedPieces) {} = .ok none u ∧
        u.formula = groupedSession.formula := by
  have hdelimited : ∀ l ∈ lexemes .classic (String.join groupedPieces), l.Delimited := by
    rw [lexemes_of_toList String.toList_join]
    decide +kernel
  have hfull := full_edition_reads_delimited_texts rfl interpret_grouped
  exact ⟨interpret_grouped, hdelimited, by decide +kernel, (hfull.2 hdelimited).2 true {} rfl⟩

/-! ## Names that are not delimited -/

/-- What a text ends in, and the names that then have a value. -/
def valuesOf (edition : Edition) (text : String) : Except Fault (Option Stop) × List String :=
  let (outcome, session) := Action.perform (interpret edition false text) {}
  (outcome, session.formula.values.keys)

/-- A name goes on over an equals sign or a comment behind it in the full edition. The first text is
then outside the language, the second one gives a value to another name. -/
theorem undelimited_names_go_on :
    valuesOf .classic "value: n=2;" = (.ok none, ["n"]) ∧
      valuesOf .full "value: n=2;" = (.ok (some ⟨(1, 11), none⟩), []) ∧
      valuesOf .classic "value: n/**/ = 2;" = (.ok none, ["n"]) ∧
      valuesOf .full "value: n/**/ = 2;" = (.ok none, ["n/**/"]) := by
  decide +kernel

end Language

end QuantFamily
