import QuantFamily.Language.Interpret
import QuantFamily.Proofs.Language.Sections
import QuantFamily.Proofs.State.WellFormed

/-!
# Formulas from one definition

Identifiers are given out one after the other, to variables and to blocks alike. A text declares all
its variables before it defines the first block. So the variables of a formula that comes from one
definition have the identifiers from one up to their number, and those of its blocks come behind.
-/

namespace QuantFamily

open QuantFamily.Language

/-! ## Identifiers given out -/

namespace Formula

variable {φ ψ : Formula}

/-- Every identifier that has been given out is that of a variable or of a block. -/
def Counted (φ : Formula) : Prop :=
  φ.counter = φ.ids.length

theorem Counted.register (h : φ.Counted) (perm : ψ.ids.Perm ((φ.counter + 1) :: φ.ids))
    (counter : ψ.counter = φ.counter + 1) : ψ.Counted := by
  unfold Counted at h ⊢
  rw [perm.length_eq, counter, h, List.length_cons]
  rfl

theorem Counted.step (h : φ.Counted) (hstep : Step φ ψ) : ψ.Counted := by
  cases hstep with
  | setting | grouping | mark | output => exact h
  | «variable» name fresh => exact h.register (ids_withVariable fresh) rfl
  | block b defines => exact h.register (ids_withBlock defines.fresh) rfl

theorem Counted.of_steps (h : Steps {} φ) : φ.Counted :=
  h.invariant (fun _ _ hstep hφ => hφ.step hstep) rfl

/-- Where no block has been registered, the variables have the first identifiers. -/
theorem vars_le_of_no_blocks (h : Steps {} φ) (none : φ.blocks = {}) :
    ∀ x ∈ φ.vars.values, (1 : Int) ≤ x ∧ x ≤ φ.vars.size := by
  intro x hx
  have hids : φ.ids = φ.vars.values := by
    unfold ids
    rw [none]
    exact List.append_nil _
  have hrange := (wellFormed_empty.steps h).inRange x (hids ▸ hx)
  have hcounter : φ.counter = φ.vars.size := by
    rw [Counted.of_steps h, hids, Table.values, List.length_map]
    rfl
  exact ⟨hrange.1, hcounter ▸ hrange.2⟩

end Formula

open Formula

/-! ## Statements in order -/

namespace Language.Statement

theorem defines_of_part_le {statement : Statement} (h : statement.part ≤ 4) :
    statement.defines = false := by
  cases statement with
  | blocks => exact absurd h (Nat.not_succ_le_self 4)
  | value | family | format | parameter | vars | mark | markGrouping | output => rfl

theorem declares_of_lt_part {statement : Statement} (h : 4 < statement.part) :
    statement.declares = false := by
  cases statement with
  | vars => exact absurd h (Nat.lt_irrefl 4)
  | value | family | format | parameter | blocks | mark | markGrouping | output => rfl

end Language.Statement

namespace Action

variable {declares defines verbose : Bool} {edition : Edition} {statements : List Statement}
  {s t : Session}

theorem stepsIn_of_statements
    (hdeclares : ∀ statement ∈ statements, declares = false → statement.declares = false)
    (hdefines : ∀ statement ∈ statements, defines = false → statement.defines = false)
    (run : statements.forM (Statement.perform edition verbose) s = .ok () t) :
    StepsIn declares defines s.formula t.formula := by
  have hmoves : ∀ statement ∈ statements,
      Moves (StepsIn declares defines) Bare (statement.perform edition verbose) :=
    fun statement hst => (perform_moves_in edition verbose statement).mono fun _ _ hsteps =>
      hsteps.mono (hdeclares statement hst) (hdefines statement hst)
  exact (Moves.forM statements hmoves s.formula).of_ok rfl run

/-- Interpret texts of the full edition one after the other. -/
def interpretAll (verbose : Bool) (texts : List String) : Action Unit :=
  texts.forM fun text => do let _ <- interpret .full verbose text

theorem interpret_full (verbose : Bool) (text : String) :
    (do let _ <- interpret .full verbose text) =
      (Script.read .full text).statements.forM (Statement.perform .full verbose) := by
  unfold interpret
  generalize Script.read .full text = script
  cases hstop : script.stop <;> simp [hstop, Edition.listsAfterwards]

/-- Texts do what their statements do. -/
theorem interpretAll_eq (verbose : Bool) (texts : List String) :
    interpretAll verbose texts =
      (texts.flatMap fun text => (Script.read .full text).statements).forM
        (Statement.perform .full verbose) := by
  induction texts with
  | nil => rfl
  | cons text rest ih =>
      rw [List.flatMap_cons, forM_append, ← ih, ← interpret_full]
      rfl

end Action

namespace Session

/-- One text, and texts that do nothing but give values, have led here from an empty formula, none
of them with a fault. -/
def Defined (s : Session) : Prop :=
  ∃ (verbose : Bool) (before : Session) (earlier : List String) (definition : String)
    (later : List String),
    (∀ text ∈ earlier ++ later, ∀ statement ∈ (Script.read .full text).statements,
      ∃ name expression, statement = .value name expression) ∧
    Action.interpretAll verbose (earlier ++ definition :: later) { before with formula := {} } =
      .ok () s

namespace Defined

variable {s : Session}

theorem built (h : s.Defined) : s.Built .full := by
  obtain ⟨verbose, before, earlier, definition, later, -, run⟩ := h
  rw [Action.interpretAll_eq] at run
  exact ⟨verbose, _, before, run⟩

/-- First the variables were declared, then the blocks were defined. -/
theorem parts (h : s.Defined) :
    ∃ ψ, StepsIn true false {} ψ ∧ StepsIn false true ψ s.formula := by
  obtain ⟨verbose, before, earlier, definition, later, hvalues, run⟩ := h
  -- The definition is cut behind its variables. Values may come in between without harm.
  obtain ⟨first, second, hsplit, hfirst, hsecond⟩ := (Script.inOrder_read .full definition).split 4
  let statementsOf := fun texts : List String =>
    texts.flatMap fun text => (Script.read .full text).statements
  have hjoin : statementsOf (earlier ++ definition :: later) =
      (statementsOf earlier ++ first) ++ (second ++ statementsOf later) := by
    simp [statementsOf, hsplit]
  have hdefines : ∀ statement ∈ statementsOf earlier ++ first, statement.defines = false := by
    intro statement hst
    rcases List.mem_append.mp hst with hst | hst
    · obtain ⟨text, htext, hst⟩ := List.mem_flatMap.mp hst
      obtain ⟨_, _, rfl⟩ := hvalues text (List.mem_append_left later htext) statement hst
      rfl
    · exact Statement.defines_of_part_le (hfirst statement hst)
  have hdeclares : ∀ statement ∈ second ++ statementsOf later, statement.declares = false := by
    intro statement hst
    rcases List.mem_append.mp hst with hst | hst
    · exact Statement.declares_of_lt_part (hsecond statement hst)
    · obtain ⟨text, htext, hst⟩ := List.mem_flatMap.mp hst
      obtain ⟨_, _, rfl⟩ := hvalues text (List.mem_append_right earlier htext) statement hst
      rfl
  rw [Action.interpretAll_eq, show (earlier ++ definition :: later).flatMap _ = _ from hjoin,
    Action.forM_append] at run
  obtain ⟨_, u, hvars, hblocks⟩ := exists_of_run_bind run
  have hvars : StepsIn true false {} u.formula :=
    Action.stepsIn_of_statements (fun _ _ (h : true = false) => nomatch h)
      (fun st hst _ => hdefines st hst) hvars
  have hblocks : StepsIn false true u.formula s.formula :=
    Action.stepsIn_of_statements (fun st hst _ => hdeclares st hst) (fun _ _ h => nomatch h) hblocks
  exact ⟨u.formula, hvars, hblocks⟩

/-- The variables have the identifiers from one up to their number. -/
theorem vars_le (h : s.Defined) :
    ∀ x ∈ s.formula.vars.values, (1 : Int) ≤ x ∧ x ≤ s.formula.vars.size := by
  obtain ⟨ψ, hvars, hblocks⟩ := h.parts
  rw [hblocks.vars_eq]
  exact vars_le_of_no_blocks hvars.steps hvars.blocks_eq

end Defined

end Session

end QuantFamily
