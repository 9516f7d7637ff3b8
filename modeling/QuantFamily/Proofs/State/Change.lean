import Mathlib.Logic.Relation
import QuantFamily.Language.Statement
import QuantFamily.Output.Clauses
import QuantFamily.Proofs.Block.Body

/-!
# The changes that operations make

A statement takes a formula along a sequence of steps, each of one of six kinds; a fault may
leave a bare name in the register of blocks behind the last of them. Writing an output gives
out identifiers and keeps texts, and touches nothing that a definition has recorded. What holds
of all formulas that operations lead to is shown for each kind of step once.
-/

namespace QuantFamily

namespace Formula

/-- The formula with a new variable. -/
def withVariable (φ : Formula) (name : String) : Formula :=
  { φ with counter := φ.counter + 1, vars := φ.vars.put name (φ.counter + 1) }

/-- One step of a definition. -/
inductive Step (φ : Formula) : Formula → Prop
  | setting (values : Table String Expr.Value) (name : String) (format : Option Format)
      (parameters : List Parameter) :
      Step φ { φ with values := values, name := name, format := format, parameters := parameters }
  | variable (name : String) (fresh : φ.vars.contains name = false) : Step φ (φ.withVariable name)
  | block {definition : Definition} {conditions : List Condition} {grouping : Option String}
      {v : Valuation} (b : Block) (defines : Action.Defines φ definition conditions grouping v b) :
      Step φ ((φ.withBlock b.name).withContents b)
  | grouping (name : String) (ids : List Id) (defined : ∀ id ∈ ids, id ∈ φ.contents.keys) :
      Step φ { φ with groupings := φ.groupings.put name ids }
  | mark (id : Id) (b : Block) (a : Attribute) (held : φ.contents.get? id = some b)
      (unmarked : b.mark = none) :
      Step φ { φ with contents := φ.contents.put id { b with mark := some a } }
  | output (name : String) (id : Id) (named : φ.idOf? name = some id) :
      Step φ { φ with output := some id }

/-- Any number of steps. -/
def Steps : Formula → Formula → Prop :=
  Relation.ReflTransGen Step

/-- A step that changes the variables only if it may declare some, and the register of blocks and
the groupings only if it may define some. -/
structure StepIn (declares defines : Bool) (φ ψ : Formula) : Prop where
  step : Step φ ψ
  vars : declares = false → ψ.vars = φ.vars
  blocks : defines = false → ψ.blocks = φ.blocks
  groupings : defines = false → ψ.groupings = φ.groupings

/-- Any number of such steps. -/
def StepsIn (declares defines : Bool) : Formula → Formula → Prop :=
  Relation.ReflTransGen (StepIn declares defines)

/-- A definition that was cut short has left at most a bare name in the register. -/
def Bare (φ ψ : Formula) : Prop :=
  ψ = φ ∨ ∃ name, φ.isDefined name = false ∧ ψ = φ.withBlock name

/-- Nothing that a definition records has changed; identifiers may have been given out. -/
structure Aside (φ ψ : Formula) : Prop where
  values : ψ.values = φ.values
  name : ψ.name = φ.name
  format : ψ.format = φ.format
  parameters : ψ.parameters = φ.parameters
  counter : φ.counter ≤ ψ.counter
  vars : ψ.vars = φ.vars
  blocks : ψ.blocks = φ.blocks
  contents : ψ.contents = φ.contents
  groupings : ψ.groupings = φ.groupings
  output : ψ.output = φ.output

instance : IsPreorder Formula Steps :=
  inferInstanceAs (IsPreorder Formula (Relation.ReflTransGen Step))

instance {declares defines : Bool} : IsPreorder Formula (StepsIn declares defines) :=
  inferInstanceAs (IsPreorder Formula (Relation.ReflTransGen (StepIn declares defines)))

instance : Std.Refl Bare where
  refl _ := Or.inl rfl

instance : IsPreorder Formula Aside where
  refl _ := ⟨rfl, rfl, rfl, rfl, Int.le_refl _, rfl, rfl, rfl, rfl, rfl⟩
  trans _ _ _ h k :=
    ⟨k.values.trans h.values, k.name.trans h.name, k.format.trans h.format,
      k.parameters.trans h.parameters, Int.le_trans h.counter k.counter, k.vars.trans h.vars,
      k.blocks.trans h.blocks, k.contents.trans h.contents, k.groupings.trans h.groupings,
      k.output.trans h.output⟩

/-- Identifiers, texts and the board are all that an output may change. -/
theorem Aside.of_texts {φ ψ : Formula} (h : ψ = { φ with
    counter := ψ.counter, circuitText := ψ.circuitText, clauseText := ψ.clauseText,
    nestedText := ψ.nestedText, board := ψ.board, boardGates := ψ.boardGates })
    (hcounter : φ.counter ≤ ψ.counter) : Aside φ ψ := by
  rw [h]
  exact ⟨rfl, rfl, rfl, rfl, hcounter, rfl, rfl, rfl, rfl, rfl⟩

/-- What every step keeps, any number of steps keeps. -/
theorem Steps.invariant {I : Formula → Prop} (step : ∀ φ ψ, Step φ ψ → I φ → I ψ)
    {φ ψ : Formula} (h : Steps φ ψ) (hφ : I φ) : I ψ := by
  induction h with
  | refl => exact hφ
  | tail _ last ih => exact step _ _ last ih

namespace StepsIn

variable {declares defines : Bool} {φ ψ : Formula}

theorem single (step : Step φ ψ) (vars : declares = false → ψ.vars = φ.vars)
    (blocks : defines = false → ψ.blocks = φ.blocks)
    (groupings : defines = false → ψ.groupings = φ.groupings) : StepsIn declares defines φ ψ :=
  Relation.ReflTransGen.single ⟨step, vars, blocks, groupings⟩

/-- A step that changes neither register nor a grouping. -/
theorem aside (step : Step φ ψ) (vars : ψ.vars = φ.vars) (blocks : ψ.blocks = φ.blocks)
    (groupings : ψ.groupings = φ.groupings) : StepsIn declares defines φ ψ :=
  single step (fun _ => vars) (fun _ => blocks) fun _ => groupings

theorem steps (h : StepsIn declares defines φ ψ) : Steps φ ψ := by
  induction h with
  | refl => exact Relation.ReflTransGen.refl
  | tail _ last ih => exact ih.tail last.step

theorem mono {declares' defines' : Bool} (h : StepsIn declares' defines' φ ψ)
    (hdeclares : declares = false → declares' = false)
    (hdefines : defines = false → defines' = false) : StepsIn declares defines φ ψ := by
  induction h with
  | refl => exact Relation.ReflTransGen.refl
  | tail _ last ih =>
      exact ih.tail ⟨last.step, fun h => last.vars (hdeclares h), fun h => last.blocks (hdefines h),
        fun h => last.groupings (hdefines h)⟩

theorem vars_eq (h : StepsIn false defines φ ψ) : ψ.vars = φ.vars := by
  induction h with
  | refl => rfl
  | tail _ last ih => exact (last.vars rfl).trans ih

theorem blocks_eq (h : StepsIn declares false φ ψ) : ψ.blocks = φ.blocks := by
  induction h with
  | refl => rfl
  | tail _ last ih => exact (last.blocks rfl).trans ih

end StepsIn

end Formula

namespace Language.Statement

/-- Whether a statement declares variables. -/
def declares : Statement → Bool
  | .vars _ _ _ => true
  | _ => false

/-- Whether a statement defines blocks. -/
def defines : Statement → Bool
  | .blocks _ _ _ => true
  | _ => false

end Language.Statement

open Formula

namespace Action

variable {φ : Formula} {declares defines : Bool}

/-! ## Single changes

What one operation does to a formula, for every relation that takes in its change. -/

section Changes

variable {R B : Formula → Formula → Prop} [IsPreorder Formula R]

theorem say_moves (line : String) : Moves R B (say line) :=
  Moves.outside fun _ => rfl

theorem evaluate_reads (expression : String) (indices : Valuation) :
    Reads φ (evaluate expression indices) (fun _ => True) :=
  Reads.bind_formula (Reads.lift fun _ _ => trivial)

variable [Std.Refl B]

theorem addValue_moves (name expression : String)
    (change : ∀ (φ : Formula) (values : Table String Expr.Value),
      R φ { φ with values := values }) :
    Moves R B (addValue name expression) :=
  Moves.bind (Moves.of_reads fun _ => evaluate_reads expression {}) fun value =>
    Moves.update fun φ => change φ (φ.values.put name value)

theorem setFormat_moves (word : String)
    (change : ∀ (φ : Formula) (format : Option Format), R φ { φ with format := format }) :
    Moves R B (setFormat word) := by
  unfold setFormat
  cases Format.ofWord? word with
  | some format => exact Moves.update fun φ => change φ (some format)
  | none => exact Moves.throw

theorem addParameter_moves (name kind : String) (constraints : List String)
    (change : ∀ (φ : Formula) (parameters : List Parameter),
      R φ { φ with parameters := parameters }) :
    Moves R B (addParameter name kind constraints) := by
  refine Moves.bind (Moves.bind Moves.formula fun _ => Moves.orElse) fun value => ?_
  refine Moves.bind (Moves.mapM _ fun c _ => Moves.of_reads fun _ => evaluate_reads c {})
    fun outcomes => ?_
  cases (constraints.zip outcomes).find? fun outcome => !outcome.2.truth with
  | some violated => exact Moves.throw
  | none => exact Moves.update fun φ => change φ _

theorem saveVariable_moves (name : String)
    (change : ∀ φ : Formula, φ.vars.contains name = false → R φ (φ.withVariable name)) :
    Moves R B (saveVariable name) := by
  intro φ
  refine Leads.bind_known ?_
  cases hcontains : φ.vars.contains name with
  | true => exact Leads.throw fun _ hs => Moves.cut (Moves.still hs)
  | false =>
      rw [if_neg Bool.false_ne_true]
      refine Leads.update fun s hs => ?_
      subst hs
      exact change s.formula hcontains

theorem addVariables_moves (name : String) (indices : List String) (ranges : List Condition)
    (change : ∀ (φ : Formula) (name : String), φ.vars.contains name = false →
      R φ (φ.withVariable name)) :
    Moves R B (addVariables name indices ranges) := by
  by_cases hsingle : indices = [] ∨ ranges = []
  · rw [addVariables_single hsingle]
    exact saveVariable_moves _ fun φ => change φ _
  · obtain ⟨hindices, hranges⟩ := not_or.mp hsingle
    rw [addVariables_ranged hindices hranges]
    refine Moves.bind Moves.formula fun _ => Moves.bind Moves.lift fun found => ?_
    exact Moves.forM found fun v _ => saveVariable_moves _ fun φ => change φ _

theorem markBlock_moves (edition : Edition) (id : Id) (sign : String)
    (change : ∀ (φ : Formula) (b : Block) (a : Attribute), φ.contents.get? id = some b →
      b.mark = none → Attribute.ofSign? edition sign = some a →
      R φ { φ with contents := φ.contents.put id { b with mark := some a } }) :
    Moves R B (markBlock edition id sign) := by
  intro φ
  have hblock : Reads φ (block id) (fun b => φ.contents.get? id = some b) :=
    Reads.bind_formula (Reads.orElse fun _ h => h)
  refine Reads.andThen hblock (fun _ hs => Moves.cut (Moves.still hs)) fun b hb => ?_
  cases hmark : b.mark with
  | some held => exact Leads.throw fun _ hs => Moves.cut (Moves.still hs)
  | none =>
      cases hsign : Attribute.ofSign? edition sign with
      | none => exact Leads.throw fun _ hs => Moves.cut (Moves.still hs)
      | some a =>
          refine Leads.update fun s hs => ?_
          subst hs
          exact change s.formula b a hb hmark hsign

theorem setOutput_moves (name : String) (indices : List String)
    (change : ∀ (φ : Formula) (id : Id), φ.idOf? (indexedName name indices) = some id →
      R φ { φ with output := some id }) :
    Moves R B (setOutput name indices) := by
  intro φ
  refine Reads.andThen (brickId_reads _) (fun _ hs => Moves.cut (Moves.still hs)) fun id hid => ?_
  refine Leads.update fun s hs => ?_
  subst hs
  exact change s.formula id hid

end Changes

/-! ## Definitions -/

/-- The blocks that have been defined so far have contents. -/
theorem addBlock_steps (ids : List Id) (definition : Definition) (conditions : List Condition)
    (grouping : Option String) (v : Valuation) :
    Leads (fun s => StepsIn declares true φ s.formula ∧ ∀ id ∈ ids, id ∈ s.formula.contents.keys)
      (addBlock definition conditions grouping v)
      (fun found s => StepsIn declares true φ s.formula ∧
        ∀ id ∈ ids ++ found.toList, id ∈ s.formula.contents.keys)
      (fun s => ∃ ψ, StepsIn declares true φ ψ ∧ Bare ψ s.formula) := by
  refine Leads.of_formula
    (K := fun ψ => StepsIn declares true φ ψ ∧ ∀ id ∈ ids, id ∈ ψ.contents.keys) ?_
  rintro ψ ⟨hsteps, hids⟩
  refine Leads.mono (addBlock_leads definition conditions grouping v) (fun _ hs => hs) ?_ ?_
  · rintro found s (⟨rfl, hs⟩ | ⟨b, hdefines, rfl, hs⟩)
    · rw [hs]
      exact ⟨hsteps, by simpa using hids⟩
    · rw [hs]
      refine ⟨hsteps.tail ⟨.block b hdefines, fun _ => rfl, nofun, nofun⟩, fun id hid => ?_⟩
      rw [Option.toList_some, List.mem_append, List.mem_singleton] at hid
      rcases hid with hid | rfl
      · exact Table.mem_keys_put_of_mem (hids id hid)
      · exact Table.mem_keys_put_self
  · rintro s (hs | ⟨name, hname, hs⟩)
    · exact ⟨ψ, hsteps, Or.inl hs⟩
    · exact ⟨ψ, hsteps, Or.inr ⟨name, hname, hs⟩⟩

theorem saveGrouping_moves {ids : List Id} (grouping : Option String)
    (h : ∀ id ∈ ids, id ∈ φ.contents.keys) :
    Leads (fun s => s.formula = φ) (saveGrouping grouping ids)
      (fun _ s => StepsIn declares true φ s.formula)
      (fun s => ∃ ψ, StepsIn declares true φ ψ ∧ Bare ψ s.formula) := by
  cases grouping with
  | none => exact Leads.pure fun _ hs => Moves.still hs
  | some name =>
      simp only [saveGrouping]
      split
      · exact Leads.pure fun _ hs => Moves.still hs
      · refine Leads.update fun s hs => ?_
        subst hs
        exact StepsIn.single (.grouping name ids h) (fun _ => rfl) nofun nofun

theorem addBlocks_moves (definitions : List Definition) (conditions : List Condition)
    (grouping : Option String) :
    Moves (StepsIn declares true) Bare (addBlocks definitions conditions grouping) := by
  rw [addBlocks_eq]
  intro φ
  -- All blocks that the rounds so far have returned have contents.
  let J : List (List Id) → Session → Prop := fun done s =>
    StepsIn declares true φ s.formula ∧ ∀ id ∈ done.flatten, id ∈ s.formula.contents.keys
  have hround : ∀ (done : List (List Id)) (definition : Definition), definition ∈ definitions →
      Leads (J done)
        (do
          let found <- lift ((<- formula).valuations conditions)
          found.filterMapM (addBlock definition conditions grouping))
        (fun ids => J (done ++ [ids]))
        (fun s => ∃ ψ, StepsIn declares true φ ψ ∧ Bare ψ s.formula) := by
    intro done definition _
    refine Leads.bind_formula fun ψ => ?_
    refine Leads.bind (Leads.lift (Q := fun _ => J done) (fun _ _ s hs => hs.2) ?_) fun found => ?_
    · exact fun s hs => Moves.cut hs.2.1
    · have hloop := Leads.filterMapM
        (J := fun ids s => StepsIn declares true φ s.formula ∧
          ∀ id ∈ done.flatten ++ ids, id ∈ s.formula.contents.keys)
        found (fun ids v _ => by
          simpa using addBlock_steps (done.flatten ++ ids) definition conditions grouping v) []
      simpa only [J, List.flatten_append, List.flatten_singleton, List.append_nil,
        List.nil_append] using hloop
  refine Leads.bind (Leads.mono (Leads.mapM (J := J) definitions hround [])
    (fun s hs => ⟨Moves.still hs, by simp⟩) (fun _ _ hs => hs) fun _ hs => hs) fun lists => ?_
  refine Leads.of_formula
    (K := fun ψ => StepsIn declares true φ ψ ∧ ∀ id ∈ lists.flatten, id ∈ ψ.contents.keys) ?_
  rintro ψ ⟨hsteps, hids⟩
  refine Leads.mono (saveGrouping_moves grouping hids) (fun _ hs => hs)
    (fun _ _ hs => hsteps.trans hs) ?_
  rintro s ⟨χ, hχ, hs⟩
  exact ⟨χ, hsteps.trans hχ, hs⟩

theorem markBlock_steps (edition : Edition) (id : Id) (sign : String) :
    Moves (StepsIn declares defines) Bare (markBlock edition id sign) :=
  markBlock_moves edition id sign fun _ b a held unmarked _ =>
    .aside (.mark id b a held unmarked) rfl rfl rfl

theorem addAttribute_moves (edition : Edition) (name : String) (indices : List String)
    (sign : String) :
    Moves (StepsIn declares defines) Bare (addAttribute edition name indices sign) :=
  Moves.bind (Moves.bind Moves.formula fun _ => Moves.orElse) fun id =>
    markBlock_steps edition id sign

theorem addAttributeToGrouping_moves (edition : Edition) (grouping sign : String) :
    Moves (StepsIn declares defines) Bare (addAttributeToGrouping edition grouping sign) := by
  refine Moves.bind Moves.formula fun ψ => ?_
  cases ψ.groupings.get? grouping with
  | none => exact Moves.throw
  | some ids => exact Moves.forM ids fun id _ => markBlock_steps edition id sign

/-! ## Statements -/

theorem announce_moves {R B : Formula → Formula → Prop} [IsPreorder Formula R] (verbose : Bool)
    (line : String) : Moves R B (Language.announce verbose line) := by
  cases verbose with
  | true => exact say_moves line
  | false => exact Moves.pure

theorem announced_moves {R B : Formula → Formula → Prop} [IsPreorder Formula R]
    {action : Action Unit} (edition : Edition) (verbose : Bool) (line : String)
    (h : Moves R B action) : Moves R B (Language.announced edition verbose line action) := by
  unfold Language.announced
  split
  · exact Moves.bind h fun _ => announce_moves verbose line
  · exact Moves.bind (announce_moves verbose line) fun _ => h

theorem announceBlocks_moves {R B : Formula → Formula → Prop} [IsPreorder Formula R]
    (edition : Edition) (verbose : Bool) (definitions : List Definition)
    (grouping : Option String) :
    Moves R B (Language.announceBlocks edition verbose definitions grouping) := by
  refine Moves.bind (Moves.forM _ fun _ _ => announce_moves _ _) fun _ => ?_
  cases grouping with
  | some name => exact announce_moves _ _
  | none => exact Moves.pure

/-- A statement takes the formula along steps that change no register but its own. -/
theorem perform_moves_in (edition : Edition) (verbose : Bool) (statement : Language.Statement) :
    Moves (StepsIn statement.declares statement.defines) Bare
      (statement.perform edition verbose) := by
  cases statement with
  | value name expression =>
      exact Moves.bind (announce_moves _ _) fun _ => addValue_moves name expression fun _ values =>
        .aside (.setting values _ _ _) rfl rfl rfl
  | family name =>
      exact Moves.bind (announce_moves _ _) fun _ =>
        Moves.update fun φ => .aside (.setting _ name _ _) rfl rfl rfl
  | format word =>
      exact Moves.bind (announce_moves _ _) fun _ => setFormat_moves word fun _ format =>
        .aside (.setting _ _ format _) rfl rfl rfl
  | parameter name kind constraints =>
      exact Moves.bind (announce_moves _ _) fun _ => addParameter_moves name kind constraints
        fun _ parameters => .aside (.setting _ _ _ parameters) rfl rfl rfl
  | vars name indices ranges =>
      exact announced_moves _ _ _ (addVariables_moves name indices ranges fun _ name fresh =>
        .single (.variable name fresh) nofun (fun _ => rfl) fun _ => rfl)
  | blocks definitions conditions grouping =>
      exact Moves.bind (announceBlocks_moves _ _ _ _) fun _ =>
        addBlocks_moves definitions conditions grouping
  | mark targets sign =>
      refine Moves.forM targets fun target _ => Moves.bind (announce_moves _ _) fun _ => ?_
      exact addAttribute_moves edition target.1 target.2 sign
  | markGrouping grouping sign =>
      exact Moves.bind (announce_moves _ _) fun _ =>
        addAttributeToGrouping_moves edition grouping sign
  | output name indices =>
      exact announced_moves _ _ _ (setOutput_moves name indices fun _ id named =>
        .aside (.output (indexedName name indices) id named) rfl rfl rfl)

/-- A statement takes the formula along steps. -/
theorem perform_moves (edition : Edition) (verbose : Bool) (statement : Language.Statement) :
    Moves Steps Bare (statement.perform edition verbose) :=
  (perform_moves_in edition verbose statement).mono fun _ _ => StepsIn.steps

/-- Statements that all take effect have taken the formula along steps. -/
theorem steps_of_statements {edition : Edition} {verbose : Bool}
    {statements : List Language.Statement} {s t : Session}
    (run : statements.forM (Language.Statement.perform edition verbose) s = .ok () t) :
    Steps s.formula t.formula :=
  (Moves.forM statements (fun _ _ => perform_moves edition verbose _) s.formula).of_ok rfl run

/-! ## Outputs -/

theorem twoFresh_moves : Moves Aside Eq twoFresh := by
  refine Moves.bind Moves.formula fun _ => Moves.bind (Moves.update fun φ => ?_) fun _ => Moves.pure
  exact Aside.of_texts rfl (Int.le_add_of_nonneg_right (by decide))

theorem gateLines_moves (b : Block) : Moves Aside Eq (gateLines b) := by
  unfold gateLines
  split
  · split
    · exact Moves.pure
    · exact Moves.throw
  · refine Moves.bind twoFresh_moves fun (_, _) => ?_
    dsimp only
    split
    · exact Moves.pure
    · exact Moves.throw
  · split
    · exact Moves.throw
    · exact Moves.pure
  · split
    · exact Moves.throw
    · split
      · exact Moves.throw
      · exact Moves.pure

theorem putOnBoard_moves (b : Block) : Moves Aside Eq (putOnBoard b) := by
  refine Moves.bind (Moves.update fun φ => Aside.of_texts rfl (Int.le_refl _)) fun _ => ?_
  refine Moves.bind (gateLines_moves b) fun lines => Moves.forM lines fun line _ => ?_
  exact Moves.update fun φ => Aside.of_texts rfl (Int.le_refl _)

theorem writeGate_moves (fuel : Nat) (b : Block) : Moves Aside Eq (writeGate fuel b) := by
  induction fuel generalizing b with
  | zero => exact Moves.throw
  | succ fuel ih =>
      refine Moves.bind (Moves.forM b.body fun brick _ => ?_) fun _ => putOnBoard_moves b
      refine Moves.bind Moves.formula fun ψ => ?_
      dsimp only
      split
      · exact Moves.pure
      · split
        · exact Moves.pure
        · exact ih _

theorem queueLines_moves (edition : Edition) (b : Block) :
    Moves Aside Eq (queueLines edition b) := by
  refine Moves.bind Moves.formula fun ψ => ?_
  dsimp only
  split
  · split
    · exact Moves.pure
    · split
      · exact Moves.throw
      · exact Moves.pure
    · refine Moves.bind twoFresh_moves fun (_, _) => ?_
      dsimp only
      split
      · exact Moves.pure
      · exact Moves.throw
    · exact Moves.pure
  · exact Moves.pure

theorem visitQueue_moves (edition : Edition) (fuel : Nat) (queue : List Block)
    (visited lines : List String) :
    Moves Aside Eq (visitQueue edition fuel queue visited lines) := by
  induction fuel generalizing queue visited lines with
  | zero => exact Moves.throw
  | succ fuel ih =>
      cases queue with
      | nil => exact Moves.pure
      | cons b queue =>
          unfold visitQueue
          split
          · exact ih _ _ _
          · exact Moves.bind (queueLines_moves edition b) fun _ => ih _ _ _

theorem gatesBelow_moves (edition : Edition) (b : Block) :
    Moves Aside Eq (gatesBelow edition b) := by
  unfold gatesBelow
  split
  · refine Moves.bind (Moves.bind Moves.formula fun _ => writeGate_moves _ b) fun _ => ?_
    exact Moves.bind Moves.formula fun _ => Moves.pure
  · refine Moves.bind Moves.formula fun _ => ?_
    exact Moves.bind (visitQueue_moves edition _ _ _ _) fun _ => Moves.pure

theorem generateCircuit_moves (edition : Edition) : Moves Aside Eq (generateCircuit edition) := by
  refine Moves.bind Moves.formula fun ψ => Moves.bind Moves.lift fun _ => ?_
  refine Moves.bind Moves.lift fun _ => Moves.bind Moves.lift fun _ => ?_
  refine Moves.bind Moves.lift fun _ => Moves.bind Moves.lift fun b => ?_
  refine Moves.bind (gatesBelow_moves edition b) fun _ => ?_
  exact Moves.bind (Moves.update fun φ => Aside.of_texts rfl (Int.le_refl _)) fun _ => Moves.pure

theorem circuitText_moves (edition : Edition) : Moves Aside Eq (circuitText edition) := by
  refine Moves.bind Moves.formula fun ψ => ?_
  split
  · exact Moves.throw
  · exact Moves.pure
  · refine Moves.bind Moves.formula fun χ => ?_
    split
    · exact Moves.pure
    · exact Moves.bind (generateCircuit_moves edition) fun _ => Moves.pure

theorem generateNested_moves : Moves Aside Eq generateNested :=
  Moves.bind Moves.formula fun _ => Moves.lift

theorem nestedText_moves : Moves Aside Eq nestedText := by
  refine Moves.bind Moves.formula fun ψ => ?_
  split
  · exact Moves.throw
  · exact Moves.throw
  · split
    · exact Moves.pure
    · refine Moves.bind generateNested_moves fun _ => ?_
      exact Moves.bind (Moves.update fun φ => Aside.of_texts rfl (Int.le_refl _)) fun _ => Moves.pure

theorem keepClauses_moves (circuit : String) : Moves Aside Eq (do
    let text := (<- formula).clausesOf circuit
    update fun φ => { φ with clauseText := some text }
    return text) := by
  refine Moves.bind Moves.formula fun _ => ?_
  exact Moves.bind (Moves.update fun φ => Aside.of_texts rfl (Int.le_refl _)) fun _ => Moves.pure

theorem generateClauses_moves (edition : Edition) : Moves Aside Eq (generateClauses edition) := by
  refine Moves.bind Moves.formula fun ψ => ?_
  split
  · exact keepClauses_moves _
  · exact Moves.bind (generateCircuit_moves edition) keepClauses_moves

theorem keepConverted_moves (circuit : String) : Moves Aside Eq (do
    let written :=
      if (<- get).hasConverter then ((Circuit.Conversion.run {} circuit).text).getD "" else ""
    update fun φ => { φ with clauseText := some written }
    removeFile circuitFile
    removeFile clauseFile
    return written) := by
  refine Moves.bind Moves.get fun _ => ?_
  refine Moves.bind (Moves.update fun φ => Aside.of_texts rfl (Int.le_refl _)) fun _ => ?_
  refine Moves.bind (Moves.outside fun _ => rfl) fun _ => ?_
  exact Moves.bind (Moves.outside fun _ => rfl) fun _ => Moves.pure

theorem convertCircuit_moves (edition : Edition) : Moves Aside Eq (convertCircuit edition) := by
  refine Moves.bind (Moves.outside fun _ => rfl) fun _ => ?_
  refine Moves.bind (Moves.outside fun _ => rfl) fun _ => ?_
  refine Moves.bind (circuitText_moves edition) fun _ => Moves.bind Moves.orElse fun _ => ?_
  refine Moves.bind (Moves.outside fun _ => rfl) fun _ => Moves.bind Moves.get fun _ => ?_
  split
  · exact Moves.bind Moves.throw fun _ => keepConverted_moves _
  · exact keepConverted_moves _

theorem clauseText_moves (edition : Edition) : Moves Aside Eq (clauseText edition) := by
  refine Moves.bind Moves.formula fun ψ => ?_
  split
  · exact Moves.throw
  · exact Moves.pure
  · exact Moves.bind (convertCircuit_moves edition) fun _ => Moves.pure
  · refine Moves.bind Moves.formula fun χ => ?_
    have hfresh := Moves.bind (generateClauses_moves edition)
      fun text => (Moves.pure : Moves Aside Eq (pure (some text) : Action (Option String)))
    split
    · split
      · exact hfresh
      · exact Moves.pure
    · exact hfresh

end Action

end QuantFamily
