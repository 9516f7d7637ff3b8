import QuantFamily.Proofs.State.WellFormed

/-!
# What a block keeps

Once a block has contents, no operation changes its name, its body or its grouping, whether the
operation ends well or in a fault. Its attribute is given once: a block without attribute may get
one, from a statement that names the block or a grouping that lists it at that time, and then keeps
it. Outputs and all other statements leave it as it is; in particular a grouping that is listed
anew has no effect on the bodies that its blocks have been put in before.
-/

namespace QuantFamily

namespace Formula

variable {φ ψ χ : Formula} {allowed : Id → Attribute → Prop}

/-- Blocks keep their contents, except that a block without attribute may get one that is allowed
for it. -/
def Retains (allowed : Id → Attribute → Prop) (φ ψ : Formula) : Prop :=
  ∀ id b, φ.contents.get? id = some b →
    ψ.contents.get? id = some b ∨
      b.mark = none ∧ ∃ a, allowed id a ∧ ψ.contents.get? id = some { b with mark := some a }

theorem Retains.of_contents (h : ψ.contents = φ.contents) : Retains allowed φ ψ :=
  fun _ _ held => Or.inl (h ▸ held)

theorem Retains.trans (h : Retains allowed φ ψ) (k : Retains allowed ψ χ) :
    Retains allowed φ χ := by
  intro id b held
  rcases h id b held with hsame | ⟨hnone, a, ha, hmarked⟩
  · exact k id b hsame
  · rcases k id _ hmarked with hsame | ⟨hagain, -⟩
    · exact Or.inr ⟨hnone, a, ha, hsame⟩
    · cases hagain

/-- An attribute changes no block but the one that gets it. -/
theorem Retains.mark {id : Id} {b : Block} {a : Attribute} (held : φ.contents.get? id = some b)
    (unmarked : b.mark = none) (ha : allowed id a) :
    Retains allowed φ { φ with contents := φ.contents.put id { b with mark := some a } } := by
  intro other c hother
  by_cases heq : other = id
  · subst heq
    cases held.symm.trans hother
    exact Or.inr ⟨unmarked, a, ha, Table.get?_put_self _ _ _⟩
  · exact Or.inl ((Table.get?_put_of_ne _ _ heq).trans hother)

/-- A new block comes under an identifier that has no contents yet. -/
theorem Retains.block (h : φ.WellFormed) {definition : Definition} {conditions : List Condition}
    {grouping : Option String} {v : Valuation} {new : Block}
    (defines : Action.Defines φ definition conditions grouping v new) :
    Retains allowed φ ((φ.withBlock new.name).withContents new) := by
  intro id b held
  have hfresh : new.id ∉ φ.contents.keys := defines.id_eq ▸ h.next_not_mem_keys
  exact Or.inl (Table.get?_put_of_get? new hfresh held)

/-- The contents of all blocks are the same. -/
def SameContents (φ ψ : Formula) : Prop :=
  ψ.contents = φ.contents

instance : IsPreorder Formula SameContents where
  refl _ := rfl
  trans _ _ _ h k := Eq.trans k h

/-- The same names stand for the same identifiers, and the blocks have changed in their attributes
only. -/
structure OnlyMarks (allowed : Id → Attribute → Prop) (φ ψ : Formula) : Prop where
  names : ∀ name, ψ.idOf? name = φ.idOf? name
  retains : Retains allowed φ ψ

instance : IsPreorder Formula (OnlyMarks allowed) where
  refl _ := ⟨fun _ => rfl, Retains.of_contents rfl⟩
  trans _ _ _ h k := ⟨fun name => (k.names name).trans (h.names name), h.retains.trans k.retains⟩

end Formula

namespace Operation

/-- The attributes that an operation may give in a formula, and the blocks that get them: those that
are named or listed in the grouping at that time. The attribute is what the sign means. -/
inductive Gives (edition : Edition) (φ : Formula) : Operation → Id → Attribute → Prop
  | named {verbose : Bool} {targets : List (String × List String)} {sign : String}
      {target : String × List String} {id : Id} {a : Attribute} (listed : target ∈ targets)
      (found : φ.idOf? (indexedName target.1 target.2) = some id)
      (meaning : Attribute.ofSign? edition sign = some a) :
      Gives edition φ (.define verbose (.mark targets sign)) id a
  | grouped {verbose : Bool} {grouping sign : String} {ids : List Id} {id : Id} {a : Attribute}
      (found : φ.groupings.get? grouping = some ids) (listed : id ∈ ids)
      (meaning : Attribute.ofSign? edition sign = some a) :
      Gives edition φ (.define verbose (.markGrouping grouping sign)) id a

end Operation

open Formula

namespace Action

variable {φ : Formula} {allowed : Id → Attribute → Prop}

/-! ## Statements that give no attribute -/

theorem Moves.reads {α : Type} {action : Action α} (h : Moves Eq Eq action) :
    Reads φ action fun _ => True := by
  refine Leads.mono (h φ) (fun _ hs => hs) (fun _ _ hs => ⟨hs.symm, trivial⟩) ?_
  rintro s ⟨ψ, rfl, hs⟩
  exact hs.symm

theorem Moves.retains {α : Type} {action : Action α} (h : Moves SameContents Eq action) :
    Leads (fun s => s.formula = φ) action (fun _ s => Retains allowed φ s.formula)
      (fun s => Retains allowed φ s.formula) := by
  refine Leads.mono (h φ) (fun _ hs => hs) (fun _ _ hs => .of_contents hs) ?_
  rintro s ⟨ψ, hψ, rfl⟩
  exact .of_contents hψ

theorem addBlock_retains (definition : Definition) (conditions : List Condition)
    (grouping : Option String) (v : Valuation) :
    Leads (fun s => s.formula.WellFormed ∧ Retains allowed φ s.formula)
      (addBlock definition conditions grouping v)
      (fun _ s => s.formula.WellFormed ∧ Retains allowed φ s.formula)
      (fun s => Retains allowed φ s.formula) := by
  refine Leads.of_formula (K := fun ψ => ψ.WellFormed ∧ Retains allowed φ ψ) fun ψ hψ => ?_
  refine Leads.mono (addBlock_leads definition conditions grouping v) (fun _ hs => hs) ?_ ?_
  · rintro _ s (⟨-, hs⟩ | ⟨new, hdefines, -, hs⟩)
    · rw [hs]
      exact hψ
    · rw [hs]
      exact ⟨hψ.1.step (.block new hdefines), hψ.2.trans (.block hψ.1 hdefines)⟩
  · rintro s (hs | ⟨name, -, hs⟩)
    · rw [hs]
      exact hψ.2
    · rw [hs]
      exact hψ.2.trans (.of_contents rfl)

theorem saveGrouping_retains (grouping : Option String) (ids : List Id) :
    Moves SameContents Eq (saveGrouping grouping ids) := by
  cases grouping with
  | none => exact Moves.pure
  | some name =>
      simp only [saveGrouping]
      split
      · exact Moves.pure
      · exact Moves.update fun _ => rfl

theorem addBlocks_retains (hφ : φ.WellFormed) (definitions : List Definition)
    (conditions : List Condition) (grouping : Option String) :
    Leads (fun s => s.formula = φ) (addBlocks definitions conditions grouping)
      (fun _ s => Retains allowed φ s.formula) (fun s => Retains allowed φ s.formula) := by
  let J : Session → Prop := fun s => s.formula.WellFormed ∧ Retains allowed φ s.formula
  have hround : ∀ (done : List (List Id)) (definition : Definition), definition ∈ definitions →
      Leads J
        (do
          let found <- lift ((<- formula).valuations conditions)
          found.filterMapM (addBlock definition conditions grouping))
        (fun _ => J) (fun s => Retains allowed φ s.formula) := by
    intro done definition _
    refine Leads.bind_formula fun ψ => ?_
    refine Leads.bind (Leads.lift (Q := fun _ => J) (fun _ _ s hs => hs.2) fun s hs => hs.2.2)
      fun found => ?_
    exact Leads.filterMapM (J := fun _ => J) found
      (fun _ v _ => addBlock_retains definition conditions grouping v) []
  have hstart : ∀ s : Session, s.formula = φ → J s := by
    rintro s rfl
    exact ⟨hφ, .of_contents rfl⟩
  rw [addBlocks_eq]
  refine Leads.bind (Leads.mono (Leads.mapM (J := fun _ => J) definitions hround []) hstart
    (fun _ _ hs => hs) fun _ hs => hs) fun lists => ?_
  refine Leads.of_formula (K := fun ψ => ψ.WellFormed ∧ Retains allowed φ ψ) fun ψ hψ => ?_
  exact Leads.mono (saveGrouping_retains grouping lists.flatten).retains (fun _ hs => hs)
    (fun _ _ hs => hψ.2.trans hs) fun _ hs => hψ.2.trans hs

/-! ## Attributes -/

theorem markBlock_onlyMarks (edition : Edition) (id : Id) (sign : String)
    (meaning : ∀ a, Attribute.ofSign? edition sign = some a → allowed id a) :
    Moves (OnlyMarks allowed) Eq (markBlock edition id sign) :=
  markBlock_moves edition id sign fun _ _ a held unmarked hsign =>
    ⟨fun _ => rfl, .mark held unmarked (meaning a hsign)⟩

theorem Moves.onlyMarks {α : Type} {action : Action α} (h : Moves (OnlyMarks allowed) Eq action) :
    Leads (fun s => s.formula = φ) action (fun _ s => OnlyMarks allowed φ s.formula)
      (fun s => OnlyMarks allowed φ s.formula) := by
  refine Leads.mono (h φ) (fun _ hs => hs) (fun _ _ hs => hs) ?_
  rintro s ⟨ψ, hψ, rfl⟩
  exact hψ

theorem addAttribute_onlyMarks (edition : Edition) (name : String) (indices : List String)
    (sign : String) (meaning : ∀ id, φ.idOf? (indexedName name indices) = some id →
      ∀ a, Attribute.ofSign? edition sign = some a → allowed id a) :
    Leads (fun s => s.formula = φ) (addAttribute edition name indices sign)
      (fun _ s => OnlyMarks allowed φ s.formula) (fun s => OnlyMarks allowed φ s.formula) := by
  refine Reads.andThen (brickId_reads _) (fun _ hs => Moves.still hs) fun id hid => ?_
  exact (markBlock_onlyMarks edition id sign (meaning id hid)).onlyMarks

theorem addAttributeToGrouping_onlyMarks (edition : Edition) (grouping sign : String)
    (meaning : ∀ ids, φ.groupings.get? grouping = some ids → ∀ id ∈ ids,
      ∀ a, Attribute.ofSign? edition sign = some a → allowed id a) :
    Leads (fun s => s.formula = φ) (addAttributeToGrouping edition grouping sign)
      (fun _ s => OnlyMarks allowed φ s.formula) (fun s => OnlyMarks allowed φ s.formula) := by
  refine Leads.bind_known ?_
  cases hids : φ.groupings.get? grouping with
  | none => exact Leads.throw fun _ hs => Moves.still hs
  | some ids =>
      exact Moves.onlyMarks (Moves.forM ids fun id hid =>
        markBlock_onlyMarks edition id sign (meaning ids hids id hid))

/-! ## Operations -/

/-- A statement changes nothing in the contents of blocks but gives the attributes that it is to
give. -/
theorem perform_retains (hφ : φ.WellFormed) (edition : Edition) (verbose : Bool)
    (statement : Language.Statement) :
    Leads (fun s => s.formula = φ) (statement.perform edition verbose)
      (fun _ s => Retains (Operation.Gives edition φ (.define verbose statement)) φ s.formula)
      (fun s => Retains (Operation.Gives edition φ (.define verbose statement)) φ s.formula) := by
  cases statement with
  | value name expression =>
      exact Moves.retains (Moves.bind (announce_moves _ _) fun _ =>
        addValue_moves name expression fun _ _ => rfl)
  | family name =>
      refine Moves.retains (Moves.bind (announce_moves _ _) fun _ => Moves.update ?_)
      exact fun _ => rfl
  | format word =>
      exact Moves.retains (Moves.bind (announce_moves _ _) fun _ =>
        setFormat_moves word fun _ _ => rfl)
  | parameter name kind constraints =>
      exact Moves.retains (Moves.bind (announce_moves _ _) fun _ =>
        addParameter_moves name kind constraints fun _ _ => rfl)
  | vars name indices ranges =>
      exact Moves.retains (announced_moves _ _ _
        (addVariables_moves name indices ranges fun _ _ _ => rfl))
  | output name indices =>
      exact Moves.retains (announced_moves _ _ _ (setOutput_moves name indices fun _ _ _ => rfl))
  | blocks definitions conditions grouping =>
      refine Reads.andThen (announceBlocks_moves _ _ _ _).reads (fun _ hs => ?_) fun _ _ => ?_
      · exact .of_contents (congrArg Formula.contents hs)
      · exact addBlocks_retains hφ definitions conditions grouping
  | mark targets sign =>
      let gives := Operation.Gives edition φ (.define verbose (.mark targets sign))
      refine Leads.mono (Leads.forM (J := fun _ s => OnlyMarks gives φ s.formula)
        (E := fun s => OnlyMarks gives φ s.formula) targets (fun _ target htarget => ?_) [])
        (fun _ hs => Moves.still hs) (fun _ _ hs => hs.retains) fun _ hs => hs.retains
      refine Leads.of_formula (K := OnlyMarks gives φ) fun ψ hψ => ?_
      refine Reads.andThen (announce_moves _ _).reads (fun _ hs => hs ▸ hψ) fun _ _ => ?_
      refine Leads.mono (addAttribute_onlyMarks edition target.1 target.2 sign
        fun id hid a ha => ?_) (fun _ hs => hs) (fun _ _ hs => trans_of _ hψ hs)
        fun _ hs => trans_of _ hψ hs
      -- The name stands for the same block as before the first round.
      exact .named htarget (hψ.names _ ▸ hid) ha
  | markGrouping grouping sign =>
      refine Reads.andThen (announce_moves _ _).reads (fun _ hs => ?_) fun _ _ => ?_
      · exact .of_contents (congrArg Formula.contents hs)
      · refine Leads.mono (addAttributeToGrouping_onlyMarks edition grouping sign
          fun ids hids id hid a ha => ?_) (fun _ hs => hs) (fun _ _ hs => hs.retains)
          fun _ hs => hs.retains
        exact .grouped hids hid ha

end Action

namespace Operation

variable {edition : Edition} {s : Session} {id : Id} {b : Block}

theorem act_retains {φ : Formula} (hφ : φ.WellFormed) (edition : Edition) (operation : Operation) :
    Action.Leads (fun s => s.formula = φ) (operation.act edition)
      (fun _ s => Retains (Gives edition φ operation) φ s.formula)
      (fun s => Retains (Gives edition φ operation) φ s.formula) := by
  have writing : ∀ {α : Type} {action : Action α}, Action.Moves Aside Eq action →
      Action.Leads (fun s => s.formula = φ) (do let _ <- action)
        (fun _ s => Retains (Gives edition φ operation) φ s.formula)
        (fun s => Retains (Gives edition φ operation) φ s.formula) := by
    intro α action hmoves
    have hdiscards : Action.Moves Aside Eq (do let _ <- action) :=
      Action.Moves.bind hmoves fun _ => Action.Moves.pure
    exact (hdiscards.mono fun _ _ haside => haside.contents).retains
  cases operation with
  | define verbose statement => exact Action.perform_retains hφ edition verbose statement
  | circuitText => exact writing (Action.circuitText_moves edition)
  | generateCircuit => exact writing (Action.generateCircuit_moves edition)
  | clauseText => exact writing (Action.clauseText_moves edition)
  | generateClauses => exact writing (Action.generateClauses_moves edition)
  | nestedText => exact writing Action.nestedText_moves
  | generateNested => exact writing Action.generateNested_moves

theorem run_append (first rest : List Operation) (s : Session) :
    run edition (first ++ rest) s = run edition rest (run edition first s) :=
  List.foldl_append

/-- What holds at the start and at every time after the first operation holds all the time. -/
theorem at_all_times {P : List Operation → Prop} {operation : Operation} {rest : List Operation}
    (start : P []) (later : ∀ ops, ops <+: rest → P (operation :: ops)) :
    ∀ ops, ops <+: operation :: rest → P ops := by
  intro ops hops
  rcases List.prefix_cons_iff.mp hops with rfl | ⟨tail, rfl, htail⟩
  · exact start
  · exact later tail htail

/-- Operations that start in a well-formed formula leave the contents of a block alone, or one of
them gives it its attribute and the others leave it alone. -/
theorem run_retains (hs : s.formula.WellFormed) (held : s.formula.contents.get? id = some b)
    (operations : List Operation) :
    (∀ ops, ops <+: operations → (run edition ops s).formula.contents.get? id = some b) ∨
      b.mark = none ∧ ∃ done operation rest a, operations = done ++ operation :: rest ∧
        Gives edition (run edition done s).formula operation id a ∧
        (∀ ops, ops <+: done → (run edition ops s).formula.contents.get? id = some b) ∧
        ∀ ops, ops <+: rest → (run edition (done ++ operation :: ops) s).formula.contents.get? id =
          some { b with mark := some a } := by
  induction operations generalizing s b with
  | nil =>
      left
      intro ops hops
      rw [List.prefix_nil.mp hops]
      exact held
  | cons operation rest ih =>
      have hnext : ((operation.act edition).perform s).2.formula.WellFormed :=
        (wellFormed_act edition operation).perform hs
      have hstep : Retains (Gives edition s.formula operation) s.formula
          ((operation.act edition).perform s).2.formula :=
        (act_retains hs edition operation).perform rfl
      rcases hstep id b held with hsame | ⟨hnone, a, hgives, hmarked⟩
      · rcases ih hnext hsame with hkept | ⟨hnone, done, giving, later, a, hsplit, hgives, hbefore,
          hafter⟩
        · exact Or.inl (at_all_times held hkept)
        · refine Or.inr ⟨hnone, operation :: done, giving, later, a, ?_, hgives, ?_, hafter⟩
          · rw [hsplit]
            rfl
          · exact at_all_times held hbefore
      · -- From here on the block has an attribute, so it cannot get another one.
        rcases ih hnext hmarked with hkept | ⟨hagain, -⟩
        · refine Or.inr ⟨hnone, [], operation, rest, a, rfl, hgives, fun ops hops => ?_, hkept⟩
          rw [List.prefix_nil.mp hops]
          exact held
        · cases hagain

/-- A block `M` that has taken the blocks of a grouping. -/
def regroupedStart : List Operation :=
  [.define false (.vars "x" [] []),
   .define false (.blocks [⟨"A", [], [.ref false "x" []]⟩] [] (some "G")),
   .define false (.blocks [⟨"M", [], [.all "G"]⟩] [] none)]

/-- The grouping is listed anew and put into another block. Of the attributes for `M` the first is
given, the second is refused. -/
def regroupedRest : List Operation :=
  [.define false (.blocks [⟨"B", [], [.ref true "x" []]⟩] [] (some "G")), .generateCircuit,
   .define false (.mark [("M", [])] "OR"),
   .define false (.blocks [⟨"N", [], [.all "G"]⟩] [] none),
   .define false (.markGrouping "G" "AND"), .define false (.mark [("M", [])] "AND")]

end Operation

end QuantFamily
