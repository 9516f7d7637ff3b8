import QuantFamily.Proofs.Block.Batch
import QuantFamily.Proofs.Session.Faults

/-!
# Names that are taken

A variable that is declared once more ends in a fault. A block that is defined once more does not:
wherever the name of a block is in use already, as that of a block or of a variable, the definition
is passed over and its bricks are never looked at. The fault that is there for it cannot come,
because a block is registered only after its name has been found free.
-/

namespace QuantFamily

/-- A name is declared or defined once more. -/
def Fault.isRepetition : Fault → Bool
  | .repeatedVariable _ => true
  | .repeatedBlock _ => true
  | _ => false

/-- The faults other than those of repeated names. -/
def Fault.IsOther (fault : Fault) : Prop :=
  fault.isRepetition = false

namespace Formula

variable {φ : Formula}

/-! ## Faults -/

theorem ofFailure_isOther (failure : Expr.Failure) : (Fault.ofFailure failure).IsOther := by
  cases failure <;> rfl

theorem evaluate_confined (expression : String) (indices : Valuation) :
    Confined Fault.IsOther (φ.evaluate expression indices) := by
  unfold evaluate
  split
  · exact .ok _
  · exact .error (ofFailure_isOther _)

theorem evaluatePair_confined (low high : String) (indices : Valuation) :
    Confined Fault.IsOther (φ.evaluatePair low high indices) := by
  unfold evaluatePair
  dsimp only
  split
  · exact .error rfl
  · exact .error (ofFailure_isOther _)

theorem between_confined (low high : String) (indices : Valuation) :
    Confined Fault.IsOther (φ.between low high indices) := by
  refine .bind (evaluate_confined low indices) fun first => ?_
  refine .bind (evaluate_confined high indices) fun last => ?_
  split
  · exact .ok _
  · exact .error rfl

theorem extend_confined (pinned : Valuation) (condition : Condition) (v : Valuation) :
    Confined Fault.IsOther (φ.extend pinned condition v) := by
  cases condition with
  | test expression => exact .bind (evaluate_confined expression v) fun _ => .ok _
  | range index low high =>
      simp only [extend]
      split
      · exact .bind (evaluatePair_confined low high v) fun _ => .ok _
      · split
        · exact .ok _
        · exact .bind (between_confined low high v) fun _ => .ok _

theorem valuations_confined (conditions : List Condition) (pinned : Valuation) :
    Confined Fault.IsOther (φ.valuations conditions pinned) := by
  rw [valuations_eq_foldlM]
  refine .foldlM conditions (fun found condition => ?_) _
  exact .bind (.mapM found fun v _ => extend_confined pinned condition v) fun _ => .ok _

theorem substitute_confined (indices : List String) (bound more : Valuation) :
    Confined Fault.IsOther (φ.substitute indices bound more) := by
  refine .mapM indices fun index _ => ?_
  unfold substituteIndex
  split
  · exact .ok _
  · split
    · exact .ok _
    · split
      · exact .ok _
      · split
        · exact .ok _
        · exact .error rfl

/-! ## Taken names -/

/-- The name of a definition for a valuation is in use. -/
def isTaken (φ : Formula) (definition : Definition) (v : Valuation) : Bool :=
  match φ.headOf definition v with
  | .ok name => φ.isDefined name
  | .error _ => false

theorem exists_of_isTaken {definition : Definition} {v : Valuation}
    (h : φ.isTaken definition v = true) :
    ∃ name, φ.headOf definition v = .ok name ∧ φ.isDefined name = true := by
  unfold isTaken at h
  split at h
  · rename_i name hhead
    exact ⟨name, hhead, h⟩
  · cases h

end Formula

open Formula

namespace Action

variable {φ : Formula} {conditions : List Condition} {grouping : Option String}

/-- What an action does in any session, as far as its faults are concerned. -/
abbrev EndsOtherwise {α : Type} (action : Action α) : Prop :=
  Keeps (fun _ => True) Fault.IsOther action

theorem bind_formula_endsOtherwise {α : Type} {next : Formula → Action α}
    (h : ∀ φ, EndsOtherwise (next φ)) : EndsOtherwise (formula >>= next) :=
  Keeps.bind_formula (K := fun _ => True) fun φ _ => h φ

theorem brickStart_endsOtherwise (brick : Brick) : EndsOtherwise (brickStart brick) := by
  cases brick with
  | ref negated name indices => exact .pure _
  | all grouping =>
      refine bind_formula_endsOtherwise fun φ => ?_
      split
      · exact .pure _
      · exact .bind (fun _ _ => trivial) fun _ => .pure _

theorem brickId_endsOtherwise (name : String) : EndsOtherwise (brickId name) :=
  bind_formula_endsOtherwise fun _ => .orElse rfl

theorem brickIds_endsOtherwise (brick : Brick) (left : Valuation) (found : List Valuation)
    (used : List Id) : EndsOtherwise (brickIds brick left found used) := by
  cases brick with
  | all grouping => exact .pure _
  | ref negated name indices =>
      refine .foldlM found (fun result v => ?_) _
      refine bind_formula_endsOtherwise fun φ => ?_
      refine .bind (.lift (Formula.substitute_confined indices left v)) fun values => ?_
      have hname : Confined Fault.IsOther (brickName name values indices) := by
        unfold brickName
        dsimp only
        split
        · exact .error rfl
        · exact .ok _
      refine .bind (.lift hname) fun text => .bind (brickId_endsOtherwise text) fun id => ?_
      have hsigned : Confined Fault.IsOther (signedId negated id) := by
        unfold signedId
        split
        · split
          · exact .error rfl
          · exact .ok _
        · exact .ok _
      refine .bind (.lift hsigned) fun signed => ?_
      split
      · exact .pure _
      · exact .pure _

theorem bodyIds_endsOtherwise (left : Valuation) (bricks : List Brick) (used : List Id) :
    EndsOtherwise (bodyIds conditions left bricks used) := by
  induction bricks generalizing used with
  | nil => exact .pure _
  | cons brick rest ih =>
      rw [bodyIds_cons]
      refine bind_formula_endsOtherwise fun φ => ?_
      refine .bind (.lift (Formula.valuations_confined conditions left)) fun found => ?_
      refine .bind (brickIds_endsOtherwise brick left found used) fun result => ?_
      exact .bind (ih result.2) fun _ => .pure _

/-- A block is registered only if its name is free, and then nothing is repeated. -/
theorem register_endsOtherwise {name : String} {next : Action (Option Id)}
    (h : EndsOtherwise next) :
    EndsOtherwise (do
      if (<- formula).isDefined name then return none
      else
        saveBlock name
        next) := by
  intro s _
  have hread : (do
      if (<- formula).isDefined name then return none
      else
        saveBlock name
        next) s = (if s.formula.isDefined name = true then pure none
        else saveBlock name >>= fun _ => next : Action (Option Id)) s := rfl
  rw [hread]
  cases hdefined : s.formula.isDefined name with
  | true => trivial
  | false =>
      have hsaved := saveBlock_leads (E := fun _ => False) hdefined s rfl
      rw [if_neg Bool.false_ne_true]
      cases run : saveBlock name s with
      | error fault t =>
          rw [run] at hsaved
          exact hsaved.elim
      | ok _ t =>
          rw [run_bind_of_ok run]
          exact h t trivial

theorem addBlock_endsOtherwise (definition : Definition) (v : Valuation) :
    EndsOtherwise (addBlock definition conditions grouping v) := by
  refine bind_formula_endsOtherwise fun φ => ?_
  refine .bind (.lift (Formula.substitute_confined definition.indices v {})) fun indices => ?_
  have hname : Confined Fault.IsOther (headName definition.name indices) := by
    unfold headName
    split
    · exact .ok _
    · exact .error rfl
  refine .bind (.lift hname) fun name => register_endsOtherwise ?_
  refine .bind (brickId_endsOtherwise name) fun id => ?_
  refine .bind (.mapM _ fun brick _ => brickStart_endsOtherwise brick) fun starts => ?_
  refine .bind (bodyIds_endsOtherwise _ _ _) fun ids => ?_
  split
  · exact .throw rfl
  · refine .bind (.bind (brickId_endsOtherwise name) fun _ => .update fun _ _ => trivial) fun _ => ?_
    exact .pure _

theorem addBlocks_endsOtherwise (definitions : List Definition) :
    EndsOtherwise (addBlocks definitions conditions grouping) := by
  rw [addBlocks_eq]
  refine .bind (.mapM _ fun definition _ => bind_formula_endsOtherwise fun φ => ?_) fun ids => ?_
  · refine .bind (.lift (Formula.valuations_confined conditions {})) fun found => ?_
    exact .filterMapM found fun v _ => addBlock_endsOtherwise definition v
  · unfold saveGrouping
    split
    · split
      · exact .pure _
      · exact .update fun _ _ => trivial
    · exact .pure _

/-! ## Passing over -/

theorem addBlock_of_taken {s : Session} {definition : Definition} {v : Valuation} {name : String}
    (headed : s.formula.headOf definition v = .ok name)
    (taken : s.formula.isDefined name = true) :
    addBlock definition conditions grouping v s = .ok none s := by
  obtain ⟨indices, hindices, hname⟩ := exists_ok_of_bind headed
  change (lift (s.formula.substitute definition.indices v) >>= _) s = _
  rw [hindices]
  change (lift (headName definition.name indices) >>= _) s = _
  rw [hname]
  change (if s.formula.isDefined name = true then pure none else _ : Action (Option Id)) s = _
  rw [if_pos taken]
  rfl

/-- The formula has the values of `φ`, and every name of `φ` is still in use. -/
structure Grown (φ ψ : Formula) : Prop where
  values : ψ.values = φ.values
  defined : ∀ name, φ.isDefined name = true → ψ.isDefined name = true

theorem addBlock_grown (definition : Definition) (v : Valuation) :
    Leads (fun s => Grown φ s.formula) (addBlock definition conditions grouping v)
      (fun _ s => Grown φ s.formula) (fun _ => True) := by
  refine Leads.of_formula (K := Grown φ) fun ψ grown => ?_
  refine Leads.mono (addBlock_builds definition conditions grouping v) (fun _ hs => hs) ?_
    fun _ _ => trivial
  rintro result t (⟨-, ht, -⟩ | ⟨b, hbuilds, -, ht⟩)
  · rwa [ht]
  · have hnew := @Formula.withBlocks_append_singleton ψ [] b
    rw [Formula.withBlocks_nil] at hnew
    rw [ht, ← hnew hbuilds.fresh hbuilds.id_eq]
    refine ⟨grown.values, fun name hname => ?_⟩
    exact (Formula.isDefined_withBlocks _ name).mpr (.inl (grown.defined name hname))

theorem Grown.headOf {ψ : Formula} (h : Grown φ ψ) (definition : Definition) (v : Valuation) :
    ψ.headOf definition v = φ.headOf definition v := by
  unfold Formula.headOf
  rw [Formula.substitute_congr h.values]

/-- One definition with some valuations. Those that lead to a name of `φ` make no difference. -/
theorem filterMapM_passes_over (definition : Definition) (found : List Valuation) {s : Session}
    (grown : Grown φ s.formula) :
    found.filterMapM (addBlock definition conditions grouping) s =
      (found.filter fun v => !φ.isTaken definition v).filterMapM
        (addBlock definition conditions grouping) s := by
  induction found generalizing s with
  | nil => rfl
  | cons v rest ih =>
      rw [List.filterMapM_cons]
      cases htaken : φ.isTaken definition v with
      | true =>
          obtain ⟨name, hhead, hname⟩ := exists_of_isTaken htaken
          have hrun : addBlock definition conditions grouping v s = .ok none s :=
            addBlock_of_taken ((grown.headOf definition v).trans hhead) (grown.defined name hname)
          rw [List.filter_cons_of_neg (by simp [htaken]), run_bind_of_ok hrun]
          exact ih grown
      | false =>
          rw [List.filter_cons_of_pos (by simp [htaken]), List.filterMapM_cons]
          cases hrun : addBlock definition conditions grouping v s with
          | error fault t => rw [run_bind_of_error hrun, run_bind_of_error hrun]
          | ok result t =>
              have hrest := ih ((addBlock_grown definition v).of_ok grown hrun)
              rw [run_bind_of_ok hrun, run_bind_of_ok hrun]
              cases result with
              | none => exact hrest
              | some id => exact run_bind_congr hrest _

/-- A statement does what it would do if the places whose names are taken were not there. -/
theorem addBlocks_passes_over (definitions : List Definition) {s : Session} {all : List Valuation}
    (hall : s.formula.valuations conditions = .ok all) :
    addBlocks definitions conditions grouping s = (do
      let ids <- definitions.mapM fun definition =>
        (all.filter fun v => !s.formula.isTaken definition v).filterMapM
          (addBlock definition conditions grouping)
      saveGrouping grouping ids.flatten) s := by
  rw [addBlocks_eq]
  refine run_bind_congr (run_mapM_congr (P := fun t => Grown s.formula t.formula) definitions ?_ ?_
    ⟨rfl, fun _ h => h⟩) _
  · intro definition t grown
    rw [← filterMapM_passes_over definition all grown]
    change (lift (t.formula.valuations conditions) >>= _) t = _
    rw [Formula.valuations_congr grown.values, hall]
    rfl
  · intro definition
    exact Leads.filterMapM (J := fun _ t => Grown s.formula t.formula) _
      (fun _ v _ => addBlock_grown definition v) []

theorem run_mapM_nil (definitions : List Definition) {kept : Definition → List Valuation}
    (h : ∀ definition ∈ definitions, kept definition = []) (s : Session) :
    definitions.mapM (fun definition =>
      (kept definition).filterMapM (addBlock definition conditions grouping)) s =
        .ok (definitions.map fun _ => []) s := by
  induction definitions with
  | nil => rfl
  | cons definition rest ih =>
      rw [List.forall_mem_cons] at h
      rw [List.mapM_cons, h.1, List.filterMapM_nil, pure_bind, run_bind_of_ok (ih h.2)]
      rfl

/-- Definitions that give new bodies to a block and to a variable. -/
def secondDefinitions : List Definition :=
  [⟨"A", [], [.ref false "y" []]⟩, ⟨"x", [], [.ref true "y" []]⟩]

end Action

end QuantFamily
