import QuantFamily.Request
import QuantFamily.Proofs.Circuit.Complete
import QuantFamily.Proofs.Output.Draft

/-!
# What a request does

A request for an output first looks at the format: it settles whether there is such an output at
all. A text that is kept with the formula is returned again. Otherwise it is written, the clause
texts from the circuit text, which may be kept while they are not.
-/

namespace QuantFamily

/-- The format asks for all quantifiers in front. -/
def Formula.IsPrenex (φ : Formula) : Prop :=
  φ.format = some .cnf ∨ φ.format = some .prenexCircuit

theorem Formula.isEmpty_clausesOf (φ : Formula) (circuit : String) :
    (φ.clausesOf circuit).isEmpty = false := by
  have hne : φ.clausesOf circuit ≠ "" := by
    unfold Formula.clausesOf
    generalize ClauseDraft.ofCircuit circuit = draft
    simp
  simpa using hne

/-- No text has been written yet. -/
structure Formula.Unwritten (φ : Formula) : Prop where
  circuit : φ.circuitText = none
  clauses : φ.clauseText = none
  nested : φ.nestedText = none

namespace Session

theorem Built.formula_unwritten {edition : Edition} {s : Session} (h : s.Built edition) :
    s.formula.Unwritten := by
  refine h.steps.invariant (I := Formula.Unwritten) ?_ ⟨rfl, rfl, rfl⟩
  intro φ ψ hstep hφ
  cases hstep <;> exact ⟨hφ.circuit, hφ.clauses, hφ.nested⟩

/-- The circuit text is kept with the formula, or it is written just now. -/
inductive Supplies (t : Session) (text : String) : Session → Prop
  | kept (h : t.formula.circuitText = some text) : Supplies t text t
  | written {u : Session} (h : t.formula.circuitText = none)
      (run : Action.generateCircuit .full t = .ok text u) : Supplies t text u

/-- What the converter leaves of a circuit text. -/
def converted (circuit : String) : String :=
  ((Circuit.Conversion.run {} circuit).text).getD ""

end Session

open Session

namespace Action

variable {s t u : Session} {form : OutputForm} {answer : Option String} {text : String}

theorem run_formula_bind {α : Type} (next : Formula → Action α) (t : Session) :
    (formula >>= next) t = next t.formula t :=
  run_bind_of_ok rfl

theorem circuitText_kept (format : t.formula.IsPrenex) (kept : t.formula.circuitText = some text) :
    circuitText .full t = .ok (some text) t := by
  unfold circuitText
  rw [run_formula_bind]
  rcases format with hformat | hformat <;>
    · rw [hformat]
      dsimp only
      rw [run_formula_bind, kept]
      rfl

theorem circuitText_unkept (format : t.formula.IsPrenex)
    (unkept : t.formula.circuitText = none) :
    circuitText .full t = (generateCircuit .full >>= fun text => pure (some text)) t := by
  unfold circuitText
  rw [run_formula_bind]
  rcases format with hformat | hformat <;>
    · rw [hformat]
      dsimp only
      rw [run_formula_bind, unkept]

/-- A circuit text is returned exactly if it is kept or can be written. -/
theorem circuitText_iff (format : t.formula.IsPrenex) :
    circuitText .full t = .ok answer u ↔ ∃ text, answer = some text ∧ t.Supplies text u := by
  constructor
  · intro run
    cases hkept : t.formula.circuitText with
    | some text =>
        rw [circuitText_kept format hkept] at run
        cases run
        exact ⟨text, rfl, .kept hkept⟩
    | none =>
        rw [circuitText_unkept format hkept] at run
        obtain ⟨text, v, hwritten, hpure⟩ := exists_of_run_bind run
        cases hpure
        exact ⟨text, rfl, .written hkept hwritten⟩
  · rintro ⟨text, rfl, hsupplies⟩
    cases hsupplies with
    | kept h => exact circuitText_kept format h
    | written h run =>
        rw [circuitText_unkept format h]
        exact run_bind_of_ok run

/-- The clause text of a formula in clause form is made from the circuit text. -/
theorem generateClauses_iff :
    generateClauses .full t = .ok text u ↔ ∃ circuit v, t.Supplies circuit v ∧
      text = v.formula.clausesOf circuit ∧
      u = { v with formula := { v.formula with clauseText := some text } } := by
  unfold generateClauses
  rw [run_formula_bind]
  constructor
  · intro run
    cases hkept : t.formula.circuitText with
    | some circuit =>
        rw [hkept] at run
        cases run
        exact ⟨circuit, t, .kept hkept, rfl, rfl⟩
    | none =>
        rw [hkept] at run
        obtain ⟨circuit, v, hcircuit, run⟩ := exists_of_run_bind run
        cases run
        exact ⟨circuit, v, .written hkept hcircuit, rfl, rfl⟩
  · rintro ⟨circuit, v, hsupplies, rfl, rfl⟩
    cases hsupplies with
    | kept h =>
        rw [h]
        rfl
    | written h run =>
        rw [h]
        exact run_bind_of_ok run

/-- The converter is looked for behind the writing of the circuit. -/
theorem convertCircuit_run {circuit : String}
    (run : circuitText .full (withEmptyFiles t) = .ok (some circuit) u) :
    convertCircuit .full t = if u.hasConverter then
      .ok (converted circuit) { u with
        formula := { u.formula with clauseText := some (converted circuit) }
        files := ((u.files.put circuitFile circuit).erase circuitFile).erase clauseFile }
    else .error .missingConverter { u with files := u.files.put circuitFile circuit } := by
  change (circuitText .full >>= _) (withEmptyFiles t) = _
  rw [run_bind_of_ok run]
  obtain ⟨φ, transcript, files, hasConverter⟩ := u
  cases hasConverter <;> rfl

theorem clauseText_kept (format : t.formula.format = some .cnf)
    (kept : t.formula.clauseText = some text) (h : text.isEmpty = false) :
    clauseText .full t = .ok (some text) t := by
  unfold clauseText
  rw [run_formula_bind, format]
  dsimp only
  rw [run_formula_bind, kept]
  dsimp only
  rw [h]
  rfl

/-! ## Requests that the format settles -/

theorem outputText_unknown (h : form ≠ .nestedCircuit) (format : t.formula.format = none) :
    outputText .full form t = .ok none t := by
  cases form with
  | circuit | clauses =>
      change (formula >>= _) t = _
      rw [run_formula_bind, format]
      rfl
  | nestedCircuit => exact absurd rfl h

theorem outputText_refused (h : form ≠ .nestedCircuit) (format : t.formula.format = some .circuit) :
    outputText .full form t = .error .needsNestedOutput t := by
  cases form with
  | circuit | clauses =>
      change (formula >>= _) t = _
      rw [run_formula_bind, format]
      rfl
  | nestedCircuit => exact absurd rfl h

theorem nestedText_refused (format : t.formula.IsPrenex) :
    nestedText t = .error .needsPrenexOutput t := by
  unfold nestedText
  rw [run_formula_bind]
  rcases format with hformat | hformat <;>
    · rw [hformat]
      rfl

theorem nestedText_kept (format : ¬ t.formula.IsPrenex) (kept : t.formula.nestedText = some text) :
    nestedText t = .ok text t := by
  unfold nestedText
  rw [run_formula_bind]
  cases hformat : t.formula.format with
  | none =>
      dsimp only
      rw [kept]
      rfl
  | some written =>
      cases written with
      | cnf => exact absurd (Or.inl hformat) format
      | prenexCircuit => exact absurd (Or.inr hformat) format
      | circuit =>
          dsimp only
          rw [kept]
          rfl

theorem nestedText_unkept (format : ¬ t.formula.IsPrenex) (unkept : t.formula.nestedText = none) :
    nestedText t = (lift t.formula.nestedCircuit >>= fun text => do
      update fun φ => { φ with nestedText := some text }
      return text) t := by
  unfold nestedText
  rw [run_formula_bind]
  cases hformat : t.formula.format with
  | none =>
      dsimp only
      rw [unkept]
      rfl
  | some written =>
      cases written with
      | cnf => exact absurd (Or.inl hformat) format
      | prenexCircuit => exact absurd (Or.inr hformat) format
      | circuit =>
          dsimp only
          rw [unkept]
          rfl

end Action

end QuantFamily
