import QuantFamily.Proofs.Output.Requests
import QuantFamily.Proofs.Output.Shape

/-!
# Requests that are answered or diagnosed

A request should return a text or end in a fault that is reported. Writing the gates of a matrix
does: the faults it can end in are those of operators with a wrong number of bricks or without an
operator, and each of them has its message. What comes before the gates does not ask for the shape
of the output block, so a request is answered or diagnosed exactly where that shape is right.
-/

namespace QuantFamily

namespace Action

variable {α β : Type} {P : Session → Prop} {s t : Session}

/-- The action returns, or it ends in a fault that is reported. -/
def Settles (action : Action α) (s : Session) : Prop :=
  (∃ a t, action s = .ok a t) ∨ ∃ fault t, action s = .error fault t ∧ fault.report? ≠ none

/-- What always returns settles nothing. -/
theorem settles_bind_iff {action : Action α} {next : α → Action β}
    (h : ∀ a t, ∃ b u, next a t = .ok b u) : Settles (action >>= next) s ↔ Settles action s := by
  cases run : action s with
  | ok a t =>
      obtain ⟨b, u, hnext⟩ := h a t
      have hbind : (action >>= next) s = .ok b u := (run_bind_of_ok run).trans hnext
      exact iff_of_true (Or.inl ⟨b, u, hbind⟩) (Or.inl ⟨a, t, run⟩)
  | error fault t =>
      unfold Settles
      rw [run, run_bind_of_error run]
      simp

/-! ## Gates -/

/-- Run in a session with `P`, the action keeps `P` when it returns, and a fault that it ends in is
reported. -/
abbrev Reports (P : Session → Prop) (action : Action α) : Prop :=
  Keeps P (fun fault => fault.report? ≠ none) action

theorem Reports.settles {action : Action α} (h : Reports P action) (hs : P s) : Settles action s := by
  have hrun := h s hs
  cases run : action s with
  | ok a t => exact Or.inl ⟨a, t, run⟩
  | error fault t =>
      rw [run] at hrun
      exact Or.inr ⟨fault, t, run, hrun⟩

theorem gateLines_reports {P : Session → Prop} (fresh : Reports P twoFresh) (b : Block) :
    Reports P (gateLines b) :=
  gateLines_keeps fresh (fun _ => by simp [Fault.report?]) fun _ => by simp [Fault.report?]

/-- Where no block contains itself, writing a gate ends in no other faults than those of
operators. -/
theorem writeGate_reports {φ : Formula} (hφ : φ.WellFormed) (acyclic : φ.Acyclic) {fuel : Nat}
    {id : Id} {b : Block} (hb : φ.contents.get? id = some b) (enough : φ.rank id < fuel) :
    Reports (fun s => s.formula.contents = φ.contents) (writeGate fuel b) := by
  induction fuel generalizing id b with
  | zero => cases enough
  | succ fuel ih =>
      refine .bind (.forM b.body fun brick hbrick =>
        .bind_formula (K := fun ψ => ψ.contents = φ.contents) fun ψ hψ => ?_) fun _ => ?_
      · dsimp only
        rw [hψ]
        cases hget : φ.contents.get? (Int.ofNat brick.natAbs) with
        | none => exact .pure ()
        | some operand =>
            have hrank := hφ.rank_lt hb hbrick (acyclic.natAbs_ne hb hbrick)
            dsimp only
            split
            · exact .pure ()
            · exact ih hget (Nat.lt_of_lt_of_le hrank (Nat.le_of_lt_succ enough))
      · have hfresh : Reports (fun s : Session => s.formula.contents = φ.contents) twoFresh :=
          .bind_formula (K := fun ψ => ψ.contents = φ.contents) fun _ _ =>
            .bind (.update fun _ hs => hs) fun _ => .pure _
        exact .bind (.update fun _ hs => hs) fun _ => .bind (gateLines_reports hfresh b)
          fun lines => .forM lines fun _ _ => .update fun _ hs => hs

/-- The gates below a block are written, or a fault is reported. -/
theorem gatesBelow_settles (hφ : t.formula.WellFormed) (acyclic : t.formula.Acyclic) {id : Id}
    {b : Block} (hb : t.formula.contents.get? id = some b) : Settles (gatesBelow .full b) t := by
  have hreports := writeGate_reports hφ acyclic hb (t.formula.rank_lt_nestingBound id)
  have hwritten : Settles (writeOnBoard b) t := hreports.settles rfl
  change Settles (writeOnBoard b >>= fun _ => formula >>= fun φ => pure φ.board) t
  exact (settles_bind_iff fun _ u => ⟨u.formula.board, u, rfl⟩).mpr hwritten

/-! ## Circuits -/

/-- An outcome whose fault would not be reported is a result. -/
theorem exists_ok_of_settles {outcome : Except Fault α} {next : α → Action β}
    (quiet : Unreported outcome) (h : Settles (lift outcome >>= next) t) :
    ∃ a, outcome = .ok a ∧ Settles (next a) t := by
  cases outcome with
  | ok a => exact ⟨a, rfl, h⟩
  | error fault =>
      rcases h with ⟨a, u, hok⟩ | ⟨other, u, herror, hreport⟩
      · cases hok
      · cases herror
        exact absurd (quiet fault rfl) hreport

/-- The circuit is written, or a fault is reported, exactly if the output block has its parts. -/
theorem generateCircuit_settles_iff (hφ : t.formula.WellFormed) (hfull : t.formula.Complete)
    (acyclic : t.formula.Acyclic) :
    Settles (generateCircuit .full) t ↔ t.formula.Divided := by
  constructor
  · intro h
    change Settles (lift (t.formula.outputPart 0) >>= _) t at h
    obtain ⟨quantifiers, hfirst, h⟩ :=
      exists_ok_of_settles (t.formula.outputPart_unreported 0) h
    obtain ⟨quantified, hquantified, h⟩ :=
      exists_ok_of_settles (t.formula.contentsOf_unreported _) h
    obtain ⟨lines, hlines, h⟩ :=
      exists_ok_of_settles (t.formula.quantifierLines_unreported _ _) h
    obtain ⟨matrix, hsecond, h⟩ := exists_ok_of_settles (t.formula.outputPart_unreported 1) h
    obtain ⟨root, hroot, -⟩ := exists_ok_of_settles (t.formula.contentsOf_unreported _) h
    exact Formula.divided_of_headed ⟨⟨quantifiers, quantified, hfirst, hquantified, hlines⟩,
      hsecond, get?_of_contentsOf hroot⟩
  · intro divided
    obtain ⟨lines, matrix, root, ⟨quantifiers, quantified, hfirst, hquantified, hlines⟩, hsecond,
      held⟩ := Formula.headed_of_divided hφ hfull acyclic divided
    have hroot : t.formula.contentsOf matrix = .ok root := by rw [Formula.contentsOf, held]
    unfold Settles generateCircuit
    rw [run_formula_bind, run_bind_of_ok (run_lift_of_ok hfirst t),
      run_bind_of_ok (run_lift_of_ok hquantified t), run_bind_of_ok (run_lift_of_ok hlines t),
      run_bind_of_ok (run_lift_of_ok hsecond t), run_bind_of_ok (run_lift_of_ok hroot t)]
    exact (settles_bind_iff fun gates u => ⟨_, _, rfl⟩).mpr (gatesBelow_settles hφ acyclic held)

theorem circuitText_settles_iff (format : t.formula.IsPrenex)
    (unkept : t.formula.circuitText = none) :
    Settles (circuitText .full) t ↔ Settles (generateCircuit .full) t := by
  unfold Settles
  rw [circuitText_unkept format unkept]
  exact settles_bind_iff fun text u => ⟨_, _, rfl⟩

theorem generateClauses_settles_iff (unkept : t.formula.circuitText = none) :
    Settles (generateClauses .full) t ↔ Settles (generateCircuit .full) t := by
  unfold Settles generateClauses
  rw [run_formula_bind, unkept]
  exact settles_bind_iff fun text u => ⟨_, _, rfl⟩

/-- A missing converter is reported, so only the circuit matters. -/
theorem convertCircuit_settles_iff (format : t.formula.format = some .prenexCircuit) :
    Settles (convertCircuit .full) t ↔ Settles (circuitText .full) (withEmptyFiles t) := by
  cases run : circuitText .full (withEmptyFiles t) with
  | error fault u =>
      unfold Settles
      rw [run, convertCircuit_of_error run]
      simp
  | ok found u =>
      cases found with
      | none => exact absurd run (circuitText_ne_none format)
      | some circuit =>
          refine iff_of_true ?_ (Or.inl ⟨_, u, run⟩)
          unfold Settles
          rw [convertCircuit_run run]
          by_cases hconverter : u.hasConverter = true
          · rw [if_pos hconverter]
            exact Or.inl ⟨_, _, rfl⟩
          · rw [if_neg hconverter]
            exact Or.inr ⟨_, _, rfl, by simp [Fault.report?]⟩

end Action

/-! ## Requests -/

open QuantFamily.Action

namespace Session

variable {s : Session} {form : OutputForm}

/-- A request returns a text, or it ends in a fault that is reported. -/
def Answered (s : Session) (form : OutputForm) : Prop :=
  (∃ text t, outputText .full form s = .ok (some text) t) ∨
    ∃ fault t, outputText .full form s = .error fault t ∧ fault.report? ≠ none

theorem answered_iff_settles {action : Action String}
    (h : outputText .full form s = (action >>= fun text => pure (some text)) s) :
    s.Answered form ↔ Settles action s := by
  unfold Answered
  rw [h]
  cases run : action s with
  | ok text t =>
      have hok : (action >>= fun text => pure (some text)) s = .ok (some text) t :=
        run_bind_of_ok run
      exact iff_of_true (Or.inl ⟨text, t, hok⟩) (Or.inl ⟨text, t, run⟩)
  | error fault t =>
      unfold Settles
      rw [run, run_bind_of_error run]
      simp

end Session

/-- The shape that a form of output needs. A format that rules the form out is reported. -/
def Formula.Suits (φ : Formula) : OutputForm → Prop
  | .nestedCircuit => φ.IsPrenex ∨ φ.Nestable
  | _ => φ.format = some .circuit ∨ φ.IsPrenex ∧ φ.Divided

namespace Session

variable {s : Session}

theorem answered_nested_iff (built : s.Built .full) (acyclic : s.formula.Acyclic) :
    s.Answered .nestedCircuit ↔ s.formula.IsPrenex ∨ s.formula.Nestable := by
  have hrequest : outputText .full .nestedCircuit s =
      (Action.nestedText >>= fun text => pure (some text)) s := rfl
  rw [answered_iff_settles hrequest]
  by_cases prenex : s.formula.IsPrenex
  · refine iff_of_true (Or.inr ⟨_, s, nestedText_refused prenex, ?_⟩) (Or.inl prenex)
    simp [Fault.report?]
  · rw [or_iff_right prenex,
      ← Formula.nestedCircuit_iff built.wellFormed built.complete acyclic]
    unfold Settles
    rw [nestedText_unkept prenex built.formula_unwritten.nested]
    constructor
    · intro h
      obtain ⟨text, htext, -⟩ := exists_ok_of_settles s.formula.nestedCircuit_unreported h
      exact ⟨text, htext⟩
    · rintro ⟨text, htext⟩
      rw [htext]
      exact Or.inl ⟨_, _, rfl⟩

theorem answered_prenex_iff (built : s.Built .full) (acyclic : s.formula.Acyclic)
    (prenex : s.formula.IsPrenex) {form : OutputForm} (hform : form ≠ .nestedCircuit) :
    s.Answered form ↔ s.formula.Divided := by
  have unwritten := built.formula_unwritten
  have hcircuit := generateCircuit_settles_iff built.wellFormed built.complete acyclic
  cases form with
  | nestedCircuit => exact absurd rfl hform
  | circuit =>
      have hrequest : outputText .full .circuit s =
          (generateCircuit .full >>= fun text => pure (some text)) s :=
        circuitText_unkept prenex unwritten.circuit
      exact (answered_iff_settles hrequest).trans hcircuit
  | clauses =>
      rcases prenex with hcnf | hprenex
      · have hrequest : outputText .full .clauses s =
            (generateClauses .full >>= fun text => pure (some text)) s :=
          clauseText_of_generateClauses hcnf unwritten.clauses
        exact (answered_iff_settles hrequest).trans
          ((generateClauses_settles_iff unwritten.circuit).trans hcircuit)
      · have hrequest : outputText .full .clauses s =
            (convertCircuit .full >>= fun text => pure (some text)) s :=
          clauseText_of_prenex hprenex
        have hfiles : Settles (circuitText .full) (withEmptyFiles s) ↔
            Settles (generateCircuit .full) (withEmptyFiles s) :=
          circuitText_settles_iff (.inr hprenex) unwritten.circuit
        have hcircuit' : Settles (generateCircuit .full) (withEmptyFiles s) ↔ s.formula.Divided :=
          generateCircuit_settles_iff built.wellFormed built.complete acyclic
        exact (answered_iff_settles hrequest).trans
          ((convertCircuit_settles_iff hprenex).trans (hfiles.trans hcircuit'))

/-- Where no block contains itself, a request is answered with a text or a report exactly if the
output block has the shape that it needs. -/
theorem answered_iff_suits (built : s.Built .full) (acyclic : s.formula.Acyclic)
    (form : OutputForm) : s.Answered form ↔ s.formula.Suits form := by
  by_cases hform : form = .nestedCircuit
  · subst hform
    exact answered_nested_iff built acyclic
  · have hsuits : s.formula.Suits form ↔
        s.formula.format = some .circuit ∨ s.formula.IsPrenex ∧ s.formula.Divided := by
      cases form with
      | nestedCircuit => exact absurd rfl hform
      | circuit | clauses => exact Iff.rfl
    rw [hsuits]
    by_cases prenex : s.formula.IsPrenex
    · have hcircuit : s.formula.format ≠ some .circuit := by
        unfold Formula.IsPrenex at prenex
        rcases prenex with h | h <;> rw [h] <;> decide
      rw [answered_prenex_iff built acyclic prenex hform, or_iff_right hcircuit,
        and_iff_right prenex]
    · rw [or_iff_left fun h => prenex h.1]
      cases hformat : s.formula.format with
      | none =>
          unfold Answered
          rw [outputText_unknown hform hformat]
          simp
      | some format =>
          cases format with
          | cnf => exact absurd (Or.inl hformat) prenex
          | prenexCircuit => exact absurd (Or.inr hformat) prenex
          | circuit =>
              refine iff_of_true (Or.inr ⟨_, s, outputText_refused hform hformat, ?_⟩) rfl
              simp [Fault.report?]

/-- Statements for a formula of two variables with a conjunction `M` and a quantifier `Q`, whose
output block has the given bricks. -/
def shapedStatements (format : String) (parts : List Brick) : List Language.Statement :=
  [.format format, .vars "x" [] [], .vars "y" [] [],
   .blocks [⟨"M", [], [.ref false "x" [], .ref false "y" []]⟩] [] none,
   .blocks [⟨"Q", [], [.ref false "x" [], .ref false "y" []]⟩] [] none,
   .blocks [⟨"P", [], parts⟩] [] none, .mark [("M", [])] "AND", .mark [("Q", [])] "E",
   .output "P" []]

def shapedSession (format : String) (parts : List Brick) : Session :=
  (perform ((shapedStatements format parts).forM (Language.Statement.perform .full false)) {}).2

/-- All statements take effect, there is an output block, and no body lists its own block. -/
def Accepted (format : String) (parts : List Brick) : Prop :=
  (perform ((shapedStatements format parts).forM (Language.Statement.perform .full false))
      {}).1.toOption = some () ∧
    (shapedSession format parts).formula.output ≠ none ∧
    ∀ b ∈ (shapedSession format parts).formula.contents.values, ∀ e ∈ b.body,
      (e.natAbs : Int) ≠ b.id

theorem Accepted.built {format : String} {parts : List Brick} (h : Accepted format parts) :
    (shapedSession format parts).Built .full :=
  ⟨false, shapedStatements format parts, {}, ok_of_perform h.1⟩

theorem Accepted.acyclic {format : String} {parts : List Brick} (h : Accepted format parts) :
    (shapedSession format parts).formula.Acyclic :=
  h.built.wellFormed.acyclic h.2.2

theorem answered_iff_suits_divided :
    (shapedSession "circuit-prenex" [.ref false "Q" [], .ref false "M" []]).Built .full ∧
      (shapedSession "circuit-prenex" [.ref false "Q" [], .ref false "M" []]).formula.Acyclic ∧
      (shapedSession "circuit-prenex" [.ref false "Q" [], .ref false "M" []]).formula.Suits
        .clauses ∧
      (shapedSession "circuit-prenex" [.ref false "Q" [], .ref false "M" []]).Answered
        .clauses := by
  have accepted : Accepted "circuit-prenex" [.ref false "Q" [], .ref false "M" []] := by
    unfold Accepted
    decide +kernel
  generalize hs : shapedSession "circuit-prenex" [.ref false "Q" [], .ref false "M" []] = s
  have hfacts : s.formula.format = some .prenexCircuit ∧ s.formula.output = some 5 ∧
      s.formula.contents.get? 5 = some ⟨"P( )", 5, [4, 3], none, none⟩ ∧
      s.formula.contents.get? 4 =
        some ⟨"Q( )", 4, [1, 2], none, some (.quantifier .existential)⟩ ∧
      (3 : Int) ∈ s.formula.contents.keys ∧ (4 : Int) ∈ s.formula.contents.keys := by
    rw [← hs]
    decide +kernel
  obtain ⟨format, output, held, quantified, hmatrix, hquantifiers⟩ := hfacts
  -- The prefix is a single block, and it carries a quantifier.
  have lists : s.formula.ListsBlocks 4 := by
    intro b hblock hmark
    cases hblock with
    | first hb =>
        cases quantified.symm.trans hb
        cases hmark
    | listed hb hunmarked =>
        cases quantified.symm.trans hb
        cases hunmarked
  have suits : s.formula.Suits .clauses :=
    Or.inr ⟨Or.inr format, 5, _, 4, 3, [], output, held, rfl, hquantifiers, hmatrix, lists⟩
  have built : s.Built .full := hs ▸ accepted.built
  have acyclic : s.formula.Acyclic := hs ▸ accepted.acyclic
  exact ⟨built, acyclic, suits, (answered_iff_suits built acyclic .clauses).mpr suits⟩

/-! ## Requests that stop without a word -/

/-- Statements that all take effect, with an output block and no block that contains itself, and yet
the request ends in a fault that nobody is told of. -/
def StopsSilently (format : String) (parts : List Brick) (form : OutputForm) (fault : Fault) :
    Prop :=
  Accepted format parts ∧ fault.report? = none ∧
    ((outputText .full form).perform (shapedSession format parts)).1 = .error fault

/-- A negated matrix, an output block of one brick, a variable for the prefix, and a quantified gate
whose body is a variable. -/
theorem unfit_outputs_stop_silently :
    StopsSilently "circuit-prenex" [.ref false "Q" [], .ref true "M" []] .circuit .missingEntry ∧
      StopsSilently "circuit-prenex" [.ref false "Q" []] .circuit .missingItem ∧
      StopsSilently "circuit-prenex" [.ref false "x" [], .ref false "M" []] .clauses .missingEntry ∧
      StopsSilently "circuit-nonprenex" [.ref false "Q" [], .ref false "x" []] .nestedCircuit
        .missingEntry := by
  unfold StopsSilently Accepted
  decide +kernel

end Session

end QuantFamily
