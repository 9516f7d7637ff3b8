import QuantFamily.Proofs.Language.Sections
import QuantFamily.Proofs.Output.Requests
import QuantFamily.Proofs.Session.Follow

/-!
# Requests that do not disturb each other

Writing a circuit gives out identifiers and fills the board, and each text is kept with the formula
once it has been written. None of this shows in the answers: what a request for an output returns
is settled by the formula as the statements have left it, whichever requests came before. The
requests leave only three kinds of formula behind, and each of them answers every request alike.
-/

namespace QuantFamily

namespace Session

/-! ## What the requests return -/

/-- The answer to a request for an output, from the formula as it stands, with no text kept. -/
inductive Answers (s : Session) : OutputForm → Option String → Prop
  | unknown {form : OutputForm} (format : s.formula.format = none) (h : form ≠ .nestedCircuit) :
      Answers s form none
  | circuit {text : String} {u : Session} (format : s.formula.IsPrenex)
      (run : Action.generateCircuit .full s = .ok text u) : Answers s .circuit (some text)
  | clauses {text : String} {u : Session} (format : s.formula.format = some .cnf)
      (run : Action.generateCircuit .full s = .ok text u) :
      Answers s .clauses (some (s.formula.clausesOf text))
  | converted {text : String} {u : Session} (format : s.formula.format = some .prenexCircuit)
      (converter : s.hasConverter = true)
      (run : Action.generateCircuit .full s = .ok text u) :
      Answers s .clauses (some (converted text))
  | nested {text : String} (format : ¬ s.formula.IsPrenex)
      (written : s.formula.nestedCircuit = .ok text) : Answers s .nestedCircuit (some text)

end Session

open Session

open QuantFamily.Action

/-! ## What the requests leave behind -/

namespace Session

/-- The formulas that requests leave behind. Texts of prenex and of other formulas never meet, and
a clause text that is returned again later is that of the circuit text beside it. -/
inductive Leaves (s : Session) : Formula → Prop
  | untouched : Leaves s s.formula
  | nested {text : String} (format : ¬ s.formula.IsPrenex)
      (written : s.formula.nestedCircuit = .ok text) :
      Leaves s { s.formula with nestedText := some text }
  | circuit {φ : Formula} {text : String} {u : Session} (format : s.formula.IsPrenex)
      (written : generateCircuit .full s = .ok text u)
      (rest : φ = { u.formula with clauseText := φ.clauseText })
      (agree : s.formula.format = some .cnf → ∀ c ∈ φ.clauseText, c = s.formula.clausesOf text) :
      Leaves s φ

/-- Requests have led from one session to the other. -/
structure Precedes (s t : Session) : Prop where
  converter : t.hasConverter = s.hasConverter
  leaves : s.Leaves t.formula

variable {s t u : Session} {form : OutputForm} {answer : Option String} {text : String}

theorem Precedes.refl (s : Session) : s.Precedes s :=
  ⟨rfl, .untouched⟩

theorem Leaves.format_eq {φ : Formula} (h : s.Leaves φ) : φ.format = s.formula.format := by
  cases h with
  | untouched => rfl
  | nested => rfl
  | circuit format written rest agree =>
      rw [rest, formula_of_generateCircuit written]

theorem Leaves.isPrenex_iff {φ : Formula} (h : s.Leaves φ) :
    φ.IsPrenex ↔ s.formula.IsPrenex := by
  unfold Formula.IsPrenex
  rw [h.format_eq]

/-- Whether the circuit text is kept or written just now, it is the one that the first session
writes. -/
theorem Precedes.written_of_supplies (h : s.Precedes t) (unwritten : s.formula.Unwritten)
    (format : s.formula.IsPrenex) (supplies : t.Supplies text u) :
    u.hasConverter = s.hasConverter ∧ ∃ v, generateCircuit .full s = .ok text v ∧
      u.formula = { v.formula with clauseText := u.formula.clauseText } ∧
      (s.formula.format = some .cnf →
        ∀ c ∈ u.formula.clauseText, c = s.formula.clausesOf text) := by
  obtain ⟨converter, leaves⟩ := h
  generalize hφ : t.formula = φ at leaves
  cases leaves with
  | untouched =>
      cases supplies with
      | kept h =>
          rw [hφ, unwritten.circuit] at h
          cases h
      | written h run =>
          obtain ⟨v, hv, hformula⟩ := generateCircuit_follows hφ.symm run
          have hhides : Hides Session.hasConverter (generateCircuit .full) :=
            generateCircuit_hides (fun _ _ _ _ => rfl) (fun _ _ => rfl) .full
          have hclauses : u.formula.clauseText = none := by
            rw [formula_of_generateCircuit run, hφ]
            exact unwritten.clauses
          refine ⟨(hhides.of_ok run).trans converter, v, hv, ?_, fun _ c hc => ?_⟩
          · rw [hformula]
          · rw [hclauses] at hc
            cases hc
  | nested h => exact absurd format h
  | @circuit _ text' v _ written rest agree =>
      have hkept : t.formula.circuitText = some text' := by
        rw [hφ, rest, formula_of_generateCircuit written]
      cases supplies with
      | kept h =>
          cases hkept.symm.trans h
          subst hφ
          exact ⟨converter, v, written, rest, agree⟩
      | written h => cases hkept.symm.trans h

theorem Precedes.exists_supplies (h : s.Precedes t) (unwritten : s.formula.Unwritten)
    (format : s.formula.IsPrenex) (run : generateCircuit .full s = .ok text u) :
    ∃ v, t.Supplies text v := by
  obtain ⟨converter, leaves⟩ := h
  generalize hφ : t.formula = φ at leaves
  cases leaves with
  | untouched =>
      obtain ⟨v, hv, -⟩ := generateCircuit_follows hφ run
      exact ⟨v, .written (hφ ▸ unwritten.circuit) hv⟩
  | nested h => exact absurd format h
  | circuit _ written rest agree =>
      cases written.symm.trans run
      refine ⟨t, .kept ?_⟩
      rw [hφ, rest, formula_of_generateCircuit written]

/-! ## Answers -/

/-- A clause text that is kept with a formula in clause form is that of its circuit. -/
theorem Leaves.eq_clausesOf {φ : Formula} {c : String} (h : s.Leaves φ)
    (unwritten : s.formula.Unwritten) (format : s.formula.format = some .cnf)
    (kept : φ.clauseText = some c) :
    ∃ circuit u, generateCircuit .full s = .ok circuit u ∧ c = s.formula.clausesOf circuit := by
  cases h with
  | untouched => cases unwritten.clauses.symm.trans kept
  | nested => cases unwritten.clauses.symm.trans kept
  | circuit _ written rest agree => exact ⟨_, _, written, agree format c kept⟩

theorem clausesOf_eq_of_rest {v : Session} {c : String}
    (run : generateCircuit .full s = .ok text v)
    (rest : u.formula = { v.formula with clauseText := u.formula.clauseText }) :
    u.formula.clausesOf c = s.formula.clausesOf c := by
  rw [rest, formula_of_generateCircuit run]
  rfl

theorem Precedes.answers_clauses (h : s.Precedes t) (unwritten : s.formula.Unwritten)
    (format : s.formula.format = some .cnf) (run : clauseText .full t = .ok answer u) :
    s.Answers .clauses answer ∧ s.Precedes u := by
  have format' : t.formula.format = some .cnf := h.leaves.format_eq.trans format
  cases hkept : t.formula.clauseText with
  | some c =>
      obtain ⟨circuit, v, hv, rfl⟩ := h.leaves.eq_clausesOf unwritten format hkept
      rw [clauseText_kept format' hkept (Formula.isEmpty_clausesOf _ _)] at run
      cases run
      exact ⟨.clauses format hv, h⟩
  | none =>
      rw [clauseText_of_generateClauses format' hkept] at run
      obtain ⟨text, v, hgenerate, hpure⟩ := exists_of_run_bind run
      cases hpure
      obtain ⟨circuit, v, supplies, rfl, rfl⟩ := generateClauses_iff.mp hgenerate
      obtain ⟨converter, w, hw, rest, -⟩ := h.written_of_supplies unwritten (.inl format) supplies
      have htext := clausesOf_eq_of_rest (c := circuit) hw rest
      have hanswer : s.Answers .clauses (some (v.formula.clausesOf circuit)) := by
        rw [htext]
        exact .clauses format hw
      refine ⟨hanswer, converter, .circuit (.inl format) hw ?_ fun _ c hc => ?_⟩
      · rw [rest]
      · rw [← Option.some.inj hc, htext]

theorem Precedes.answers_converted (h : s.Precedes t) (unwritten : s.formula.Unwritten)
    (format : s.formula.format = some .prenexCircuit) (run : clauseText .full t = .ok answer u) :
    s.Answers .clauses answer ∧ s.Precedes u := by
  have format' : t.formula.format = some .prenexCircuit := h.leaves.format_eq.trans format
  rw [clauseText_of_prenex format'] at run
  obtain ⟨text, v, hconvert, hpure⟩ := exists_of_run_bind run
  cases hpure
  have hfiles : s.Precedes (withEmptyFiles t) := ⟨h.converter, h.leaves⟩
  cases hcircuit : circuitText .full (withEmptyFiles t) with
  | error fault v =>
      rw [convertCircuit_of_error hcircuit] at hconvert
      cases hconvert
  | ok found v =>
      obtain ⟨circuit, rfl, supplies⟩ :=
        (circuitText_iff (t := withEmptyFiles t) (.inr format')).mp hcircuit
      obtain ⟨converter, w, hw, rest, -⟩ :=
        hfiles.written_of_supplies unwritten (.inr format) supplies
      rw [convertCircuit_run hcircuit] at hconvert
      by_cases hconverter : v.hasConverter = true
      · rw [if_pos hconverter] at hconvert
        injection hconvert with htext hu
        subst htext hu
        refine ⟨.converted format (converter.symm.trans hconverter) hw, converter,
          .circuit (.inr format) hw ?_ fun hcnf => ?_⟩
        · rw [rest]
        · cases format.symm.trans hcnf
      · rw [if_neg hconverter] at hconvert
        cases hconvert

theorem Precedes.answers_nested (h : s.Precedes t) (unwritten : s.formula.Unwritten)
    (run : Action.nestedText t = .ok text u) :
    s.Answers .nestedCircuit (some text) ∧ s.Precedes u := by
  by_cases prenex : s.formula.IsPrenex
  · rw [nestedText_refused (h.leaves.isPrenex_iff.mpr prenex)] at run
    cases run
  · have prenex' := mt h.leaves.isPrenex_iff.mp prenex
    have hleaves := h.leaves
    generalize hφ : t.formula = φ at hleaves
    cases hleaves with
    | untouched =>
        rw [nestedText_unkept prenex' (hφ ▸ unwritten.nested)] at run
        obtain ⟨text', hwritten, hupdate⟩ := exists_of_lift_bind run
        cases hupdate
        rw [hφ] at hwritten
        refine ⟨.nested prenex hwritten, h.converter, ?_⟩
        dsimp only
        rw [hφ]
        exact .nested prenex hwritten
    | nested _ written =>
        rw [nestedText_kept prenex' (by rw [hφ])] at run
        cases run
        exact ⟨.nested prenex written, h⟩
    | circuit format => exact absurd format prenex

/-- Every request returns an answer of the first session, and leads on. -/
theorem Precedes.answers (h : s.Precedes t) (unwritten : s.formula.Unwritten)
    (run : outputText .full form t = .ok answer u) : s.Answers form answer ∧ s.Precedes u := by
  by_cases hform : form = .nestedCircuit
  · subst hform
    obtain ⟨text, v, hnested, hpure⟩ := exists_of_run_bind run
    cases hpure
    exact h.answers_nested unwritten hnested
  · have hformat := h.leaves.format_eq
    cases format : s.formula.format with
    | none =>
        rw [outputText_unknown hform (hformat.trans format)] at run
        cases run
        exact ⟨.unknown format hform, h⟩
    | some written =>
        by_cases hnested : written = .circuit
        · rw [outputText_refused hform (hformat.trans (hnested ▸ format))] at run
          cases run
        · have prenex : s.formula.IsPrenex := by
            unfold Formula.IsPrenex
            cases written <;> simp_all
          cases form with
          | circuit =>
              obtain ⟨text, rfl, supplies⟩ :=
                (circuitText_iff (h.leaves.isPrenex_iff.mpr prenex)).mp run
              obtain ⟨converter, v, hv, rest, agree⟩ :=
                h.written_of_supplies unwritten prenex supplies
              exact ⟨.circuit prenex hv, converter, .circuit prenex hv rest agree⟩
          | clauses =>
              rcases prenex with hcnf | hprenex
              · exact h.answers_clauses unwritten hcnf run
              · exact h.answers_converted unwritten hprenex run
          | nestedCircuit => exact absurd rfl hform

/-- Every answer of the first session is returned later as well. -/
theorem Precedes.exists_run (h : s.Precedes t) (unwritten : s.formula.Unwritten)
    (answers : s.Answers form answer) : ∃ u, outputText .full form t = .ok answer u := by
  have hformat := h.leaves.format_eq
  cases answers with
  | unknown format hform => exact ⟨t, outputText_unknown hform (hformat.trans format)⟩
  | circuit prenex run =>
      obtain ⟨v, supplies⟩ := h.exists_supplies unwritten prenex run
      exact ⟨v, (circuitText_iff (h.leaves.isPrenex_iff.mpr prenex)).mpr ⟨_, rfl, supplies⟩⟩
  | @clauses circuit _ format run =>
      have format' : t.formula.format = some .cnf := hformat.trans format
      change ∃ u, clauseText .full t = .ok _ u
      cases hkept : t.formula.clauseText with
      | some c =>
          obtain ⟨circuit', v, hv, rfl⟩ := h.leaves.eq_clausesOf unwritten format hkept
          cases run.symm.trans hv
          exact ⟨t, clauseText_kept format' hkept (Formula.isEmpty_clausesOf _ _)⟩
      | none =>
          obtain ⟨v, supplies⟩ := h.exists_supplies unwritten (.inl format) run
          obtain ⟨-, w, hw, rest, -⟩ := h.written_of_supplies unwritten (.inl format) supplies
          have htext := clausesOf_eq_of_rest (c := circuit) hw rest
          refine ⟨_, (clauseText_of_generateClauses format' hkept).trans (run_bind_of_ok
            (generateClauses_iff.mpr ⟨circuit, v, supplies, htext.symm, rfl⟩))⟩
  | converted format converter run =>
      have format' : t.formula.format = some .prenexCircuit := hformat.trans format
      have hfiles : s.Precedes (withEmptyFiles t) := ⟨h.converter, h.leaves⟩
      obtain ⟨v, supplies⟩ := hfiles.exists_supplies unwritten (.inr format) run
      obtain ⟨hconverter, -⟩ := hfiles.written_of_supplies unwritten (.inr format) supplies
      have hcircuit := (circuitText_iff (t := withEmptyFiles t) (.inr format')).mpr
        ⟨_, rfl, supplies⟩
      have hconvert := convertCircuit_run hcircuit
      rw [hconverter.trans converter] at hconvert
      exact ⟨_, (clauseText_of_prenex format').trans (run_bind_of_ok hconvert)⟩
  | nested prenex written =>
      have prenex' := mt h.leaves.isPrenex_iff.mp prenex
      have hleaves := h.leaves
      generalize hφ : t.formula = φ at hleaves
      cases hleaves with
      | untouched =>
          have hrun := nestedText_unkept prenex' (hφ ▸ unwritten.nested)
          rw [hφ, written] at hrun
          exact ⟨_, run_bind_of_ok hrun⟩
      | nested _ written' =>
          cases written.symm.trans written'
          exact ⟨t, run_bind_of_ok (nestedText_kept prenex' (by rw [hφ]))⟩
      | circuit format => exact absurd format prenex

end Session

namespace Action

variable {s t u v : Session} {verbose : Bool}

/-! ## Requests in a row -/

/-- Put out texts, one after the other, as it is done at the end of serving a request. -/
def respond (edition : Edition) (outputs : List (OutputForm × String)) : Action Unit :=
  outputs.forM fun output => do deliver output.2 (<- outputText edition output.1)

example (edition : Edition) (request : Request) : serve edition request = (do
    load edition request.verbose .values request.values
    load edition request.verbose .definition request.definition
    if request.listed then list
    respond edition request.outputs) := rfl

/-- Putting out a text changes neither the formula nor the converter. -/
theorem deliver_hides (destination : String) (text : Option String) :
    Hides (fun t => (t.formula, t.hasConverter)) (deliver destination text) := by
  unfold deliver
  split
  · exact .bind (fun _ _ h => h) fun _ => .bind (fun _ _ h => h) fun _ => fun _ _ h => h
  · split
    · refine .bind (fun _ _ h => h) fun _ => ?_
      cases text with
      | none => exact .throw
      | some text => exact .bind .pure fun _ => fun _ _ h => h
    · exact .throw

theorem precedes_of_respond {outputs : List (OutputForm × String)}
    (unwritten : s.formula.Unwritten) (h : s.Precedes t)
    (run : respond .full outputs t = .ok () u) : s.Precedes u := by
  induction outputs generalizing t with
  | nil =>
      cases run
      exact h
  | cons output outputs ih =>
      obtain ⟨_, t', hfirst, hrest⟩ := exists_of_run_bind run
      obtain ⟨answer, v, htext, hdeliver⟩ := exists_of_run_bind hfirst
      have hv := (h.answers unwritten htext).2
      have hkept := (deliver_hides output.2 answer).of_ok hdeliver
      obtain ⟨hformula, hconverter⟩ := Prod.mk.inj hkept
      exact ih ⟨hconverter.trans hv.converter, hformula ▸ hv.leaves⟩ hrest

theorem run_tryCatch_of_ok {α : Type} {action : Action α} {handler : Fault → Action α} {a : α}
    (h : action s = .ok a t) : tryCatch action handler s = .ok a t := by
  change EStateM.tryCatch action handler s = _
  unfold EStateM.tryCatch
  rw [h]

theorem run_tryCatch_of_error {α : Type} {action : Action α} {handler : Fault → Action α}
    {fault : Fault} (h : action s = .error fault t) :
    tryCatch action handler s = handler fault t := by
  change EStateM.tryCatch action handler s = _
  unfold EStateM.tryCatch
  rw [h]
  rfl

/-- A text is read without error exactly if it is in the language and its statements take effect
without a fault. -/
theorem readSource_iff (source : Source) (text : String) :
    readSource .full verbose source text s = .ok () t ↔
      (Language.Script.read .full text).stop = none ∧
      (Language.Script.read .full text).statements.forM
        (Language.Statement.perform .full verbose) s = .ok () t := by
  constructor
  · intro run
    obtain ⟨stop, u, hcaught, hrest⟩ := exists_of_run_bind run
    -- What is caught is thrown again, so nothing has been caught.
    have hread : Language.interpret .full verbose text s = .ok stop u := by
      cases hinterpret : Language.interpret .full verbose text s with
      | ok stop' u' =>
          rw [run_tryCatch_of_ok hinterpret] at hcaught
          exact hcaught
      | error fault u' =>
          rw [run_tryCatch_of_error hinterpret] at hcaught
          cases hreport : fault.report? <;> rw [hreport] at hcaught <;> cases hcaught
    rw [Language.run_interpret_full] at hread
    obtain ⟨_, u', hstatements, hpure⟩ := exists_of_run_bind hread
    cases hpure
    cases hstop : (Language.Script.read .full text).stop with
    | none =>
        rw [hstop] at hrest
        cases hrest
        exact ⟨rfl, hstatements⟩
    | some stop =>
        rw [hstop] at hrest
        obtain ⟨_, _, _, hthrow⟩ := exists_of_run_bind hrest
        cases hthrow
  · rintro ⟨hstop, hstatements⟩
    have hread : Language.interpret .full verbose text s = .ok none t := by
      rw [Language.run_interpret_full, run_bind_of_ok hstatements, hstop]
      rfl
    rw [readSource, run_bind_of_ok (run_tryCatch_of_ok hread)]
    rfl

theorem built_of_readSource {source source' : Source} {text text' : String} {before : Session}
    (first : readSource .full verbose source text { before with formula := {} } = .ok () v)
    (second : readSource .full verbose source' text' v = .ok () s) : s.Built .full := by
  refine ⟨verbose, (Language.Script.read .full text).statements ++
    (Language.Script.read .full text').statements, before, ?_⟩
  rw [forM_append, run_bind_of_ok ((readSource_iff source text).mp first).2]
  exact ((readSource_iff source' text').mp second).2

/-- A request returns the same, whichever requests have been answered before it. -/
theorem outputText_after_respond (before : Session) {values definition : String}
    {outputs : List (OutputForm × String)}
    (hvalues : readSource .full verbose .values values { before with formula := {} } = .ok () v)
    (hdefinition : readSource .full verbose .definition definition v = .ok () s)
    (run : respond .full outputs s = .ok () t) (form : OutputForm) (answer : Option String) :
    (∃ u, outputText .full form t = .ok answer u) ↔
      ∃ u, outputText .full form s = .ok answer u := by
  have unwritten := (built_of_readSource hvalues hdefinition).formula_unwritten
  have hanswers : ∀ {t : Session}, s.Precedes t →
      ((∃ u, outputText .full form t = .ok answer u) ↔ s.Answers form answer) := by
    intro t h
    constructor
    · rintro ⟨u, hu⟩
      exact (h.answers unwritten hu).1
    · exact h.exists_run unwritten
  rw [hanswers (precedes_of_respond unwritten (.refl s) run), hanswers (.refl s)]

/-- A definition whose matrix takes two identifiers of its own when it is written. -/
def equivalencePieces : List String :=
  ["name: F; format: ", "circuit-prenex; ", "variables: \x7b ", "x; y; \x7d ", "blocks: \x7b ",
   "define block ", "M := x, y; ", "define block ", "Q := x, y; ", "define block ", "P := Q, M; ",
   "block M operated ", "with <=>; ", "block Q quantified ", "with E; \x7d ", "output block: P;"]

def equivalenceStatements : List Language.Statement :=
  [.family "F", .format "circuit-prenex", .vars "x" [] [], .vars "y" [] [],
   .blocks [⟨"M", [], [.ref false "x" [], .ref false "y" []]⟩] [] none,
   .blocks [⟨"Q", [], [.ref false "x" [], .ref false "y" []]⟩] [] none,
   .blocks [⟨"P", [], [.ref false "Q" [], .ref false "M" []]⟩] [] none,
   .mark [("M", [])] "<=>", .mark [("Q", [])] "E", .output "P" []]

def valuedSession : Session :=
  (perform ([.value "n" "2"].forM (Language.Statement.perform .full false)) {}).2

def equivalenceSession : Session :=
  (perform (equivalenceStatements.forM (Language.Statement.perform .full false)) valuedSession).2

def equivalenceText : String :=
  "#QCIR-G14\nexists(1, 2)\noutput(3)\n6 = or(-1, 2)\n7 = or(-2, 1)\n3 = and(6, 7)\n"

theorem read_valued : readSource .full false .values "value: n = 2;" {} = .ok () valuedSession := by
  have hread : Language.Script.read .full "value: n = 2;" = ⟨[.value "n" "2"], none⟩ := by
    rw [Language.Script.read_of_toList rfl]
    decide +kernel
  rw [readSource_iff, hread]
  exact ⟨rfl, ok_of_perform (by decide +kernel)⟩

theorem read_equivalence :
    readSource .full false .definition (String.join equivalencePieces) valuedSession =
      .ok () equivalenceSession := by
  have hread : Language.Script.read .full (String.join equivalencePieces) =
      ⟨equivalenceStatements, none⟩ := by
    rw [Language.Script.read_of_toList String.toList_join]
    decide +kernel
  rw [readSource_iff, hread]
  exact ⟨rfl, ok_of_perform (by decide +kernel)⟩

/-- The session after a clause text and a circuit text have been put out. -/
def answeredSession : Session :=
  (perform (respond .full [(.clauses, screen), (.circuit, screen)]) equivalenceSession).2

theorem outputText_after_respond_equivalence :
    readSource .full false .values "value: n = 2;" {} = .ok () valuedSession ∧
      readSource .full false .definition (String.join equivalencePieces) valuedSession =
        .ok () equivalenceSession ∧
      respond .full [(.clauses, screen), (.circuit, screen)] equivalenceSession =
        .ok () answeredSession ∧
      equivalenceSession.formula.counter = 5 ∧ answeredSession.formula.counter = 7 ∧
      ∃ u, outputText .full .circuit answeredSession = .ok (some equivalenceText) u := by
  have run : respond .full [(.clauses, screen), (.circuit, screen)] equivalenceSession =
      .ok () answeredSession := ok_of_perform (by decide +kernel)
  have halone : ∃ u, outputText .full .circuit equivalenceSession =
      .ok (some equivalenceText) u := ⟨_, ok_of_perform (by decide +kernel)⟩
  exact ⟨read_valued, read_equivalence, run, by decide +kernel, by decide +kernel,
    (outputText_after_respond {} read_valued read_equivalence run .circuit _).mpr halone⟩

end Action

end QuantFamily
