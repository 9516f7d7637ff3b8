import QuantFamily.Output.Circuit
import QuantFamily.Proofs.Session.Calculus

/-!
# What writing leaves alone

Writing a circuit gives out identifiers, fills the board and keeps the text with the formula. All
that a session holds beside these stays as it is, however the writing ends. A view of sessions
stands for what is to be kept: an action hides from a view if it changes nothing that the view
shows.
-/

namespace QuantFamily.Action

variable {α β σ : Type} {view : Session → σ}

/-- The action changes nothing that the view shows, however it ends. -/
def Hides (view : Session → σ) (action : Action α) : Prop :=
  ∀ x, Leads (fun t => view t = x) action (fun _ t => view t = x) fun t => view t = x

namespace Hides

theorem pure {a : α} : Hides view (Pure.pure a) :=
  fun _ => Leads.pure fun _ ht => ht

theorem throw {fault : Fault} : Hides view (MonadExcept.throw fault : Action α) :=
  fun _ => Leads.throw fun _ ht => ht

theorem bind {action : Action α} {next : α → Action β} (first : Hides view action)
    (second : ∀ a, Hides view (next a)) : Hides view (action >>= next) :=
  fun x => Leads.bind (first x) fun a => second a x

theorem formula : Hides view formula :=
  fun _ _ ht => ht

theorem update {change : Formula → Formula}
    (h : ∀ s : Session, view { s with formula := change s.formula } = view s) :
    Hides view (update change) :=
  fun _ => Leads.update fun s hs => (h s).trans hs

theorem lift {outcome : Except Fault α} : Hides view (lift outcome) :=
  fun _ => Leads.lift (fun _ _ _ ht => ht) fun _ ht => ht

theorem forM {body : α → Action Unit} (xs : List α) (h : ∀ x ∈ xs, Hides view (body x)) :
    Hides view (xs.forM body) :=
  fun x => Leads.forM xs (fun _ item hitem => h item hitem x) []

/-- What the view shows after a run. -/
theorem of_ok {action : Action α} (h : Hides view action) {s t : Session} {a : α}
    (run : action s = .ok a t) : view t = view s :=
  (h (view s)).of_ok rfl run

end Hides

/-! ## Writing gates -/

/-- A view that shows neither the board nor the identifiers given out. -/
def OffBoard (view : Session → σ) : Prop :=
  ∀ (s : Session) (counter : Id) (board : String) (gates : List Id),
    view { s with formula := { s.formula with counter, board, boardGates := gates } } = view s

theorem twoFresh_hides (h : OffBoard view) : Hides view twoFresh :=
  .bind .formula fun _ => .bind (.update fun s => h s _ _ _) fun _ => .pure

theorem gateLines_hides (h : OffBoard view) (b : Block) : Hides view (gateLines b) := by
  unfold gateLines
  split
  · split
    · exact .pure
    · exact .throw
  · refine .bind (twoFresh_hides h) fun ⟨left, right⟩ => ?_
    dsimp only
    split
    · exact .pure
    · exact .throw
  · split
    · exact .throw
    · exact .pure
  · split
    · exact .throw
    · split
      · exact .throw
      · exact .pure

theorem writeGate_hides (h : OffBoard view) (fuel : Nat) (b : Block) :
    Hides view (writeGate fuel b) := by
  induction fuel generalizing b with
  | zero => exact .throw
  | succ fuel ih =>
      refine .bind (.forM _ fun brick _ => .bind .formula fun φ => ?_) fun _ => ?_
      · dsimp only
        split
        · exact .pure
        · split
          · exact .pure
          · exact ih _
      · exact .bind (.update fun s => h s _ _ _) fun _ => .bind (gateLines_hides h b) fun lines =>
          .forM lines fun _ _ => .update fun s => h s _ _ _

theorem queueLines_hides (h : OffBoard view) (edition : Edition) (b : Block) :
    Hides view (queueLines edition b) := by
  refine .bind .formula fun φ => ?_
  dsimp only
  split
  · split
    · exact .pure
    · split
      · exact .throw
      · exact .pure
    · refine .bind (twoFresh_hides h) fun ⟨right, left⟩ => ?_
      dsimp only
      split
      · exact .pure
      · exact .throw
    · exact .pure
  · exact .pure

theorem visitQueue_hides (h : OffBoard view) (edition : Edition) (fuel : Nat) (queue : List Block)
    (visited lines : List String) : Hides view (visitQueue edition fuel queue visited lines) := by
  induction fuel generalizing queue visited lines with
  | zero => exact .throw
  | succ fuel ih =>
      cases queue with
      | nil => exact .pure
      | cons b queue =>
          rw [visitQueue]
          split
          · exact ih queue visited lines
          · exact .bind (queueLines_hides h edition b) fun new => ih _ _ _

theorem gatesBelow_hides (h : OffBoard view) (edition : Edition) (b : Block) :
    Hides view (gatesBelow edition b) := by
  unfold gatesBelow
  split
  · exact .bind (.bind .formula fun _ => writeGate_hides h _ b) fun _ =>
      .bind .formula fun _ => .pure
  · exact .bind .formula fun _ => .bind (visitQueue_hides h edition _ _ _ _) fun _ => .pure

/-! ## Circuit texts -/

/-- A view that does not show the circuit text either. -/
def OffCircuit (view : Session → σ) : Prop :=
  ∀ (s : Session) (text : Option String),
    view { s with formula := { s.formula with circuitText := text } } = view s

theorem generateCircuit_hides (h : OffBoard view) (h' : OffCircuit view) (edition : Edition) :
    Hides view (generateCircuit edition) :=
  .bind .formula fun _ => .bind .lift fun _ => .bind .lift fun _ => .bind .lift fun _ =>
    .bind .lift fun _ => .bind .lift fun b => .bind (gatesBelow_hides h edition b) fun _ =>
      .bind (.update fun s => h' s _) fun _ => .pure

theorem circuitText_hides (h : OffBoard view) (h' : OffCircuit view) (edition : Edition) :
    Hides view (circuitText edition) := by
  refine .bind .formula fun φ => ?_
  split
  · exact .throw
  · exact .pure
  · refine .bind .formula fun ψ => ?_
    split
    · exact .pure
    · exact .bind (generateCircuit_hides h h' edition) fun _ => .pure

/-- The text is kept, and beside it the formula has only got another board and another last
identifier. -/
theorem formula_of_generateCircuit {edition : Edition} {s t : Session} {text : String}
    (run : generateCircuit edition s = .ok text t) :
    t.formula = { s.formula with
      circuitText := some text
      counter := t.formula.counter
      board := t.formula.board
      boardGates := t.formula.boardGates } := by
  let rest : Session → Formula := fun s =>
    { s.formula with circuitText := none, counter := 0, board := "", boardGates := [] }
  have hhides : Hides rest (generateCircuit edition) :=
    generateCircuit_hides (fun _ _ _ _ => rfl) (fun _ _ => rfl) edition
  have hrest : rest t = rest s := hhides.of_ok run
  have hkept : t.formula.circuitText = some text := by
    obtain ⟨φ, _, -, run⟩ := exists_of_run_bind run
    obtain ⟨quantifiers, _, -, run⟩ := exists_of_run_bind run
    obtain ⟨quantified, _, -, run⟩ := exists_of_run_bind run
    obtain ⟨lines, _, -, run⟩ := exists_of_run_bind run
    obtain ⟨matrix, _, -, run⟩ := exists_of_run_bind run
    obtain ⟨b, _, -, run⟩ := exists_of_run_bind run
    obtain ⟨gates, _, -, run⟩ := exists_of_run_bind run
    obtain ⟨_, _, hupdate, run⟩ := exists_of_run_bind run
    cases hupdate
    cases run
    rfl
  calc t.formula = { rest t with
          circuitText := t.formula.circuitText
          counter := t.formula.counter
          board := t.formula.board
          boardGates := t.formula.boardGates } := rfl
    _ = { rest s with
          circuitText := some text
          counter := t.formula.counter
          board := t.formula.board
          boardGates := t.formula.boardGates } := by rw [hrest, hkept]

end QuantFamily.Action
