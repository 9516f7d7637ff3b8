import QuantFamily.Output.Circuit
import QuantFamily.Proofs.Session.Calculus

/-!
# Actions that follow each other

What an action does to the formula depends on the formula, not on what has been printed or on the
files around it. One action follows another if it returns whenever the other does: the same result,
and the same formula left behind, in every session that starts with the same formula. The two may
print different lines on the way. An action that follows itself looks at nothing but the formula.
-/

namespace QuantFamily.Action

variable {α β : Type}

/-- Whenever the first action returns, the second one returns the same in every session with the
same formula, and leaves the same formula behind. -/
def Follows (first second : Action α) : Prop :=
  ∀ ⦃s s' t : Session⦄ ⦃a : α⦄, s'.formula = s.formula → first s = .ok a t →
    ∃ t', second s' = .ok a t' ∧ t'.formula = t.formula

namespace Follows

/-! ## Single steps -/

theorem pure (a : α) : Follows (Pure.pure a) (Pure.pure a) := by
  intro s s' t b hs run
  cases run
  exact ⟨s', rfl, hs⟩

/-- An action that ends in a fault returns nothing that would have to be followed. -/
theorem throw (fault : Fault) (second : Action α) :
    Follows (MonadExcept.throw fault) second := by
  intro s s' t a hs run
  cases run

theorem bind {first second : Action α} {next next' : α → Action β} (h : Follows first second)
    (rest : ∀ a, Follows (next a) (next' a)) : Follows (first >>= next) (second >>= next') := by
  intro s s' u b hs run
  obtain ⟨a, t, hfirst, hnext⟩ := exists_of_run_bind run
  obtain ⟨t', hsecond, ht⟩ := h hs hfirst
  obtain ⟨u', hnext', hu⟩ := rest a ht hnext
  refine ⟨u', ?_, hu⟩
  rw [run_bind_of_ok hsecond]
  exact hnext'

theorem formula : Follows formula formula := by
  intro s s' t φ hs run
  cases run
  exact ⟨s', congrArg (EStateM.Result.ok · s') hs, hs⟩

theorem update (change : Formula → Formula) : Follows (update change) (update change) := by
  intro s s' t a hs run
  cases run
  exact ⟨_, rfl, congrArg change hs⟩

/-- Both may change what surrounds the formula, each in its own way. -/
theorem outside {first second : Action Unit}
    (h : ∀ s, ∃ t, first s = .ok () t ∧ t.formula = s.formula)
    (h' : ∀ s, ∃ t, second s = .ok () t ∧ t.formula = s.formula) : Follows first second := by
  intro s s' t a hs run
  obtain ⟨u, hu, hfirst⟩ := h s
  obtain ⟨u', hu', hsecond⟩ := h' s'
  cases hu.symm.trans run
  refine ⟨u', hu', ?_⟩
  rw [hsecond, hfirst, hs]

theorem lift (outcome : Except Fault α) : Follows (lift outcome) (lift outcome) := by
  cases outcome with
  | ok a => exact pure a
  | error fault => exact throw fault _

theorem orElse (fault : Fault) (found : Option α) :
    Follows (orElse fault found) (orElse fault found) := by
  cases found with
  | some a => exact pure a
  | none => exact throw fault _

/-! ## Loops -/

theorem forM {body body' : α → Action Unit} (xs : List α)
    (h : ∀ x ∈ xs, Follows (body x) (body' x)) : Follows (xs.forM body) (xs.forM body') := by
  induction xs with
  | nil => exact pure ()
  | cons x xs ih =>
      rw [List.forall_mem_cons] at h
      exact bind h.1 fun _ => ih h.2

theorem mapM {body body' : α → Action β} (xs : List α)
    (h : ∀ x ∈ xs, Follows (body x) (body' x)) : Follows (xs.mapM body) (xs.mapM body') := by
  induction xs with
  | nil => exact pure []
  | cons x xs ih =>
      rw [List.forall_mem_cons] at h
      rw [List.mapM_cons, List.mapM_cons]
      exact bind h.1 fun _ => bind (ih h.2) fun _ => pure _

theorem filterMapM {body body' : α → Action (Option β)} (xs : List α)
    (h : ∀ x ∈ xs, Follows (body x) (body' x)) :
    Follows (xs.filterMapM body) (xs.filterMapM body') := by
  induction xs with
  | nil => exact pure []
  | cons x xs ih =>
      rw [List.forall_mem_cons] at h
      rw [List.filterMapM_cons, List.filterMapM_cons]
      refine bind h.1 fun found => ?_
      cases found with
      | none => exact ih h.2
      | some b => exact bind (ih h.2) fun _ => pure _

theorem foldlM {body body' : β → α → Action β} (xs : List α) (b : β)
    (h : ∀ b x, Follows (body b x) (body' b x)) :
    Follows (xs.foldlM body b) (xs.foldlM body' b) := by
  induction xs generalizing b with
  | nil => exact pure b
  | cons x xs ih =>
      rw [List.foldlM_cons, List.foldlM_cons]
      exact bind (h b x) ih

end Follows

/-! ## Writing a circuit -/

theorem twoFresh_follows : Follows twoFresh twoFresh :=
  .bind .formula fun _ => .bind (.update _) fun _ => .pure _

theorem gateLines_follows (b : Block) : Follows (gateLines b) (gateLines b) := by
  unfold gateLines
  split
  · split
    · exact .pure _
    · exact .throw _ _
  · refine .bind twoFresh_follows fun (left, right) => ?_
    dsimp only
    split
    · exact .pure _
    · exact .throw _ _
  · split
    · exact .throw _ _
    · exact .pure _
  · split
    · exact .throw _ _
    · split
      · exact .throw _ _
      · exact .pure _

theorem writeGate_follows (fuel : Nat) (b : Block) :
    Follows (writeGate fuel b) (writeGate fuel b) := by
  induction fuel generalizing b with
  | zero => exact .throw _ _
  | succ fuel ih =>
      refine .bind (.forM b.body fun brick _ => .bind .formula fun φ => ?_) fun _ => ?_
      · dsimp only
        split
        · exact .pure ()
        · split
          · exact .pure ()
          · exact ih _
      · exact .bind (.update _) fun _ => .bind (gateLines_follows b) fun lines =>
          .forM lines fun _ _ => .update _

/-- The circuit text of a formula depends on nothing but the formula. -/
theorem generateCircuit_follows : Follows (generateCircuit .full) (generateCircuit .full) :=
  .bind .formula fun _ => .bind (.lift _) fun _ => .bind (.lift _) fun _ => .bind (.lift _) fun _ =>
    .bind (.lift _) fun _ => .bind (.lift _) fun b =>
      .bind (.bind (.bind .formula fun _ => writeGate_follows _ b) fun _ =>
        .bind .formula fun _ => .pure _) fun _ => .bind (.update _) fun _ => .pure _

end QuantFamily.Action
