import QuantFamily.Proofs.Session.Calculus

/-!
# The faults of an action

Which faults an outcome or an action can end in is found from its parts. `Keeps` goes together with
a property of sessions, because some faults are excluded by what earlier steps have left.
-/

namespace QuantFamily

section Outcomes

variable {α β : Type} {F : Fault → Prop}

/-- If the outcome is a fault, it is one with `F`. -/
def Confined (F : Fault → Prop) (outcome : Except Fault α) : Prop :=
  ∀ fault, outcome = .error fault → F fault

namespace Confined

theorem ok (a : α) : Confined F (.ok a) := by
  intro fault h
  cases h

theorem error {fault : Fault} (h : F fault) : Confined F (.error fault : Except Fault α) := by
  intro other heq
  cases heq
  exact h

theorem bind {first : Except Fault α} {next : α → Except Fault β} (h : Confined F first)
    (rest : ∀ a, Confined F (next a)) : Confined F (first >>= next) := by
  cases first with
  | ok a => exact rest a
  | error fault => exact error (h fault rfl)

theorem mapM {f : α → Except Fault β} (xs : List α) (h : ∀ x ∈ xs, Confined F (f x)) :
    Confined F (xs.mapM f) := by
  induction xs with
  | nil => exact ok []
  | cons x xs ih =>
      rw [List.forall_mem_cons] at h
      rw [List.mapM_cons]
      exact bind h.1 fun _ => bind (ih h.2) fun _ => ok _

theorem foldlM {f : β → α → Except Fault β} (xs : List α) (h : ∀ b x, Confined F (f b x)) (b : β) :
    Confined F (xs.foldlM f b) := by
  induction xs generalizing b with
  | nil => exact ok b
  | cons x xs ih =>
      rw [List.foldlM_cons]
      exact bind (h b x) ih

end Confined

end Outcomes

namespace Action

variable {α β : Type} {P : Session → Prop} {F : Fault → Prop} {s t : Session}

/-- Run in a session with `P`, the action keeps `P` when it returns, and a fault that it ends in is
one with `F`. -/
def Keeps (P : Session → Prop) (F : Fault → Prop) (action : Action α) : Prop :=
  ∀ s, P s → match action s with
    | .ok _ t => P t
    | .error fault _ => F fault

namespace Keeps

theorem of_error {action : Action α} (h : Keeps P F action) (hs : P s) {fault : Fault}
    (run : action s = .error fault t) : F fault := by
  have hrun := h s hs
  rwa [run] at hrun

theorem pure (a : α) : Keeps P F (Pure.pure a) :=
  fun _ hs => hs

theorem throw {fault : Fault} (h : F fault) : Keeps P F (MonadExcept.throw fault : Action α) :=
  fun _ _ => h

theorem bind {action : Action α} {next : α → Action β} (first : Keeps P F action)
    (second : ∀ a, Keeps P F (next a)) : Keeps P F (action >>= next) := by
  intro s hs
  have hfirst := first s hs
  cases run : action s with
  | ok a t =>
      rw [run] at hfirst
      rw [run_bind_of_ok run]
      exact second a t hfirst
  | error fault t =>
      rw [run] at hfirst
      rw [run_bind_of_error run]
      exact hfirst

theorem bind_formula {K : Formula → Prop} {next : Formula → Action β}
    (h : ∀ φ, K φ → Keeps (fun s => K s.formula) F (next φ)) :
    Keeps (fun s => K s.formula) F (formula >>= next) :=
  fun s hs => h s.formula hs s hs

theorem update {change : Formula → Formula}
    (h : ∀ s, P s → P { s with formula := change s.formula }) : Keeps P F (update change) :=
  fun s hs => h s hs

theorem lift {outcome : Except Fault α} (h : Confined F outcome) :
    Keeps P F (Action.lift outcome) := by
  cases outcome with
  | ok a => exact pure a
  | error fault => exact throw (h fault rfl)

theorem orElse {fault : Fault} {found : Option α} (h : F fault) :
    Keeps P F (Action.orElse fault found) := by
  cases found with
  | some a => exact pure a
  | none => exact throw h

theorem forM {body : α → Action Unit} (xs : List α) (h : ∀ x ∈ xs, Keeps P F (body x)) :
    Keeps P F (xs.forM body) := by
  induction xs with
  | nil => exact pure ()
  | cons x xs ih =>
      rw [List.forall_mem_cons] at h
      exact bind h.1 fun _ => ih h.2

theorem mapM {body : α → Action β} (xs : List α) (h : ∀ x ∈ xs, Keeps P F (body x)) :
    Keeps P F (xs.mapM body) := by
  induction xs with
  | nil => exact pure []
  | cons x xs ih =>
      rw [List.forall_mem_cons] at h
      rw [List.mapM_cons]
      exact bind h.1 fun _ => bind (ih h.2) fun _ => pure _

theorem filterMapM {body : α → Action (Option β)} (xs : List α)
    (h : ∀ x ∈ xs, Keeps P F (body x)) : Keeps P F (xs.filterMapM body) := by
  induction xs with
  | nil => exact pure []
  | cons x xs ih =>
      rw [List.forall_mem_cons] at h
      rw [List.filterMapM_cons]
      refine bind h.1 fun found => ?_
      cases found with
      | none => exact ih h.2
      | some b => exact bind (ih h.2) fun _ => pure _

theorem foldlM {body : β → α → Action β} (xs : List α) (h : ∀ b x, Keeps P F (body b x)) (b : β) :
    Keeps P F (xs.foldlM body b) := by
  induction xs generalizing b with
  | nil => exact pure b
  | cons x xs ih =>
      rw [List.foldlM_cons]
      exact bind (h b x) ih

end Keeps

end Action

end QuantFamily
