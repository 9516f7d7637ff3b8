import Mathlib.Order.Defs.Unbundled
import QuantFamily.Session

/-!
# A calculus of sessions

Statements about an action are statements about running it in every session with some
property. `Leads` keeps the two endings of a run apart, so one statement says both what a
finished action leaves behind and what is left when a fault cuts it short. Loops are
described by what holds after each number of rounds, faults included. `Reads` and `Moves` are
the two common cases: actions that leave the formula alone, and actions that take it along a
relation.
-/

namespace QuantFamily

/-- A sequence of two outcomes that ends well has a result in between. -/
theorem exists_ok_of_bind {ε α β : Type} {first : Except ε α} {next : α → Except ε β} {b : β}
    (h : (first >>= next) = .ok b) : ∃ a, first = .ok a ∧ next a = .ok b := by
  cases first with
  | error fault => cases h
  | ok a => exact ⟨a, rfl, h⟩

theorem ok_of_toOption {ε α : Type} {outcome : Except ε α} {a : α}
    (h : outcome.toOption = some a) : outcome = .ok a := by
  cases outcome with
  | error fault => cases h
  | ok b =>
      cases h
      rfl

/-- What is found for the members of a list is found by one function. -/
theorem exists_map_of_mapM {ε α β : Type} [Inhabited β] {f : α → Except ε β} {xs : List α}
    {ys : List β} (h : xs.mapM f = .ok ys) : ∃ g, ys = xs.map g ∧ ∀ x ∈ xs, f x = .ok (g x) := by
  refine ⟨fun x => ((f x).toOption).getD default, ?_⟩
  induction xs generalizing ys with
  | nil =>
      cases h
      simp
  | cons x xs ih =>
      rw [List.mapM_cons] at h
      obtain ⟨y, hy, h⟩ := exists_ok_of_bind h
      obtain ⟨rest, hrest, h⟩ := exists_ok_of_bind h
      cases h
      obtain ⟨hmap, hall⟩ := ih hrest
      have hvalue : ((f x).toOption).getD default = y := by
        rw [hy]
        rfl
      refine ⟨by rw [List.map_cons, hvalue, ← hmap], List.forall_mem_cons.mpr ⟨?_, hall⟩⟩
      exact hy.trans (congrArg Except.ok hvalue.symm)

theorem exists_of_mem_mapM {ε α β : Type} {f : α → Except ε β} {xs : List α} {ys : List β}
    (h : xs.mapM f = .ok ys) {y : β} (hy : y ∈ ys) : ∃ x ∈ xs, f x = .ok y := by
  have : Inhabited β := ⟨y⟩
  obtain ⟨g, rfl, hg⟩ := exists_map_of_mapM h
  obtain ⟨x, hx, rfl⟩ := List.mem_map.mp hy
  exact ⟨x, hx, hg x hx⟩

theorem mapM_ok_of_forall {ε α β : Type} {f : α → Except ε β} {g : α → β} {xs : List α}
    (h : ∀ x ∈ xs, f x = .ok (g x)) : xs.mapM f = .ok (xs.map g) := by
  induction xs with
  | nil => rfl
  | cons x xs ih =>
      rw [List.forall_mem_cons] at h
      rw [List.mapM_cons, h.1, ih h.2]
      rfl

/-- What is made of each result can be made of all of them at the end. -/
theorem mapM_eq_map_mapM {ε α β γ : Type} {f : α → Except ε β} {f' : α → Except ε γ} {g : β → γ}
    (h : ∀ x, f' x = (f x).map g) (xs : List α) :
    xs.mapM f' = (xs.mapM f).map (List.map g) := by
  induction xs with
  | nil => rfl
  | cons x xs ih =>
      rw [List.mapM_cons, List.mapM_cons, h, ih]
      cases f x with
      | error fault => rfl
      | ok y => cases xs.mapM f <;> rfl

/-- What every step of a fold keeps holds at its end. -/
theorem invariant_of_foldlM {ε α β : Type} {f : β → α → Except ε β} {I : β → Prop} {xs : List α}
    {b c : β} (step : ∀ b, ∀ a ∈ xs, ∀ c, I b → f b a = .ok c → I c) (start : I b)
    (h : xs.foldlM f b = .ok c) : I c := by
  induction xs generalizing b with
  | nil =>
      cases h
      exact start
  | cons x xs ih =>
      rw [List.foldlM_cons] at h
      obtain ⟨next, hnext, h⟩ := exists_ok_of_bind h
      exact ih (fun b a ha => step b a (List.mem_cons_of_mem x ha))
        (step b x List.mem_cons_self next start hnext) h

section Runs

variable {ε σ α β : Type} {first : EStateM ε σ α} {next : α → EStateM ε σ β} {s t u : σ}

theorem run_bind_of_ok {a : α} (h : first s = .ok a t) : (first >>= next) s = next a t := by
  change EStateM.bind first next s = next a t
  unfold EStateM.bind
  rw [h]

theorem run_bind_of_error {fault : ε} (h : first s = .error fault t) :
    (first >>= next) s = .error fault t := by
  change EStateM.bind first next s = .error fault t
  unfold EStateM.bind
  rw [h]

theorem run_bind_congr {second : EStateM ε σ α} (h : first s = second s)
    (next : α → EStateM ε σ β) : (first >>= next) s = (second >>= next) s := by
  change EStateM.bind first next s = EStateM.bind second next s
  unfold EStateM.bind
  rw [h]

/-- A run of two steps that ends well has a result and a state in between. -/
theorem exists_of_run_bind {b : β} (h : (first >>= next) s = .ok b u) :
    ∃ a t, first s = .ok a t ∧ next a t = .ok b u := by
  change EStateM.bind first next s = .ok b u at h
  unfold EStateM.bind at h
  cases run : first s with
  | ok a t =>
      rw [run] at h
      exact ⟨a, t, rfl, h⟩
  | error fault t =>
      rw [run] at h
      cases h

end Runs

namespace Action

variable {α β γ : Type}

/-- Run in a session with `P`, the action leaves `Q` when it returns and `E` when it ends in
a fault. -/
def Leads (P : Session → Prop) (action : Action α) (Q : α → Session → Prop)
    (E : Session → Prop) : Prop :=
  ∀ s, P s → match action s with
    | .ok a t => Q a t
    | .error _ t => E t

/-- What an action returns settles how its run ended. -/
theorem ok_of_perform {action : Action α} {s : Session} {a : α}
    (h : (action.perform s).1.toOption = some a) : action s = .ok a (action.perform s).2 := by
  have hperform : action.perform s = match action s with
    | .ok a t => (.ok a, t)
    | .error fault t => (.error fault, t) := rfl
  rw [hperform] at h ⊢
  cases run : action s with
  | ok b t =>
      rw [run] at h
      cases h
      rfl
  | error fault t =>
      rw [run] at h
      cases h

theorem run_lift_of_ok {outcome : Except Fault α} {a : α} (h : outcome = .ok a) (s : Session) :
    Action.lift outcome s = .ok a s := by
  subst h
  rfl

theorem ok_of_run_lift {outcome : Except Fault α} {a : α} {s t : Session}
    (h : Action.lift outcome s = .ok a t) : outcome = .ok a := by
  cases outcome with
  | error fault => cases h
  | ok b =>
      cases h
      rfl

theorem exists_of_lift_bind {outcome : Except Fault α} {next : α → Action β} {b : β}
    {s t : Session} (h : (Action.lift outcome >>= next) s = .ok b t) :
    ∃ a, outcome = .ok a ∧ next a s = .ok b t := by
  cases outcome with
  | error fault => cases h
  | ok a => exact ⟨a, rfl, h⟩

theorem forM_append {body : α → Action Unit} (xs ys : List α) :
    (xs ++ ys).forM body = xs.forM body >>= fun _ => ys.forM body :=
  List.forM_append

namespace Leads

variable {P P' : Session → Prop} {Q Q' : α → Session → Prop} {E E' : Session → Prop}

theorem of_ok {action : Action α} (h : Leads P action Q E) {s t : Session} {a : α}
    (hs : P s) (run : action s = .ok a t) : Q a t := by
  have hrun := h s hs
  rw [run] at hrun
  exact hrun

/-- However a run ends, the session it leaves has what both endings have. -/
theorem perform {action : Action α} {I : Session → Prop} (h : Leads P action (fun _ => I) I)
    {s : Session} (hs : P s) : I (action.perform s).2 := by
  have hrun := h s hs
  change I (match action s with
    | .ok a t => ((.ok a : Except Fault α), t)
    | .error fault t => (.error fault, t)).2
  cases run : action s with
  | ok a t => rw [run] at hrun; exact hrun
  | error fault t => rw [run] at hrun; exact hrun

theorem mono {action : Action α} (h : Leads P action Q E) (hP : ∀ s, P' s → P s)
    (hQ : ∀ a s, Q a s → Q' a s) (hE : ∀ s, E s → E' s) : Leads P' action Q' E' := by
  intro s hs
  have hrun := h s (hP s hs)
  cases run : action s with
  | ok a t => rw [run] at hrun; exact hQ a t hrun
  | error fault t => rw [run] at hrun; exact hE t hrun

/-! ## Single steps -/

theorem pure {a : α} (h : ∀ s, P s → Q a s) : Leads P (Pure.pure a) Q E :=
  fun s hs => h s hs

theorem throw {fault : Fault} (h : ∀ s, P s → E s) :
    Leads P (MonadExcept.throw fault : Action α) Q E :=
  fun s hs => h s hs

theorem bind {action : Action α} {next : α → Action β} {Q : β → Session → Prop}
    {R : α → Session → Prop} (first : Leads P action R E)
    (second : ∀ a, Leads (R a) (next a) Q E) : Leads P (action >>= next) Q E := by
  intro s hs
  have hfirst := first s hs
  change match (EStateM.bind action next) s with
    | .ok b t => Q b t
    | .error _ t => E t
  unfold EStateM.bind
  cases run : action s with
  | ok a t => rw [run] at hfirst; exact second a t hfirst
  | error fault t => rw [run] at hfirst; exact hfirst

/-- What is known of the formula alone may be used as if the formula were given. -/
theorem of_formula {K : Formula → Prop} {action : Action α}
    (h : ∀ φ, K φ → Leads (fun s => s.formula = φ) action Q E) :
    Leads (fun s => K s.formula) action Q E :=
  fun s hs => h s.formula hs s rfl

/-- Reading the formula tells what it is. -/
theorem bind_formula {next : Formula → Action β} {Q : β → Session → Prop}
    (h : ∀ φ, Leads (fun s => s.formula = φ ∧ P s) (next φ) Q E) :
    Leads P (formula >>= next) Q E :=
  fun s hs => h s.formula s ⟨rfl, hs⟩

/-- Reading the formula of a session in which it is known. -/
theorem bind_known {φ : Formula} {next : Formula → Action β} {Q : β → Session → Prop}
    (h : Leads (fun s => s.formula = φ) (next φ) Q E) :
    Leads (fun s => s.formula = φ) (formula >>= next) Q E := by
  refine Leads.bind_formula fun ψ s hs => ?_
  obtain ⟨rfl, hs⟩ := hs
  subst hs
  exact h s rfl

theorem update {change : Formula → Formula} {Q : Unit → Session → Prop}
    (h : ∀ s, P s → Q () { s with formula := change s.formula }) :
    Leads P (Action.update change) Q E :=
  fun s hs => h s hs

theorem lift {outcome : Except Fault α} (ok : ∀ a, outcome = .ok a → ∀ s, P s → Q a s)
    (failed : ∀ s, P s → E s) : Leads P (Action.lift outcome) Q E := by
  cases outcome with
  | ok a => exact Leads.pure (ok a rfl)
  | error fault => exact Leads.throw failed

theorem orElse {fault : Fault} {found : Option α}
    (ok : ∀ a, found = some a → ∀ s, P s → Q a s) (failed : ∀ s, P s → E s) :
    Leads P (Action.orElse fault found) Q E := by
  cases found with
  | some a => exact Leads.pure (ok a rfl)
  | none => exact Leads.throw failed

/-! ## Loops -/

/-- `J` is indexed by the items that have had their round. -/
theorem forM {J : List α → Session → Prop} {body : α → Action Unit} (xs : List α)
    (step : ∀ seen x, x ∈ xs → Leads (J seen) (body x) (fun _ => J (seen ++ [x])) E)
    (seen : List α) : Leads (J seen) (xs.forM body) (fun _ => J (seen ++ xs)) E := by
  induction xs generalizing seen with
  | nil => exact Leads.pure fun s hs => by simpa using hs
  | cons x rest ih =>
      refine Leads.bind (step seen x List.mem_cons_self) fun _ => ?_
      have hrest := ih (fun seen y hy => step seen y (List.mem_cons_of_mem x hy)) (seen ++ [x])
      simpa using hrest

/-- `J` is indexed by the items that have had their round and by their results. -/
theorem mapM_seen {J : List α → List β → Session → Prop} {body : α → Action β} (xs : List α)
    (step : ∀ seen done x, x ∈ xs →
      Leads (J seen done) (body x) (fun b => J (seen ++ [x]) (done ++ [b])) E)
    (seen : List α) (done : List β) :
    Leads (J seen done) (xs.mapM body) (fun bs => J (seen ++ xs) (done ++ bs)) E := by
  induction xs generalizing seen done with
  | nil => exact Leads.pure fun s hs => by simpa using hs
  | cons x rest ih =>
      rw [List.mapM_cons]
      refine Leads.bind (step seen done x List.mem_cons_self) fun b => ?_
      have hrest := ih (fun seen done y hy => step seen done y (List.mem_cons_of_mem x hy))
        (seen ++ [x]) (done ++ [b])
      refine Leads.bind hrest fun bs => Leads.pure fun s hs => ?_
      simpa using hs

/-- `J` is indexed by the results so far. -/
theorem mapM {J : List β → Session → Prop} {body : α → Action β} (xs : List α)
    (step : ∀ done x, x ∈ xs → Leads (J done) (body x) (fun b => J (done ++ [b])) E)
    (done : List β) : Leads (J done) (xs.mapM body) (fun bs => J (done ++ bs)) E :=
  mapM_seen (J := fun _ => J) xs (fun _ => step) [] done

/-- `J` is indexed by the items that have had their round and by their results. -/
theorem filterMapM_seen {J : List α → List β → Session → Prop} {body : α → Action (Option β)}
    (xs : List α)
    (step : ∀ seen done x, x ∈ xs →
      Leads (J seen done) (body x) (fun found => J (seen ++ [x]) (done ++ found.toList)) E)
    (seen : List α) (done : List β) :
    Leads (J seen done) (xs.filterMapM body) (fun bs => J (seen ++ xs) (done ++ bs)) E := by
  induction xs generalizing seen done with
  | nil => exact Leads.pure fun s hs => by simpa using hs
  | cons x rest ih =>
      rw [List.filterMapM_cons]
      refine Leads.bind (step seen done x List.mem_cons_self) fun found => ?_
      have hrest := ih (fun seen done y hy => step seen done y (List.mem_cons_of_mem x hy))
        (seen ++ [x]) (done ++ found.toList)
      cases found with
      | none => simpa using hrest
      | some b =>
          refine Leads.bind hrest fun bs => Leads.pure fun s hs => ?_
          simpa using hs

/-- `J` is indexed by the results so far. -/
theorem filterMapM {J : List β → Session → Prop} {body : α → Action (Option β)} (xs : List α)
    (step : ∀ done x, x ∈ xs →
      Leads (J done) (body x) (fun found => J (done ++ found.toList)) E)
    (done : List β) : Leads (J done) (xs.filterMapM body) (fun bs => J (done ++ bs)) E :=
  filterMapM_seen (J := fun _ => J) xs (fun _ => step) [] done

end Leads

/-- Two loops run alike if their rounds do, wherever the second comes to on its way. -/
theorem run_mapM_congr {P : Session → Prop} {f g : α → Action β} (xs : List α)
    (same : ∀ x s, P s → f x s = g x s)
    (keeps : ∀ x, Leads P (g x) (fun _ => P) (fun _ => True)) {s : Session} (hs : P s) :
    xs.mapM f s = xs.mapM g s := by
  induction xs generalizing s with
  | nil => rfl
  | cons x xs ih =>
      rw [List.mapM_cons, List.mapM_cons, run_bind_congr (same x s hs)]
      cases run : g x s with
      | error fault t => rw [run_bind_of_error run, run_bind_of_error run]
      | ok b t =>
          rw [run_bind_of_ok run, run_bind_of_ok run]
          exact run_bind_congr (ih ((keeps x).of_ok hs run)) _

/-! ## Actions that only read -/

/-- In a session with formula `φ` the action leaves the formula as it is, however it ends,
and what it returns has the property `R`. -/
def Reads (φ : Formula) (action : Action α) (R : α → Prop) : Prop :=
  Leads (fun s => s.formula = φ) action (fun a s => s.formula = φ ∧ R a)
    (fun s => s.formula = φ)

namespace Reads

variable {φ : Formula} {R : α → Prop}

theorem pure {a : α} (h : R a) : Reads φ (Pure.pure a) R :=
  Leads.pure fun _ hs => ⟨hs, h⟩

theorem bind {action : Action α} {next : α → Action β} {S : β → Prop}
    (first : Reads φ action R) (second : ∀ a, R a → Reads φ (next a) S) :
    Reads φ (action >>= next) S :=
  Leads.bind first fun a s hs => second a hs.2 s hs.1

/-- Reading goes before a step that changes the formula. -/
theorem andThen {action : Action α} {next : α → Action β} {Q : β → Session → Prop}
    {E : Session → Prop} (first : Reads φ action R) (failed : ∀ s, s.formula = φ → E s)
    (second : ∀ a, R a → Leads (fun s => s.formula = φ) (next a) Q E) :
    Leads (fun s => s.formula = φ) (action >>= next) Q E := by
  have hfirst := Leads.mono first (fun _ hs => hs) (fun _ _ hs => hs) failed
  exact Leads.bind hfirst fun a s hs => second a hs.2 s hs.1

theorem bind_formula {next : Formula → Action α} (h : Reads φ (next φ) R) :
    Reads φ (formula >>= next) R :=
  Leads.bind_known h

theorem lift {outcome : Except Fault α} (h : ∀ a, outcome = .ok a → R a) :
    Reads φ (Action.lift outcome) R :=
  Leads.lift (fun a ha _ hs => ⟨hs, h a ha⟩) fun _ hs => hs

theorem orElse {fault : Fault} {found : Option α} (h : ∀ a, found = some a → R a) :
    Reads φ (Action.orElse fault found) R :=
  Leads.orElse (fun a ha _ hs => ⟨hs, h a ha⟩) fun _ hs => hs

theorem mapM_eq {body : α → Action β} {value : α → β} (xs : List α)
    (h : ∀ x ∈ xs, Reads φ (body x) (· = value x)) :
    Reads φ (xs.mapM body) (· = xs.map value) := by
  induction xs with
  | nil => exact Reads.pure rfl
  | cons x rest ih =>
      rw [List.mapM_cons]
      refine Reads.bind (h x List.mem_cons_self) fun b hb => ?_
      refine Reads.bind (ih fun y hy => h y (List.mem_cons_of_mem x hy)) fun bs hbs => ?_
      exact Reads.pure (by rw [hb, hbs, List.map_cons])

theorem foldlM {J : List α → β → Prop} {body : β → α → Action β} (xs : List α)
    (step : ∀ seen b x, x ∈ xs → J seen b → Reads φ (body b x) (J (seen ++ [x])))
    {seen : List α} {b : β} (h : J seen b) : Reads φ (xs.foldlM body b) (J (seen ++ xs)) := by
  induction xs generalizing seen b with
  | nil => exact Reads.pure (by simpa using h)
  | cons x rest ih =>
      rw [List.foldlM_cons]
      refine Reads.bind (step seen b x List.mem_cons_self h) fun b hb => ?_
      have hrest := ih (fun seen b y hy => step seen b y (List.mem_cons_of_mem x hy)) hb
      simpa using hrest

end Reads

/-! ## Actions that move the formula -/

/-- The action takes the formula along `R`; if a fault cuts it short, the last stretch is
along `B`. -/
def Moves (R B : Formula → Formula → Prop) (action : Action α) : Prop :=
  ∀ φ, Leads (fun s => s.formula = φ) action (fun _ s => R φ s.formula)
    (fun s => ∃ ψ, R φ ψ ∧ B ψ s.formula)

namespace Moves

variable {R B : Formula → Formula → Prop}

/-- What is true all along `R` and `B` stays true, however the action ends. -/
theorem keeps {I : Formula → Prop} {action : Action α} (h : Moves R B action)
    (hR : ∀ {φ ψ}, I φ → R φ ψ → I ψ) (hB : ∀ {φ ψ}, I φ → B φ ψ → I ψ) :
    Leads (fun s => I s.formula) action (fun _ s => I s.formula) (fun s => I s.formula) := by
  refine Leads.of_formula fun φ hφ => ?_
  refine Leads.mono (h φ) (fun _ hs => hs) (fun _ _ hs => hR hφ hs) ?_
  rintro s ⟨ψ, hψ, hs⟩
  exact hB (hR hφ hψ) hs

theorem mono {R' : Formula → Formula → Prop} {action : Action α} (h : Moves R B action)
    (hR : ∀ φ ψ, R φ ψ → R' φ ψ) : Moves R' B action := by
  intro φ
  refine Leads.mono (h φ) (fun _ hs => hs) (fun _ s hs => hR φ s.formula hs) ?_
  rintro s ⟨ψ, hψ, hs⟩
  exact ⟨ψ, hR φ ψ hψ, hs⟩

theorem update {change : Formula → Formula} (h : ∀ φ, R φ (change φ)) :
    Moves R B (Action.update change) :=
  fun φ => Leads.update fun _ hs => hs ▸ h φ

theorem cut [Std.Refl B] {φ ψ : Formula} (h : R φ ψ) : ∃ χ, R φ χ ∧ B χ ψ :=
  ⟨ψ, h, refl_of B ψ⟩

variable [IsPreorder Formula R]

theorem still {φ : Formula} {s : Session} (hs : s.formula = φ) : R φ s.formula :=
  hs ▸ refl_of R φ

theorem pure {a : α} : Moves R B (Pure.pure a) :=
  fun _ => Leads.pure fun _ hs => still hs

theorem bind {action : Action α} {next : α → Action β} (first : Moves R B action)
    (second : ∀ a, Moves R B (next a)) : Moves R B (action >>= next) := by
  intro φ
  refine Leads.bind (first φ) fun a => Leads.of_formula fun ψ hψ => ?_
  refine Leads.mono (second a ψ) (fun _ hs => hs) (fun _ s hs => trans_of R hψ hs) ?_
  rintro s ⟨χ, hχ, hs⟩
  exact ⟨χ, trans_of R hψ hχ, hs⟩

theorem formula : Moves R B Action.formula :=
  fun _ _ hs => still (R := R) hs

theorem get : Moves R B (MonadState.get : Action Session) :=
  fun _ _ hs => still (R := R) hs

/-- Changing what surrounds the formula. -/
theorem outside {change : Session → Session} (h : ∀ s, (change s).formula = s.formula) :
    Moves R B (modify change : Action Unit) :=
  fun _ s hs => still (R := R) ((h s).trans hs)

theorem forM {body : α → Action Unit} (xs : List α) (h : ∀ x ∈ xs, Moves R B (body x)) :
    Moves R B (xs.forM body) := by
  induction xs with
  | nil => exact pure
  | cons x rest ih =>
      exact bind (h x List.mem_cons_self) fun _ => ih fun y hy => h y (List.mem_cons_of_mem x hy)

theorem mapM {body : α → Action β} (xs : List α) (h : ∀ x ∈ xs, Moves R B (body x)) :
    Moves R B (xs.mapM body) := by
  induction xs with
  | nil => exact pure
  | cons x rest ih =>
      rw [List.mapM_cons]
      refine bind (h x List.mem_cons_self) fun _ => ?_
      exact bind (ih fun y hy => h y (List.mem_cons_of_mem x hy)) fun _ => pure

variable [Std.Refl B]

theorem of_reads {action : Action α} {S : α → Prop} (h : ∀ φ, Reads φ action S) :
    Moves R B action :=
  fun φ => Leads.mono (h φ) (fun _ hs => hs) (fun _ _ hs => still hs.1) fun _ hs => cut (still hs)

theorem throw {fault : Fault} : Moves R B (MonadExcept.throw fault : Action α) :=
  fun _ => Leads.throw fun _ hs => cut (still hs)

theorem lift {outcome : Except Fault α} : Moves R B (Action.lift outcome) :=
  of_reads fun _ => Reads.lift (R := fun _ => True) fun _ _ => trivial

theorem orElse {fault : Fault} {found : Option α} : Moves R B (Action.orElse fault found) :=
  of_reads fun _ => Reads.orElse (R := fun _ => True) fun _ _ => trivial

end Moves

end Action

end QuantFamily
