import QuantFamily.Proofs.Circuit.Represent

/-!
# Passes keep the meaning

Both passes record what they have found, and take a recorded result without looking further. So
what is known of the results has to be known of the records as well, and a pass hands the records
on in this state. The first pass leaves only conjunctions, disjunctions and negations. The second
one comes to an end because the circuits it turns to have smaller and smaller ranks, those that it
makes up on the way included; the bound on its depth plays no part in what it finds.
-/

namespace QuantFamily.Circuit

/-! ## Records -/

/-- The recorded results of the first pass are related to their circuits by `E`, and those of the
second pass by `S`. -/
structure Names.Recorded (E S : Circuit → Circuit → Prop) (s : Names) : Prop where
  expanded : ∀ c r, s.expanded.get? c = some r → E c r
  simplified : ∀ c r, s.simplified.get? c = some r → S c r

/-- Neither a parity nor a choice, nor a gate of an unknown kind. -/
def isJunctive : Circuit → Bool
  | .lit _ | .const _ | .neg _ | .and _ | .or _ => true
  | _ => false

namespace Pass

variable {E S : Circuit → Circuit → Prop} {s : Names} {α β : Type}

/-- Run in a state, the pass returns something with `R` and leaves records as they should be. -/
def Ends (E S : Circuit → Circuit → Prop) (pass : Pass α) (s : Names) (R : α → Prop) : Prop :=
  ∃ a t, pass s = .ok a t ∧ t.Recorded E S ∧ R a

namespace Ends

variable {R : α → Prop} {T : β → Prop}

theorem pure {a : α} (hs : s.Recorded E S) (h : R a) : Ends E S (Pure.pure a) s R :=
  ⟨a, s, rfl, hs, h⟩

theorem bind {pass : Pass α} {next : α → Pass β} (first : Ends E S pass s R)
    (second : ∀ a t, t.Recorded E S → R a → Ends E S (next a) t T) :
    Ends E S (pass >>= next) s T := by
  obtain ⟨a, t, hrun, ht, ha⟩ := first
  obtain ⟨b, u, hnext, hu, hb⟩ := second a t ht ha
  exact ⟨b, u, (run_bind_of_ok hrun).trans hnext, hu, hb⟩

theorem get {next : Names → Pass α} (h : Ends E S (next s) s R) :
    Ends E S (MonadState.get >>= next) s R :=
  h

theorem mono {pass : Pass α} {R' : α → Prop} (h : Ends E S pass s R) (hR : ∀ a, R a → R' a) :
    Ends E S pass s R' := by
  obtain ⟨a, t, hrun, ht, ha⟩ := h
  exact ⟨a, t, hrun, ht, hR a ha⟩

theorem mapM {f : Circuit → Pass Circuit} {Q : Circuit → Circuit → Prop} {cs : List Circuit}
    (h : ∀ c ∈ cs, ∀ s : Names, s.Recorded E S → Ends E S (f c) s (Q c)) (hs : s.Recorded E S) :
    Ends E S (cs.mapM f) s (List.Forall₂ Q cs) := by
  induction cs generalizing s with
  | nil => exact Ends.pure hs .nil
  | cons c cs ih =>
      rw [List.mapM_cons]
      refine Ends.bind (h c List.mem_cons_self s hs) fun r t ht hr => ?_
      refine Ends.bind (ih (fun d hd => h d (List.mem_cons_of_mem c hd)) ht) fun rs u hu hrs => ?_
      exact Ends.pure hu (.cons hr hrs)

end Ends

theorem run_modify (f : Names → Names) (s : Names) :
    (modify f : Pass Unit) s = .ok () (f s) :=
  rfl

theorem inheritNames_run (source target : Circuit) (s : Names) :
    ∃ given, inheritNames source target s = .ok () { s with given } := by
  rw [inheritNames, run_modify]
  split
  · exact ⟨_, rfl⟩
  · exact ⟨s.given, rfl⟩

theorem recordExpanded_ends {c r : Circuit} (hs : s.Recorded E S) (h : E c r) :
    Ends E S (recordExpanded c r) s (E c) := by
  obtain ⟨given, hgiven⟩ := inheritNames_run c r s
  refine ⟨r, _, run_bind_of_ok hgiven, ⟨fun d x hd => ?_, hs.simplified⟩, h⟩
  rcases Table.eq_or_get?_of_get?_put hd with ⟨rfl, rfl⟩ | ⟨-, hold⟩
  · exact h
  · exact hs.expanded d x hold

theorem recordSimplified_ends {c r : Circuit} (hs : s.Recorded E S) (h : S c r) :
    Ends E S (recordSimplified c r) s (S c) := by
  obtain ⟨given, hgiven⟩ := inheritNames_run c r s
  refine ⟨r, _, run_bind_of_ok hgiven, ⟨hs.expanded, fun d x hd => ?_⟩, h⟩
  rcases Table.eq_or_get?_of_get?_put hd with ⟨rfl, rfl⟩ | ⟨-, hold⟩
  · exact h
  · exact hs.simplified d x hold

/-! ## The first pass -/

def Expands (c r : Circuit) : Prop :=
  c.Regular → Represents c r ∧ r.Everywhere isJunctive

theorem expandAll_eq_mapM (cs : List Circuit) : expandAll cs = cs.mapM expand := by
  induction cs with
  | nil => rw [expandAll, List.mapM_nil]
  | cons c cs ih => rw [expandAll, ih, List.mapM_cons]

theorem everywhere_negate {c : Circuit} (h : c.Everywhere isJunctive) :
    c.negate.Everywhere isJunctive :=
  h.negate (fun _ _ => rfl) fun _ _ => rfl

theorem expands_choice {c t e : Circuit} (hc : c.Regular ∧ c.Everywhere isJunctive)
    (ht : t.Regular ∧ t.Everywhere isJunctive) (he : e.Regular ∧ e.Everywhere isJunctive) :
    Represents (.ite c t e) (.and [.or [c.negate, t], .or [c, e]]) ∧
      (Circuit.and [.or [c.negate, t], .or [c, e]]).Everywhere isJunctive := by
  have hregular : (Circuit.and [.or [c.negate, t], .or [c, e]]).Regular := by
    simp [everywhere_iff (c := .and _), everywhere_iff (c := .or _), inputs, isRegular, hc.1, ht.1,
      he.1, hc.1.negate]
  refine ⟨⟨hregular, fun α => ?_, ?_⟩, ?_⟩
  · cases hv : c.value α <;> simp [hv, value_negate α hc.1.ne_zero]
  · intro v hv
    simp only [occurrences, occurrencesAll, occurrences_negate, List.append_nil,
      List.mem_append] at hv ⊢
    grind
  · simp [everywhere_iff (c := .and _), everywhere_iff (c := .or _), inputs, isJunctive, hc.2, ht.2,
      he.2, everywhere_negate hc.2]

theorem forall₂_of_regular {P : Circuit → Circuit → Prop} {args rs : List Circuit}
    (hargs : ∀ c ∈ args, c.Regular) (h : List.Forall₂ (fun c r => c.Regular → P c r) args rs) :
    List.Forall₂ P args rs := by
  induction h with
  | nil => exact .nil
  | cons hfirst _ ih =>
      rw [List.forall_mem_cons] at hargs
      exact .cons (hfirst hargs.1) (ih hargs.2)

theorem expands_inputs {args rs : List Circuit} (hargs : ∀ c ∈ args, c.Regular)
    (h : List.Forall₂ Expands args rs) :
    List.Forall₂ Represents args rs ∧ ∀ r ∈ rs, r.Everywhere isJunctive := by
  have hboth := forall₂_of_regular hargs h
  refine ⟨hboth.imp fun _ _ hr => hr.1, fun r hr => ?_⟩
  obtain ⟨c, -, hrep⟩ := exists_of_mem_forall₂ hboth hr
  exact hrep.2

theorem expandChoice_ends {c t e : Circuit} (hc : c.Regular ∧ c.Everywhere isJunctive)
    (ht : t.Regular ∧ t.Everywhere isJunctive) (he : e.Regular ∧ e.Everywhere isJunctive)
    (hs : s.Recorded Expands S) :
    Ends Expands S (expandChoice c t e) s (Expands (.ite c t e)) := by
  unfold expandChoice
  refine Ends.get ?_
  split
  · rename_i r hfound
    exact Ends.pure hs (hs.expanded _ r hfound)
  · exact recordExpanded_ends hs fun _ => expands_choice hc ht he

/-- Parity is the choice between the second input's negation and the second input. -/
theorem represents_parity_choice {x y : Circuit} (hx : x.Regular) (hy : y.Regular) :
    Represents (.xor x y) (.ite x y.negate y) := by
  refine ⟨everywhere_iff.mpr ⟨rfl, ?_⟩, fun α => ?_, fun v hv => ?_⟩
  · simpa [inputs] using ⟨hx, hy.negate, hy⟩
  · cases hv : x.value α <;> simp [hv, value_negate α hy.ne_zero]
  · simpa [occurrences, occurrences_negate] using hv

namespace Expands

variable {c d t e r x y z : Circuit} {args rs : List Circuit}

theorem self (hkind : c.isJunctive = true) (hnone : c.inputs = []) : Expands c c := fun hc =>
  ⟨.refl hc, everywhere_iff.mpr ⟨hkind, by simp [hnone]⟩⟩

theorem neg (hr : Expands d r) : Expands (.neg d) (.neg r) := by
  intro hc
  obtain ⟨hrep, hkind⟩ := hr (hc.input (List.mem_singleton.mpr rfl))
  exact ⟨hrep.neg, everywhere_iff.mpr ⟨rfl, by simpa [inputs] using hkind⟩⟩

theorem and (hrs : List.Forall₂ Expands args rs) : Expands (.and args) (.and rs) := by
  intro hc
  obtain ⟨hreps, hkinds⟩ := expands_inputs (fun e he => hc.input he) hrs
  exact ⟨.and hreps, everywhere_iff.mpr ⟨rfl, hkinds⟩⟩

theorem or (hrs : List.Forall₂ Expands args rs) : Expands (.or args) (.or rs) := by
  intro hc
  obtain ⟨hreps, hkinds⟩ := expands_inputs (fun e he => hc.input he) hrs
  exact ⟨.or hreps, everywhere_iff.mpr ⟨rfl, hkinds⟩⟩

theorem ite (hx : Expands d x) (hy : Expands t y) (hz : Expands e z) :
    Expands (.ite d t e) (.and [.or [x.negate, y], .or [x, z]]) := by
  intro hc
  obtain ⟨hx, hxkind⟩ := hx (hc.input (by simp [inputs]))
  obtain ⟨hy, hykind⟩ := hy (hc.input (by simp [inputs]))
  obtain ⟨hz, hzkind⟩ := hz (hc.input (by simp [inputs]))
  obtain ⟨hrep, hkind⟩ := expands_choice ⟨hx.regular, hxkind⟩ ⟨hy.regular, hykind⟩
    ⟨hz.regular, hzkind⟩
  exact ⟨(Represents.ite hx hy hz).trans hrep, hkind⟩

end Expands

theorem expandParity_ends {a b x y : Circuit} (hx : Represents a x ∧ x.Everywhere isJunctive)
    (hy : Represents b y ∧ y.Everywhere isJunctive) (hs : s.Recorded Expands S) :
    Ends Expands S (expandChoice x y.negate y) s (Expands (.xor a b)) := by
  have hparity : Represents (.xor a b) (.ite x y.negate y) :=
    (Represents.xor hx.1 hy.1).trans (represents_parity_choice hx.1.regular hy.1.regular)
  obtain ⟨r, t, run, ht, hr⟩ := expandChoice_ends ⟨hx.1.regular, hx.2⟩
    ⟨hy.1.regular.negate, everywhere_negate hy.2⟩ ⟨hy.1.regular, hy.2⟩ hs
  obtain ⟨hrep, hkind⟩ := hr hparity.regular
  exact ⟨r, t, run, ht, fun _ => ⟨hparity.trans hrep, hkind⟩⟩

theorem expand_ends {c : Circuit} (hc : c.Regular) (hs : s.Recorded Expands S) :
    Ends Expands S (expand c) s (Expands c) := by
  induction c using inputsInduction generalizing s with
  | step c ih =>
      have hinput : ∀ d ∈ c.inputs, ∀ s : Names, s.Recorded Expands S →
          Ends Expands S (expand d) s (Expands d) :=
        fun d hd s hs => ih d hd (hc.input hd) hs
      have hall : Ends Expands S (expandAll c.inputs) s (List.Forall₂ Expands c.inputs) := by
        rw [expandAll_eq_mapM]
        exact Ends.mapM hinput hs
      rw [expand.eq_def]
      refine Ends.get ?_
      split
      · rename_i r hfound
        exact Ends.pure hs (hs.expanded c r hfound)
      · cases c with
        | lit n => exact Ends.pure hs (.self rfl rfl)
        | const b => exact Ends.pure hs (.self rfl rfl)
        | neg d =>
            have hd : d ∈ (Circuit.neg d).inputs := List.mem_singleton.mpr rfl
            exact Ends.bind (hinput d hd s hs) fun r t ht hr => recordExpanded_ends ht hr.neg
        | and args =>
            cases args with
            | nil => exact Ends.pure hs (.self rfl rfl)
            | cons d ds => exact Ends.bind hall fun rs t ht hrs => recordExpanded_ends ht (.and hrs)
        | or args =>
            cases args with
            | nil => exact Ends.pure hs (.self rfl rfl)
            | cons d ds => exact Ends.bind hall fun rs t ht hrs => recordExpanded_ends ht (.or hrs)
        | xor a b =>
            have ha : a ∈ (Circuit.xor a b).inputs := by simp [inputs]
            have hb : b ∈ (Circuit.xor a b).inputs := by simp [inputs]
            refine Ends.bind (hinput a ha s hs) fun x t ht hx => ?_
            refine Ends.bind (hinput b hb t ht) fun y u hu hy => ?_
            have hchoice := expandParity_ends (hx (hc.input ha)) (hy (hc.input hb)) hu
            exact Ends.bind hchoice fun r w hw hr => recordExpanded_ends hw hr
        | ite d t e =>
            have hd : d ∈ (Circuit.ite d t e).inputs := by simp [inputs]
            have ht : t ∈ (Circuit.ite d t e).inputs := by simp [inputs]
            have he : e ∈ (Circuit.ite d t e).inputs := by simp [inputs]
            refine Ends.bind (hinput d hd s hs) fun x s₁ hs₁ hx => ?_
            refine Ends.bind (hinput t ht s₁ hs₁) fun y s₂ hs₂ hy => ?_
            refine Ends.bind (hinput e he s₂ hs₂) fun z s₃ hs₃ hz => ?_
            exact recordExpanded_ends hs₃ (hx.ite hy hz)
        | other name args => exact absurd (hc _ (mem_parts_self _)) (by simp [isRegular])

/-! ## The second pass -/

theorem rank_lt_of_input {c d : Circuit} (h : d ∈ c.inputs) : d.rank < c.rank := by
  have hargs : ∀ args : List Circuit, d ∈ args → d.rank < rankAll args + 1 := fun args hd =>
    Nat.lt_succ_of_le (rank_le_rankAll hd)
  cases c with
  | lit n => cases h
  | const b => cases h
  | neg e =>
      rw [List.mem_singleton.mp h, rank]
      exact Nat.lt_succ_self _
  | and args =>
      rw [rank]
      exact hargs args h
  | or args =>
      rw [rank]
      exact hargs args h
  | xor a b =>
      simp only [inputs, List.mem_cons, List.not_mem_nil, or_false] at h
      rcases h with rfl | rfl <;> simp only [rank] <;> omega
  | ite e x y =>
      simp only [inputs, List.mem_cons, List.not_mem_nil, or_false] at h
      rcases h with rfl | rfl | rfl <;> simp only [rank] <;> omega
  | other name args =>
      rw [rank]
      exact hargs args h

/-- A circuit over inputs that `f` has simplified; `f` also simplifies the gate that a choice with a
constant branch becomes. -/
def reduceOnce (f : Circuit → Circuit) : Circuit → Circuit
  | .neg d => inversion (f d)
  | .and args => junction true (args.map f)
  | .or args => junction false (args.map f)
  | .xor a b => parity (f a) (f b)
  | .ite d t e => (choice (f d) (f t) (f e)).elim id f
  | c => c

/-- The gate that a choice with a constant branch becomes, when `f` has simplified its inputs. -/
def made? (f : Circuit → Circuit) : Circuit → Option Circuit
  | .ite d t e => (choice (f d) (f t) (f e)).getRight?
  | _ => none

/-- What is found for a circuit represents it and has no larger rank. -/
def Shrinks (f : Circuit → Circuit) (c : Circuit) : Prop :=
  Represents c (f c) ∧ (f c).rank ≤ c.rank

/-- A gate over simplified inputs, when its simplification does not raise the rank. -/
theorem represents_of_gate {c gate r : Circuit} (hgate : Represents c gate)
    (hrank : gate.rank ≤ c.rank) (hr : Represents gate r ∧ r.rank ≤ gate.rank) :
    Represents c r ∧ r.rank ≤ c.rank :=
  ⟨hgate.trans hr.1, Nat.le_trans hr.2 hrank⟩

section Reduce

variable {f g : Circuit → Circuit} {c : Circuit}

theorem represents_junction_map {b : Bool} {args : List Circuit} (h : ∀ c ∈ args, Shrinks f c) :
    Represents (joined b args) (junction b (args.map f)) ∧
      (junction b (args.map f)).rank ≤ (joined b args).rank := by
  have hreps : List.Forall₂ Represents args (args.map f) :=
    List.forall₂_map_right_iff.mpr (List.forall₂_same.mpr fun c hc => (h c hc).1)
  have hregular : ∀ r ∈ args.map f, r.Regular := by
    intro r hr
    obtain ⟨c, hc, rfl⟩ := List.mem_map.mp hr
    exact (h c hc).1.regular
  have hle : rankAll (args.map f) ≤ rankAll args := by
    refine rankAll_le_iff.mpr fun r hr => ?_
    obtain ⟨c, hc, rfl⟩ := List.mem_map.mp hr
    exact Nat.le_trans (h c hc).2 (rank_le_rankAll hc)
  have hgate : Represents (joined b args) (joined b (args.map f)) := by
    cases b with
    | true => exact .and hreps
    | false => exact .or hreps
  refine represents_of_gate hgate ?_ (represents_junction hregular)
  rw [joined_rank, joined_rank]
  exact Nat.succ_le_succ hle

theorem settles_choice_of_inputs {d t e : Circuit}
    (h : ∀ x ∈ (Circuit.ite d t e).inputs, Shrinks f x) :
    Represents (.ite d t e) (.ite (f d) (f t) (f e)) ∧
      (Circuit.ite (f d) (f t) (f e)).rank ≤ (Circuit.ite d t e).rank ∧
      Settles (.ite (f d) (f t) (f e)) (choice (f d) (f t) (f e)) := by
  obtain ⟨hx, hxle⟩ := h d (by simp [inputs])
  obtain ⟨hy, hyle⟩ := h t (by simp [inputs])
  obtain ⟨hz, hzle⟩ := h e (by simp [inputs])
  refine ⟨.ite hx hy hz, ?_, settles_choice hx.regular hy.regular hz.regular⟩
  simp only [rank]
  omega

/-- The gate made up from a constant branch has a smaller rank than the choice. -/
theorem represents_of_made? (h : ∀ d ∈ c.inputs, Shrinks f d) {gate : Circuit}
    (hmade : made? f c = some gate) : Represents c gate ∧ gate.rank < c.rank := by
  cases c with
  | ite d t e =>
      obtain ⟨hgate, hle, hsettles⟩ := settles_choice_of_inputs h
      have hchoice : choice (f d) (f t) (f e) = .inr gate := Sum.getRight?_eq_some_iff.mp hmade
      rw [hchoice] at hsettles
      exact ⟨hgate.trans hsettles.1, Nat.lt_of_lt_of_le hsettles.2 hle⟩
  | lit | const | neg | and | or | xor | other => cases hmade

theorem shrinks_reduceOnce (hc : c.Regular) (hinput : ∀ d ∈ c.inputs, Shrinks f d)
    (hmade : ∀ gate, made? f c = some gate → Shrinks f gate) : Shrinks (reduceOnce f) c := by
  cases c with
  | lit n => exact ⟨.refl hc, Nat.le_refl _⟩
  | const b => exact ⟨.refl hc, Nat.le_refl _⟩
  | other name args => exact ⟨.refl hc, Nat.le_refl _⟩
  | neg d =>
      obtain ⟨hr, hle⟩ := hinput d (List.mem_singleton.mpr rfl)
      refine represents_of_gate hr.neg ?_ (represents_inversion hr.regular)
      simp only [rank]
      omega
  | and args => exact represents_junction_map (b := true) hinput
  | or args => exact represents_junction_map (b := false) hinput
  | xor a b =>
      obtain ⟨hx, hxle⟩ := hinput a (by simp [inputs])
      obtain ⟨hy, hyle⟩ := hinput b (by simp [inputs])
      refine represents_of_gate (.xor hx hy) ?_ (represents_parity hx.regular hy.regular)
      simp only [rank]
      omega
  | ite d t e =>
      obtain ⟨hgate, hle, hsettles⟩ := settles_choice_of_inputs hinput
      rw [Shrinks, reduceOnce]
      cases hchoice : choice (f d) (f t) (f e) with
      | inl done =>
          rw [hchoice] at hsettles
          exact represents_of_gate hgate hle hsettles
      | inr gate =>
          have hgate : made? f (.ite d t e) = some gate := Sum.getRight?_eq_some_iff.mpr hchoice
          obtain ⟨hrep, hlt⟩ := represents_of_made? hinput hgate
          exact represents_of_gate hrep (Nat.le_of_lt hlt) (hmade gate hgate)

theorem reduceOnce_congr (hinput : ∀ d ∈ c.inputs, f d = g d)
    (hmade : ∀ gate, made? g c = some gate → f gate = g gate) :
    reduceOnce f c = reduceOnce g c := by
  cases c with
  | lit | const | other => rfl
  | neg d => exact congrArg inversion (hinput d (by simp [inputs]))
  | and args => exact congrArg (junction true) (List.map_congr_left hinput)
  | or args => exact congrArg (junction false) (List.map_congr_left hinput)
  | xor a b =>
      rw [reduceOnce, hinput a (by simp [inputs]), hinput b (by simp [inputs])]
      rfl
  | ite d t e =>
      rw [reduceOnce, reduceOnce, hinput d (by simp [inputs]), hinput t (by simp [inputs]),
        hinput e (by simp [inputs])]
      cases hchoice : choice (g d) (g t) (g e) with
      | inl done => rfl
      | inr gate => exact hmade gate (Sum.getRight?_eq_some_iff.mpr hchoice)

end Reduce

/-- What the second pass makes of a circuit up to a given rank, found without records. -/
def reducedWithin : Nat → Circuit → Circuit
  | 0, c => c
  | fuel + 1, c => reduceOnce (reducedWithin fuel) c

theorem reducedWithin_spec {fuel : Nat} {c : Circuit} (hc : c.Regular) (hrank : c.rank < fuel) :
    Shrinks (reducedWithin fuel) c ∧ reducedWithin (fuel + 1) c = reducedWithin fuel c := by
  induction fuel generalizing c with
  | zero => exact absurd hrank (Nat.not_lt_zero _)
  | succ fuel ih =>
      have hinput : ∀ d ∈ c.inputs, Shrinks (reducedWithin fuel) d ∧
          reducedWithin (fuel + 1) d = reducedWithin fuel d := by
        intro d hd
        have hlt := rank_lt_of_input hd
        exact ih (hc.input hd) (by omega)
      have hmade : ∀ gate, made? (reducedWithin fuel) c = some gate →
          Shrinks (reducedWithin fuel) gate ∧
            reducedWithin (fuel + 1) gate = reducedWithin fuel gate := by
        intro gate hgate
        obtain ⟨hrep, hlt⟩ := represents_of_made? (fun d hd => (hinput d hd).1) hgate
        exact ih hrep.regular (by omega)
      exact ⟨shrinks_reduceOnce hc (fun d hd => (hinput d hd).1) fun gate h => (hmade gate h).1,
        reduceOnce_congr (fun d hd => (hinput d hd).2) fun gate h => (hmade gate h).2⟩

end Pass

/-- What the second pass makes of a circuit. -/
def reduced (c : Circuit) : Circuit :=
  Pass.reducedWithin (c.rank + 1) c

namespace Pass

variable {E S : Circuit → Circuit → Prop} {s : Names} {α β : Type}

theorem reducedWithin_eq {fuel : Nat} {c : Circuit} (hc : c.Regular) (hrank : c.rank < fuel) :
    reducedWithin fuel c = c.reduced := by
  induction hrank with
  | refl => rfl
  | step hle ih => exact (reducedWithin_spec hc hle).2.trans ih

theorem shrinks_reduced {c : Circuit} (hc : c.Regular) : Shrinks reduced c :=
  (reducedWithin_spec hc (Nat.lt_succ_self _)).1

theorem reduced_eq {c : Circuit} (hc : c.Regular) : c.reduced = reduceOnce reduced c := by
  have hinput : ∀ d ∈ c.inputs, reducedWithin c.rank d = d.reduced := fun d hd =>
    reducedWithin_eq (hc.input hd) (rank_lt_of_input hd)
  refine reduceOnce_congr hinput fun gate hgate => ?_
  obtain ⟨hrep, hlt⟩ := represents_of_made? (fun d hd => shrinks_reduced (hc.input hd)) hgate
  exact reducedWithin_eq hrep.regular hlt

def Simplifies (c r : Circuit) : Prop :=
  c.Regular → Represents c r ∧ r.rank ≤ c.rank ∧ r = c.reduced

theorem simplifies_of_eq {c r : Circuit} (h : c.Regular → r = reduceOnce reduced c) :
    Simplifies c r := by
  intro hc
  obtain rfl : r = c.reduced := (h hc).trans (reduced_eq hc).symm
  exact ⟨(shrinks_reduced hc).1, (shrinks_reduced hc).2, rfl⟩

theorem eq_map_of_simplifies {args rs : List Circuit} (hargs : ∀ c ∈ args, c.Regular)
    (h : List.Forall₂ Simplifies args rs) : rs = args.map reduced := by
  induction h with
  | nil => rfl
  | cons hfirst _ ih =>
      rw [List.forall_mem_cons] at hargs
      rw [List.map_cons, ← (hfirst hargs.1).2.2, ih hargs.2]

/-- The gate made up from a constant branch is simplified in turn. -/
theorem represents_of_choice {d t e gate : Circuit} (hc : (Circuit.ite d t e).Regular)
    (hchoice : choice d.reduced t.reduced e.reduced = .inr gate) :
    Represents (.ite d t e) gate ∧ gate.rank < (Circuit.ite d t e).rank := by
  have hmade : made? reduced (.ite d t e) = some gate := Sum.getRight?_eq_some_iff.mpr hchoice
  exact represents_of_made? (fun x hx => shrinks_reduced (hc.input hx)) hmade

theorem simplifies_of_choice {d t e gate r : Circuit}
    (hchoice : choice d.reduced t.reduced e.reduced = .inr gate) (hr : Simplifies gate r) :
    Simplifies (.ite d t e) r := by
  refine simplifies_of_eq fun hc => ?_
  rw [(hr (represents_of_choice hc hchoice).1.regular).2.2, reduceOnce, hchoice]
  rfl

theorem simplifyWithin_ends {fuel : Nat} {c : Circuit} (hc : c.Regular) (hrank : c.rank < fuel)
    (hs : s.Recorded E Simplifies) :
    Ends E Simplifies (simplifyWithin fuel c) s (Simplifies c) := by
  induction fuel generalizing c s with
  | zero => exact absurd hrank (Nat.not_lt_zero _)
  | succ fuel ih =>
      have hinput : ∀ d ∈ c.inputs, ∀ s : Names, s.Recorded E Simplifies →
          Ends E Simplifies (simplifyWithin fuel d) s (Simplifies d) := by
        intro d hd s hs
        have hlt := rank_lt_of_input hd
        exact ih (hc.input hd) (by omega) hs
      have hall : Ends E Simplifies (c.inputs.mapM (simplifyWithin fuel)) s
          (List.Forall₂ Simplifies c.inputs) := Ends.mapM hinput hs
      unfold simplifyWithin
      refine Ends.get ?_
      split
      · rename_i r hfound
        exact Ends.pure hs (hs.simplified c r hfound)
      · cases c with
        | lit n => exact Ends.pure hs (simplifies_of_eq fun _ => rfl)
        | const b => exact Ends.pure hs (simplifies_of_eq fun _ => rfl)
        | neg d =>
            have hd : d ∈ (Circuit.neg d).inputs := List.mem_singleton.mpr rfl
            refine Ends.bind (hinput d hd s hs) fun r t ht hr => recordSimplified_ends ht ?_
            rw [(hr (hc.input hd)).2.2]
            exact simplifies_of_eq fun _ => rfl
        | and args =>
            refine Ends.bind hall fun rs t ht hrs => recordSimplified_ends ht ?_
            rw [eq_map_of_simplifies (fun e he => hc.input he) hrs]
            exact simplifies_of_eq fun _ => rfl
        | or args =>
            refine Ends.bind hall fun rs t ht hrs => recordSimplified_ends ht ?_
            rw [eq_map_of_simplifies (fun e he => hc.input he) hrs]
            exact simplifies_of_eq fun _ => rfl
        | xor a b =>
            have ha : a ∈ (Circuit.xor a b).inputs := by simp [inputs]
            have hb : b ∈ (Circuit.xor a b).inputs := by simp [inputs]
            refine Ends.bind (hinput a ha s hs) fun x t ht hx => ?_
            refine Ends.bind (hinput b hb t ht) fun y u hu hy => recordSimplified_ends hu ?_
            rw [(hx (hc.input ha)).2.2, (hy (hc.input hb)).2.2]
            exact simplifies_of_eq fun _ => rfl
        | ite d t e =>
            have hd : d ∈ (Circuit.ite d t e).inputs := by simp [inputs]
            have ht : t ∈ (Circuit.ite d t e).inputs := by simp [inputs]
            have he : e ∈ (Circuit.ite d t e).inputs := by simp [inputs]
            refine Ends.bind (hinput d hd s hs) fun x s₁ hs₁ hx => ?_
            refine Ends.bind (hinput t ht s₁ hs₁) fun y s₂ hs₂ hy => ?_
            refine Ends.bind (hinput e he s₂ hs₂) fun z s₃ hs₃ hz => ?_
            rw [(hx (hc.input hd)).2.2, (hy (hc.input ht)).2.2, (hz (hc.input he)).2.2]
            split
            · rename_i done hchoice
              refine recordSimplified_ends hs₃ (simplifies_of_eq fun _ => ?_)
              rw [reduceOnce, hchoice]
              rfl
            · rename_i gate hchoice
              obtain ⟨hrep, hlt⟩ := represents_of_choice hc hchoice
              have hagain := ih hrep.regular (by omega) hs₃
              refine Ends.bind hagain fun r s₄ hs₄ hr => recordSimplified_ends hs₄ ?_
              exact simplifies_of_choice hchoice hr
        | other name args => exact absurd (hc _ (mem_parts_self _)) (by simp [isRegular])

/-! ## Deeper bounds -/

/-- Whatever the first pass returns, the second one returns too. -/
def Extends (pass other : Pass α) : Prop :=
  ∀ s a t, pass s = .ok a t → other s = .ok a t

theorem Extends.refl (pass : Pass α) : Extends pass pass :=
  fun _ _ _ h => h

theorem Extends.bind {pass other : Pass α} {next following : α → Pass β}
    (first : Extends pass other)
    (second : ∀ a, Extends (next a) (following a)) :
    Extends (pass >>= next) (other >>= following) := by
  intro s b u h
  obtain ⟨a, t, hrun, hnext⟩ := exists_of_run_bind h
  rw [run_bind_of_ok (first s a t hrun)]
  exact second a t b u hnext

theorem Extends.mapM {f g : Circuit → Pass Circuit} (h : ∀ c, Extends (f c) (g c))
    (cs : List Circuit) : Extends (cs.mapM f) (cs.mapM g) := by
  induction cs with
  | nil => exact Extends.refl _
  | cons c cs ih =>
      rw [List.mapM_cons, List.mapM_cons]
      exact Extends.bind (h c) fun _ => Extends.bind ih fun _ => Extends.refl _

theorem simplifyWithin_extends (fuel : Nat) (c : Circuit) :
    Extends (simplifyWithin fuel c) (simplifyWithin (fuel + 1) c) := by
  induction fuel generalizing c with
  | zero =>
      intro s a t h
      cases h
  | succ fuel ih =>
      unfold simplifyWithin
      refine Extends.bind (Extends.refl _) fun s => ?_
      split
      · exact Extends.refl _
      · cases c with
        | lit n => exact Extends.refl _
        | const b => exact Extends.refl _
        | neg d => exact Extends.bind (ih d) fun _ => Extends.refl _
        | and args => exact Extends.bind (Extends.mapM ih args) fun _ => Extends.refl _
        | or args => exact Extends.bind (Extends.mapM ih args) fun _ => Extends.refl _
        | xor a b =>
            exact Extends.bind (ih a) fun _ => Extends.bind (ih b) fun _ => Extends.refl _
        | ite d t e =>
            refine Extends.bind (ih d) fun x => Extends.bind (ih t) fun y =>
              Extends.bind (ih e) fun z => ?_
            split
            · exact Extends.refl _
            · exact Extends.bind (ih _) fun _ => Extends.refl _
        | other name args => exact Extends.bind (Extends.mapM ih args) fun _ => Extends.refl _

theorem simplifyWithin_of_le {low high : Nat} (hle : low ≤ high) {c r : Circuit} {t : Names}
    (h : simplifyWithin low c s = .ok r t) : simplifyWithin high c s = .ok r t := by
  induction hle with
  | refl => exact h
  | step _ ih => exact simplifyWithin_extends _ c s r t ih

end Pass

/-! ## What the passes find -/

/-- Passes over regular circuits have led here, from given names and no results. -/
inductive Names.Reached : Names → Prop
  | fresh (given : Table Circuit (List String)) : Reached { given }
  | expanded {s t : Names} {c r : Circuit} (before : Reached s) (regular : c.Regular)
      (run : Pass.expand c s = .ok r t) : Reached t
  | simplified {s t : Names} {c r : Circuit} (before : Reached s) (regular : c.Regular)
      (run : Pass.simplify c s = .ok r t) : Reached t

theorem Pass.simplify_ends {c : Circuit} (hc : c.Regular) {s : Names}
    (hs : s.Recorded Expands Simplifies) :
    Ends Expands Simplifies (simplify c) s (Simplifies c) :=
  simplifyWithin_ends hc (Nat.lt_succ_self _) hs

theorem Names.Reached.recorded {s : Names} (h : s.Reached) :
    s.Recorded Pass.Expands Pass.Simplifies := by
  induction h with
  | fresh given => exact ⟨by simp, by simp⟩
  | expanded before regular run ih =>
      obtain ⟨_, _, hrun, ht, -⟩ := Pass.expand_ends regular ih
      cases run.symm.trans hrun
      exact ht
  | simplified before regular run ih =>
      obtain ⟨_, _, hrun, ht, -⟩ := Pass.simplify_ends regular ih
      cases run.symm.trans hrun
      exact ht

/-- On every circuit of known gates over literals and constants, and whatever passes have gone
before, both passes return, and what they return has the value of the circuit under every
assignment. The first pass leaves no parity or choice behind. The second returns the same for
every bound above the rank, so it comes to an end by itself. -/
theorem passes_keep_value {c : Circuit} {s : Names} (regular : c.Regular) (reached : s.Reached) :
    (∃ r t, Pass.expand c s = .ok r t ∧ r.Everywhere isJunctive ∧
      ∀ α, r.value α = c.value α) ∧
    (∃ r t, Pass.simplify c s = .ok r t ∧
      (∀ bound, c.rank < bound → Pass.simplifyWithin bound c s = .ok r t) ∧
      ∀ α, r.value α = c.value α) ∧
    (∃ r t, (Pass.expand c >>= Pass.simplify) s = .ok r t ∧ ∀ α, r.value α = c.value α) := by
  have hs := reached.recorded
  obtain ⟨e, t, hexpand, ht, he⟩ := Pass.expand_ends regular hs
  obtain ⟨r, u, hsimplify, -, hr⟩ := Pass.simplify_ends regular hs
  obtain ⟨heRepresents, heJunctive⟩ := he regular
  obtain ⟨x, w, hboth, -, hx⟩ := Pass.simplify_ends heRepresents.regular ht
  refine ⟨⟨e, t, hexpand, heJunctive, heRepresents.value⟩,
    ⟨r, u, hsimplify, fun bound hbound => ?_, (hr regular).1.value⟩,
    ⟨x, w, (run_bind_of_ok hexpand).trans hboth, fun α => ?_⟩⟩
  · exact Pass.simplifyWithin_of_le hbound hsimplify
  · rw [(hx heRepresents.regular).1.value, heRepresents.value]

/-- A choice with a constant branch below a parity, where the gate made up from it has an empty
conjunction among its inputs. -/
def constantBranch : Circuit :=
  .xor (.ite (.neg (.or [.lit 1, .lit (-2)])) (.and []) (.ite (.lit 2) (.const false) (.lit 3)))
    (.const true)

theorem passes_keep_value_constantBranch :
    constantBranch.Regular ∧ (⟨{}, {}, {}⟩ : Names).Reached ∧
      (∃ t, Pass.simplify constantBranch ⟨{}, {}, {}⟩ = .ok
        (.neg (.or [.neg (.or [.lit 1, .lit (-2)]), .and [.lit (-2), .lit 3]])) t) ∧
      ∀ α, (Circuit.neg (.or [.neg (.or [.lit 1, .lit (-2)]), .and [.lit (-2), .lit 3]])).value α =
        constantBranch.value α := by
  obtain ⟨-, ⟨r, t, hrun, -, hvalue⟩, -⟩ :=
    passes_keep_value (c := constantBranch) (by decide +kernel) (.fresh {})
  have hresult : (Pass.simplify constantBranch).run' ⟨{}, {}, {}⟩ =
      some (.neg (.or [.neg (.or [.lit 1, .lit (-2)]), .and [.lit (-2), .lit 3]])) := by
    decide +kernel
  have hfound : (Pass.simplify constantBranch).run' ⟨{}, {}, {}⟩ = some r :=
    congrArg (fun outcome => EStateM.run' (fun _ => outcome) ⟨{}, {}, {}⟩) hrun
  cases Option.some.inj (hfound.symm.trans hresult)
  exact ⟨by decide +kernel, .fresh {}, ⟨t, hrun⟩, hvalue⟩

end QuantFamily.Circuit
