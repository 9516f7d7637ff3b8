import QuantFamily.Proofs.Circuit.Clauses
import QuantFamily.Proofs.Circuit.Pass

/-!
# The form of simplified circuits

The writers expect a constant, or a circuit that has no constants and negates nothing but gates:
opposite literals have opposite numbers, and a double negation has no number at all. The second pass
keeps to this form in all but two places. It puts a negation in front of whatever the negated
circuit has become, be it a literal or another negation, and it negates a constant if both inputs of
a parity have become constants and the second one is true. On its way it treats the parts of the
circuit, and the gates made up for choices with their own parts. All of them come out in the form of
the writers exactly if neither of the two cases is met among them.
-/

namespace QuantFamily.Circuit

/-! ## Forms -/

/-- Not a constant. -/
def isProper : Circuit → Bool
  | .const _ => false
  | _ => true

/-- One of the constants, or a circuit with a property of all its parts. -/
def ConstantOr (p : Circuit → Bool) (r : Circuit) : Prop :=
  (∃ b, r = .const b) ∨ r.Everywhere p

instance (p : Circuit → Bool) (r : Circuit) : Decidable (ConstantOr p r) :=
  inferInstanceAs (Decidable (_ ∨ _))

/-- A property that literals, gates and negated gates have, and constants do not. -/
structure Formal (p : Circuit → Bool) : Prop where
  lit : ∀ n : Int, n ≠ 0 → p (.lit n) = true
  const : ∀ b, p (.const b) = false
  gate : ∀ g : Circuit, g.isGate = true → p g = true
  negated : ∀ g : Circuit, g.isGate = true → p (.neg g) = true

theorem isProper_eq_false_iff {r : Circuit} : r.isProper = false ↔ ∃ b, r = .const b := by
  cases r <;> simp [isProper]

theorem formal_isProper : Formal isProper where
  lit _ _ := rfl
  const _ := rfl
  gate g h := by cases g <;> first | rfl | cases h
  negated _ _ := rfl

theorem formal_isPlain : Formal isPlain where
  lit _ h := decide_eq_true h
  const _ := rfl
  gate _ h := isPlain_of_isGate h
  negated _ h := h

section Forms

variable {p : Circuit → Bool} {r : Circuit}

theorem ConstantOr.everywhere (h : ConstantOr p r) (hr : ∀ b, r ≠ .const b) : r.Everywhere p := by
  rcases h with ⟨b, hb⟩ | h
  · exact absurd hb (hr b)
  · exact h

theorem Formal.ne_const (hp : Formal p) (h : r.Everywhere p) (b : Bool) : r ≠ .const b := by
  rintro rfl
  exact absurd (h _ (mem_parts_self _)) (by simp [hp.const])

/-- The negation of what has the form has it too. -/
theorem Formal.everywhere_negate (hp : Formal p) (hr : r.Regular) (h : r.Everywhere p) :
    r.negate.Everywhere p := by
  refine h.negate (fun n hn => ?_) fun hlit hneg => hp.negated r ?_
  · have hzero : n ≠ 0 := fun heq => hr.ne_zero (heq ▸ hn)
    exact hp.lit (-n) (Int.neg_ne_zero.mpr hzero)
  · cases r with
    | lit n => exact absurd rfl (hlit n)
    | neg d => exact absurd rfl (hneg d)
    | const b => exact absurd rfl (hp.ne_const h b)
    | other name args => exact absurd (hr _ (mem_parts_self _)) (by simp [isRegular])
    | and args | or args | xor a b | ite c t e => rfl

theorem Formal.everywhere_gate (hp : Formal p) {g : Circuit} (hg : g.isGate = true)
    (h : ∀ d ∈ g.inputs, d.Everywhere p) : g.Everywhere p :=
  everywhere_iff.mpr ⟨hp.gate g hg, h⟩

theorem Formal.junction (hp : Formal p) {b : Bool} {args : List Circuit}
    (h : ∀ c ∈ args, ConstantOr p c) : ConstantOr p (Pass.junction b args) := by
  unfold Pass.junction
  dsimp only
  split
  · exact Or.inl ⟨_, rfl⟩
  · rename_i hdecided
    -- What is left are circuits that are neither of the two constants.
    have hkept : ∀ c ∈ args.filter (fun arg => arg ≠ .const b), c.Everywhere p := by
      intro c hc
      refine (h c (List.mem_of_mem_filter hc)).everywhere fun v hv => ?_
      have hne : c ≠ .const b := by simpa using (List.mem_filter.mp hc).2
      have hother : c ≠ .const (!b) := fun heq => hdecided (heq ▸ hc)
      cases v <;> cases b <;> simp_all
    generalize args.filter (fun arg => arg ≠ .const b) = kept at hkept
    split
    · exact Or.inl ⟨_, rfl⟩
    · exact Or.inr (hkept _ List.mem_cons_self)
    · split
      · exact Or.inl ⟨_, rfl⟩
      · have hunique : ∀ c ∈ Pass.unique kept, c.Everywhere p := fun c hc =>
          hkept c (mem_unique.mp hc)
        split
        · exact Or.inr (hp.everywhere_gate rfl hunique)
        · exact Or.inr (hp.everywhere_gate rfl hunique)

/-- A parity keeps the form unless it negates a constant. -/
theorem Formal.parity (hp : Formal p) {a b : Circuit} (ha : ConstantOr p a) (hb : ConstantOr p b)
    (hregular : a.Regular ∧ b.Regular) (hproper : ∀ v, a = .const v → b ≠ .const true) :
    ConstantOr p (Pass.parity a b) := by
  by_cases hconst : ∃ v, b = .const v
  · obtain ⟨v, rfl⟩ := hconst
    rw [parity_const_right]
    cases v with
    | false => exact ha
    | true =>
        refine Or.inr (hp.everywhere_negate hregular.1 (ha.everywhere fun v hv => ?_))
        exact hproper v hv rfl
  · have hb' : ∀ v, b ≠ .const v := fun v heq => hconst ⟨v, heq⟩
    have hbform := hb.everywhere hb'
    by_cases hconst : ∃ v, a = .const v
    · obtain ⟨v, rfl⟩ := hconst
      rw [parity_const_left v hb']
      cases v with
      | false => exact hb
      | true => exact Or.inr (hp.everywhere_negate hregular.2 hbform)
    · have ha' : ∀ v, a ≠ .const v := fun v heq => hconst ⟨v, heq⟩
      rw [parity_of_ne_const ha' hb']
      refine Or.inr (hp.everywhere_gate rfl ?_)
      simpa [inputs] using ⟨ha.everywhere ha', hbform⟩

/-- A choice that is done keeps the form. -/
theorem Formal.choice (hp : Formal p) {c t e done : Circuit} (hc : ConstantOr p c)
    (ht : ConstantOr p t) (he : ConstantOr p e) (h : Pass.choice c t e = .inl done) :
    ConstantOr p done := by
  unfold Pass.choice at h
  split_ifs at h with hctrue hcfalse httrue hetrue htfalse hefalse
  · cases h
    exact ht
  · cases h
    exact he
  · cases h
    have hne : ∀ x : Circuit, x ≠ .const true → x ≠ .const false → ∀ v, x ≠ .const v := by
      intro x hxtrue hxfalse v
      cases v
      · exact hxfalse
      · exact hxtrue
    refine Or.inr (hp.everywhere_gate rfl ?_)
    simpa [inputs] using ⟨hc.everywhere (hne c hctrue hcfalse),
      ht.everywhere (hne t httrue htfalse), he.everywhere (hne e hetrue hefalse)⟩

end Forms

/-! ## What the pass treats -/

/-- The second pass treats a circuit on its way through another one: the inputs, and the gate that
it makes up for a choice with a constant branch. -/
inductive Treats : Circuit → Circuit → Prop
  | self (c : Circuit) : Treats c c
  | input {c d e : Circuit} (input : d ∈ c.inputs) (rest : Treats d e) : Treats c e
  | made {c gate e : Circuit} (made : Pass.made? reduced c = some gate) (rest : Treats gate e) :
      Treats c e

theorem regular_of_made? {c gate : Circuit} (hc : c.Regular)
    (h : Pass.made? reduced c = some gate) : gate.Regular ∧ gate.rank < c.rank := by
  obtain ⟨hrep, hlt⟩ := Pass.represents_of_made? (fun d hd => Pass.shrinks_reduced (hc.input hd)) h
  exact ⟨hrep.regular, hlt⟩

theorem Treats.regular {c d : Circuit} (h : Treats c d) (hc : c.Regular) : d.Regular := by
  induction h with
  | self => exact hc
  | input hinput _ ih => exact ih (hc.input hinput)
  | made hmade _ ih => exact ih (regular_of_made? hc hmade).1

theorem Treats.trans {c d e : Circuit} (h : Treats c d) (h' : Treats d e) : Treats c e := by
  induction h with
  | self => exact h'
  | input hinput _ ih => exact .input hinput (ih h')
  | made hmade _ ih => exact .made hmade (ih h')

/-- Nothing is treated outside a set of circuits with their inputs and what is made of them. -/
theorem Treats.mem {set : List Circuit}
    (closed : ∀ c ∈ set, ∀ d ∈ c.inputs ++ (Pass.made? reduced c).toList, d ∈ set) {c d : Circuit}
    (hc : c ∈ set) (h : Treats c d) : d ∈ set := by
  induction h with
  | self => exact hc
  | input hinput _ ih => exact ih (closed _ hc _ (List.mem_append_left _ hinput))
  | made hmade _ ih =>
      exact ih (closed _ hc _ (List.mem_append_right _ (Option.mem_toList.mpr hmade)))

/-- Not the negation of anything but a circuit that becomes a gate or a constant. -/
def invertsGate : Circuit → Bool
  | .neg d => d.reduced.isGate || !d.reduced.isProper
  | _ => true

/-- Not a parity of two circuits that become constants, the second one true. -/
def joinsProper : Circuit → Bool
  | .xor a b => a.reduced.isProper || decide (b.reduced ≠ .const true)
  | _ => true

/-- What a circuit becomes has the form of its inputs, if the negations on the way keep it. -/
theorem Formal.reduced {p : Circuit → Bool} (hp : Formal p) {c : Circuit} (hc : c.Regular)
    (hneg : ∀ d, Treats c (.neg d) → d.reduced.Everywhere p → p (.neg d.reduced) = true)
    (hxor : ∀ d, Treats c d → d.joinsProper = true) : ConstantOr p c.reduced := by
  -- The rank goes down from a choice to the gate made up for it.
  induction hn : c.rank using Nat.strongRecOn generalizing c with
  | ind n ih =>
      have hlower : ∀ d, Treats c d → d.Regular → d.rank < c.rank → ConstantOr p d.reduced :=
        fun d hd hregular hlt => ih d.rank (hn ▸ hlt) hregular
          (fun e he => hneg e (hd.trans he)) (fun e he => hxor e (hd.trans he)) rfl
      have hinput : ∀ d ∈ c.inputs, ConstantOr p d.reduced := fun d hd =>
        hlower d (.input hd (.self d)) (hc.input hd) (Pass.rank_lt_of_input hd)
      rw [Pass.reduced_eq hc]
      cases c with
      | lit n =>
          have hn : n ≠ 0 := fun heq => hc.ne_zero (congrArg Circuit.lit heq)
          exact Or.inr (everywhere_iff.mpr ⟨hp.lit n hn, by simp [Pass.reduceOnce, inputs]⟩)
      | const b => exact Or.inl ⟨b, rfl⟩
      | other name args => exact absurd (hc _ (mem_parts_self _)) (by simp [isRegular])
      | neg d =>
          rcases hinput d (List.mem_singleton.mpr rfl) with ⟨b, hb⟩ | hd
          · rw [Pass.reduceOnce, hb]
            exact Or.inl ⟨!b, rfl⟩
          · have hne := hp.ne_const hd
            have hform : (Circuit.neg d.reduced).Everywhere p :=
              everywhere_iff.mpr ⟨hneg d (.self _) hd, by simpa [inputs] using hd⟩
            rw [Pass.reduceOnce]
            generalize d.reduced = r at hne hform
            cases r with
            | const b => exact absurd rfl (hne b)
            | lit | neg | and | or | xor | ite | other => exact Or.inr hform
      | and args => exact hp.junction (List.forall_mem_map.mpr hinput)
      | or args => exact hp.junction (List.forall_mem_map.mpr hinput)
      | xor a b =>
          have ha : a ∈ (Circuit.xor a b).inputs := by simp [inputs]
          have hb : b ∈ (Circuit.xor a b).inputs := by simp [inputs]
          refine hp.parity (hinput a ha) (hinput b hb)
            ⟨(Pass.shrinks_reduced (hc.input ha)).1.regular,
              (Pass.shrinks_reduced (hc.input hb)).1.regular⟩ fun v hv => ?_
          simpa [joinsProper, hv, isProper] using hxor _ (.self _)
      | ite d t e =>
          rw [Pass.reduceOnce]
          cases hchoice : Pass.choice d.reduced t.reduced e.reduced with
          | inl done =>
              exact hp.choice (hinput d (by simp [inputs])) (hinput t (by simp [inputs]))
                (hinput e (by simp [inputs])) hchoice
          | inr gate =>
              have hmade : Pass.made? Circuit.reduced (.ite d t e) = some gate :=
                Sum.getRight?_eq_some_iff.mpr hchoice
              obtain ⟨hregular, hlt⟩ := regular_of_made? hc hmade
              exact hlower gate (.made hmade (.self gate)) hregular hlt

theorem isGate_or_const_of_inversion {r : Circuit} (h : ConstantOr isPlain (Pass.inversion r)) :
    (r.isGate || !r.isProper) = true := by
  cases r with
  | const b => rfl
  | and | or | xor | ite => rfl
  | lit | neg | other =>
      exact h.everywhere (fun _ hb => nomatch hb) _ (mem_parts_self _)

theorem joinsProper_of_constantOr {p : Circuit → Bool} (hp : Formal p) {c : Circuit}
    (hc : c.Regular) (h : ConstantOr p c.reduced) : c.joinsProper = true := by
  cases c with
  | xor a b =>
      by_contra hjoins
      simp only [joinsProper, Bool.or_eq_true, decide_eq_true_eq, not_or, not_not,
        Bool.not_eq_true] at hjoins
      obtain ⟨v, hv⟩ := isProper_eq_false_iff.mp hjoins.1
      rw [Pass.reduced_eq hc, Pass.reduceOnce, hv, hjoins.2] at h
      have hconst := (everywhere_iff.mp (h.everywhere fun _ heq => by cases heq)).2
        (.const v) (List.mem_singleton.mpr rfl)
      exact hp.ne_const hconst v rfl
  | lit | const | neg | and | or | ite | other => rfl

theorem invertsGate_of_constantOr {c : Circuit} (hc : c.Regular)
    (h : ConstantOr isPlain c.reduced) : c.invertsGate = true := by
  cases c with
  | neg d =>
      rw [Pass.reduced_eq hc] at h
      exact isGate_or_const_of_inversion h
  | lit | const | and | or | xor | ite | other => rfl

/-- The second pass returns what the circuit is reduced to, whatever passes have gone before.
Everything that it treats comes out as a constant or without constants exactly if no parity joins
constants, and as a constant or a plain circuit exactly if, besides, every negation on the way is of
a circuit that becomes a gate or a constant. -/
theorem simplify_plain_iff {c : Circuit} {s : Names} (regular : c.Regular) (reached : s.Reached) :
    (∃ t, Pass.simplify c s = .ok c.reduced t) ∧
    ((∀ d, Treats c d → ConstantOr isProper d.reduced) ↔
      ∀ d, Treats c d → d.joinsProper = true) ∧
    ((∀ d, Treats c d → ConstantOr isPlain d.reduced) ↔
      ∀ d, Treats c d → d.joinsProper = true ∧ d.invertsGate = true) := by
  refine ⟨?_, ⟨fun hall d hd => ?_, fun hjoins d hd => ?_⟩,
    fun hall d hd => ?_, fun hkept d hd => ?_⟩
  · obtain ⟨r, t, hrun, -, hr⟩ := Pass.simplify_ends regular reached.recorded
    exact ⟨t, (hr regular).2.2 ▸ hrun⟩
  · exact joinsProper_of_constantOr formal_isProper (hd.regular regular) (hall d hd)
  · exact formal_isProper.reduced (hd.regular regular) (fun _ _ _ => rfl)
      fun e he => hjoins e (hd.trans he)
  · exact ⟨joinsProper_of_constantOr formal_isPlain (hd.regular regular) (hall d hd),
      invertsGate_of_constantOr (hd.regular regular) (hall d hd)⟩
  · refine formal_isPlain.reduced (hd.regular regular) (fun e he hform => ?_)
      fun e he => (hkept e (hd.trans he)).1
    have hinverts : (e.reduced.isGate || !e.reduced.isProper) = true := (hkept _ (hd.trans he)).2
    rcases Bool.or_eq_true_iff.mp hinverts with hgate | hconst
    · exact hgate
    · obtain ⟨b, hb⟩ := isProper_eq_false_iff.mp (by simpa using hconst)
      exact absurd hb (formal_isPlain.ne_const hform b)

/-- What the pass treats in `constantBranch`: its parts, and two gates made up for choices. -/
def constantBranchTreated : List Circuit :=
  constantBranch.parts ++
    (Circuit.or [.neg (.or [.lit 1, .lit (-2)]), .and [.lit (-2), .lit 3]]).parts ++
    (Circuit.and [.lit (-2), .lit 3]).parts

theorem simplify_plain_iff_constantBranch :
    constantBranch.Regular ∧ (⟨{}, {}, {}⟩ : Names).Reached ∧
      (∃ t, Pass.simplify constantBranch ⟨{}, {}, {}⟩ = .ok
        (.neg (.or [.neg (.or [.lit 1, .lit (-2)]), .and [.lit (-2), .lit 3]])) t) ∧
      ∀ d, Treats constantBranch d → ConstantOr isPlain d.reduced := by
  have hregular : constantBranch.Regular := by decide +kernel
  obtain ⟨⟨t, hrun⟩, -, hform⟩ := simplify_plain_iff hregular (.fresh {})
  have hkept : ∀ d ∈ constantBranchTreated, d.joinsProper = true ∧ d.invertsGate = true := by
    decide +kernel
  have hclosed : ∀ c ∈ constantBranchTreated,
      ∀ d ∈ c.inputs ++ (Pass.made? reduced c).toList, d ∈ constantBranchTreated := by
    decide +kernel
  have hreduced : constantBranch.reduced =
      .neg (.or [.neg (.or [.lit 1, .lit (-2)]), .and [.lit (-2), .lit 3]]) := by
    decide +kernel
  refine ⟨hregular, .fresh {}, ⟨t, hreduced ▸ hrun⟩, hform.mpr fun d hd => hkept d ?_⟩
  exact hd.mem hclosed (by decide +kernel)

/-- A negated gate with one input becomes the negation of a literal, and a parity of two empty
gates the negation of a constant, though neither has constants or negates anything but gates. -/
theorem simplify_leaves_form :
    (∀ c ∈ [Circuit.neg (.and [.lit 1]), .xor (.or []) (.and [])],
      c.Regular ∧ c.Plain ∧ ¬ ConstantOr isPlain c.reduced) ∧
    (Pass.simplify (.neg (.and [.lit 1]))).run' ⟨{}, {}, {}⟩ = some (.neg (.lit 1)) ∧
    (Pass.simplify (.xor (.or []) (.and []))).run' ⟨{}, {}, {}⟩ = some (.neg (.const false)) := by
  decide +kernel

end QuantFamily.Circuit
