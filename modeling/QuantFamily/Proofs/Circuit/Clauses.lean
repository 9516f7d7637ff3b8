import QuantFamily.Circuit.Writer
import QuantFamily.Proofs.Circuit.Value

/-!
# What the clauses of gates say

The clauses of a gate say that it has the value of its inputs. Read over an assignment of truth
values to the gates, the clauses of all gates of a circuit leave no choice: from the inputs
upwards every gate must have the value that it has as a circuit, and with these values all clauses
are satisfied.
-/

namespace QuantFamily.Circuit

def isGate : Circuit → Bool
  | .and _ | .or _ | .xor _ _ | .ite _ _ _ => true
  | _ => false

/-- A proper literal, a gate, or the negation of a gate. -/
def isPlain : Circuit → Bool
  | .lit n => decide (n ≠ 0)
  | .neg c => c.isGate
  | c => c.isGate

/-- A circuit of gates over literals, without constants, and with negations at gates only. -/
abbrev Plain (c : Circuit) : Prop :=
  c.Everywhere isPlain

def gates (c : Circuit) : List Circuit :=
  c.parts.filter isGate

theorem mem_gates {c d : Circuit} : d ∈ c.gates ↔ d ∈ c.parts ∧ d.isGate = true :=
  List.mem_filter

theorem negate_of_isGate {gate : Circuit} (h : gate.isGate = true) : gate.negate = .neg gate := by
  cases gate <;> first | rfl | cases h

theorem isPlain_of_isGate {gate : Circuit} (h : gate.isGate = true) : gate.isPlain = true := by
  cases gate <;> first | rfl | cases h

theorem isPlain_negate {c : Circuit} (h : c.isPlain = true) : c.negate.isPlain = true := by
  cases c with
  | lit n => simpa [negate, isPlain] using h
  | neg d => exact isPlain_of_isGate h
  | const b => cases h
  | other name args => cases h
  | _ => rfl

/-! ## One gate -/

/-- What a gate makes of the values of its inputs. -/
def operate : Circuit → List Bool → Bool
  | .and _, values => values.all fun v => v
  | .or _, values => values.any fun v => v
  | .xor _ _, [a, b] => a ^^ b
  | .ite _ _ _, [c, t, e] => if c then t else e
  | _, _ => false

theorem value_eq_operate {gate : Circuit} (h : gate.isGate = true) (α : Id → Bool) :
    gate.value α = gate.operate (gate.inputs.map (value α)) := by
  cases gate with
  | and args => rw [value, values_eq_map]; rfl
  | or args => rw [value, values_eq_map]; rfl
  | xor a b => simp [inputs, operate]
  | ite c t e => simp [inputs, operate]
  | lit n => cases h
  | const b => cases h
  | neg c => cases h
  | other name args => cases h

section Entries

variable (α : Id → Bool) (g : Circuit → Bool)

/-- The truth value of an entry of a clause, when `g` gives the values of gates. -/
def entryValue : Circuit → Bool
  | .lit n => literalValue α n
  | .neg c => !entryValue c
  | c => g c

def Satisfied (clause : List Circuit) : Prop :=
  ∃ entry ∈ clause, entryValue α g entry = true

theorem entryValue_of_isGate {gate : Circuit} (h : gate.isGate = true) :
    entryValue α g gate = g gate := by
  cases gate <;> first | rfl | cases h

theorem entryValue_negate {c : Circuit} (h : c.isPlain = true) :
    entryValue α g c.negate = !entryValue α g c := by
  cases c with
  | lit n =>
      have hn : n ≠ 0 := of_decide_eq_true h
      simp [negate, entryValue, literalValue_neg hn]
  | neg d => simp [negate, entryValue]
  | _ => rfl

variable {α g}

theorem satisfied_cons {entry : Circuit} {clause : List Circuit} :
    Satisfied α g (entry :: clause) ↔ entryValue α g entry = true ∨ Satisfied α g clause := by
  simp [Satisfied]

theorem not_satisfied_nil : ¬ Satisfied α g [] := by
  simp [Satisfied]

theorem satisfied_map_negate {args : List Circuit} (h : ∀ c ∈ args, c.isPlain = true) :
    Satisfied α g (args.map negate) ↔ ∃ c ∈ args, entryValue α g c = false := by
  unfold Satisfied
  simp only [List.mem_map, exists_exists_and_eq_and]
  refine exists_congr fun c => and_congr_right fun hc => ?_
  rw [entryValue_negate α g (h c hc), Bool.not_eq_true']

theorem choiceClauses_iff {v c t e : Circuit} (hv : v.isPlain = true) (hc : c.isPlain = true)
    (ht : t.isPlain = true) (he : e.isPlain = true) :
    (∀ clause ∈ choiceClauses v c t e, Satisfied α g clause) ↔
      entryValue α g v = if entryValue α g c then entryValue α g t else entryValue α g e := by
  simp only [choiceClauses, List.forall_mem_cons, List.not_mem_nil, false_imp_iff, implies_true,
    and_true, satisfied_cons, not_satisfied_nil, or_false, entryValue_negate α g hv,
    entryValue_negate α g hc, entryValue_negate α g ht, entryValue_negate α g he]
  cases entryValue α g v <;> cases entryValue α g c <;> cases entryValue α g t <;>
    cases entryValue α g e <;> decide

variable (α g) in
/-- The clauses of a gate are satisfied if and only if the gate has the value of its inputs. -/
theorem gateClauses_iff {gate : Circuit} (hgate : gate.isGate = true)
    (hinputs : ∀ c ∈ gate.inputs, c.isPlain = true) :
    ∃ clauses, gateClauses? gate = some clauses ∧
      ((∀ clause ∈ clauses, Satisfied α g clause) ↔
        g gate = gate.operate (gate.inputs.map (entryValue α g))) := by
  have hown := entryValue_of_isGate α g hgate
  have hneg : entryValue α g gate.negate = !g gate := by
    rw [negate_of_isGate hgate, entryValue, hown]
  have hplain := isPlain_of_isGate hgate
  cases gate with
  | and args =>
      have hargs : ∀ c ∈ args, c.isPlain = true := hinputs
      refine ⟨_, rfl, ?_⟩
      simp only [List.forall_mem_cons, List.forall_mem_map, satisfied_cons, not_satisfied_nil,
        or_false, satisfied_map_negate hargs, hown, hneg, inputs, operate]
      cases g (.and args) <;> simp
  | or args =>
      have hargs : ∀ c ∈ args, (entryValue α g c.negate = true ↔ entryValue α g c = false) :=
        fun c hc => by rw [entryValue_negate α g (hinputs c hc), Bool.not_eq_true']
      refine ⟨_, rfl, ?_⟩
      simp only [List.forall_mem_cons, List.forall_mem_map, satisfied_cons, not_satisfied_nil,
        or_false, hown, hneg, inputs, operate]
      cases g (.or args)
      · simpa [Satisfied] using forall₂_congr hargs
      · simp [Satisfied]
  | xor a b =>
      have ha := hinputs a (by simp [inputs])
      have hb := hinputs b (by simp [inputs])
      refine ⟨_, rfl, ?_⟩
      rw [choiceClauses_iff hplain ha (isPlain_negate hb) hb, hown, entryValue_negate α g hb]
      simp only [inputs, operate, List.map_cons, List.map_nil]
      cases entryValue α g a <;> simp
  | ite c t e =>
      refine ⟨_, rfl, ?_⟩
      rw [choiceClauses_iff hplain (hinputs c (by simp [inputs])) (hinputs t (by simp [inputs]))
        (hinputs e (by simp [inputs])), hown]
      rfl
  | lit n => cases hgate
  | const b => cases hgate
  | neg c => cases hgate
  | other name args => cases hgate

/-! ## All gates -/

/-- Truth values of gates fit a circuit if all clauses of all its gates are satisfied. -/
def Fits (α : Id → Bool) (g : Circuit → Bool) (c : Circuit) : Prop :=
  ∀ gate ∈ c.gates, ∀ clauses, gateClauses? gate = some clauses →
    ∀ clause ∈ clauses, Satisfied α g clause

theorem fits_iff {c : Circuit} (plain : c.Plain) :
    Fits α g c ↔
      ∀ gate ∈ c.gates, g gate = gate.operate (gate.inputs.map (entryValue α g)) := by
  refine forall₂_congr fun gate hgate => ?_
  obtain ⟨hpart, hkind⟩ := mem_gates.mp hgate
  have hinputs : ∀ d ∈ gate.inputs, d.isPlain = true := fun d hd =>
    plain d (mem_parts_trans hpart (mem_parts_of_input hd (mem_parts_self d)))
  obtain ⟨clauses, hclauses, hiff⟩ := gateClauses_iff α g hkind hinputs
  simp only [hclauses, Option.some.injEq, forall_eq', hiff]

/-- In values that fit, every entry for a part of the circuit has the value of the part. -/
theorem entryValue_of_fits {c d : Circuit} (plain : c.Plain) (fits : Fits α g c)
    (hd : d ∈ c.parts) : entryValue α g d = d.value α := by
  rw [fits_iff plain] at fits
  -- The inputs of a part are parts, so their entries have their values by induction.
  induction d using inputsInduction with
  | step d ih =>
      have hinput : ∀ e ∈ d.inputs, entryValue α g e = e.value α := fun e he =>
        ih e he (mem_parts_trans hd (mem_parts_of_input he (mem_parts_self e)))
      by_cases hkind : d.isGate = true
      · rw [entryValue_of_isGate α g hkind, fits d (mem_gates.mpr ⟨hd, hkind⟩),
          value_eq_operate hkind, List.map_congr_left hinput]
      · have hplain := plain d hd
        cases d with
        | lit n => rw [entryValue, value]
        | neg e => rw [entryValue, hinput e (by simp [inputs]), value]
        | _ => exact absurd hplain hkind

theorem entryValue_of_values {c d : Circuit} (plain : c.Plain)
    (h : ∀ gate ∈ c.gates, g gate = gate.value α) (hd : d ∈ c.parts) :
    entryValue α g d = d.value α := by
  have hplain := plain d hd
  have hgate : d.isGate = true → entryValue α g d = d.value α := fun hkind =>
    (entryValue_of_isGate α g hkind).trans (h d (mem_gates.mpr ⟨hd, hkind⟩))
  cases d with
  | lit n => rw [entryValue, value]
  | neg e =>
      have he : e ∈ c.parts :=
        mem_parts_trans hd (mem_parts_of_input (by simp [inputs]) (mem_parts_self e))
      rw [entryValue, entryValue_of_isGate α g hplain, h e (mem_gates.mpr ⟨he, hplain⟩), value]
  | _ => exact hgate hplain

/-- Exactly one assignment of truth values to the gates of a circuit fits. -/
theorem fits_iff_values {c : Circuit} (plain : c.Plain) :
    Fits α g c ↔ ∀ gate ∈ c.gates, g gate = gate.value α := by
  constructor
  · intro fits gate hgate
    obtain ⟨hpart, hkind⟩ := mem_gates.mp hgate
    rw [← entryValue_of_isGate α g hkind, entryValue_of_fits plain fits hpart]
  · intro h
    rw [fits_iff plain]
    intro gate hgate
    obtain ⟨hpart, hkind⟩ := mem_gates.mp hgate
    rw [h gate hgate, value_eq_operate hkind]
    refine congrArg _ (List.map_congr_left fun d hd => (entryValue_of_values plain h ?_).symm)
    exact mem_parts_trans hpart (mem_parts_of_input hd (mem_parts_self d))

theorem satisfied_unit {entry : Circuit} :
    Satisfied α g [entry] ↔ entryValue α g entry = true := by
  simp [Satisfied]

end Entries

end QuantFamily.Circuit
