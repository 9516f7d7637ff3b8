import QuantFamily.Circuit.Simplify
import QuantFamily.Proofs.Gate.Meaning
import QuantFamily.Proofs.Sequence

/-!
# The value of a circuit

Under an assignment of the variables a circuit has a value, found from its inputs. The circuits
inside a circuit are its parts; what a circuit may be built from is said of its parts, one by one.
A literal is the number of a variable or the opposite number, so zero is none.
-/

namespace QuantFamily.Circuit

/-- Induction over circuits: what passes from the inputs of a circuit to the circuit is true of
every circuit. -/
@[elab_as_elim]
theorem inputsInduction {P : Circuit → Prop} (step : ∀ c, (∀ d ∈ c.inputs, P d) → P c)
    (c : Circuit) : P c := by
  have hnil : ∀ d ∈ ([] : List Circuit), P d := by simp
  have hcons : ∀ d ds, P d → (∀ e ∈ ds, P e) → ∀ e ∈ d :: ds, P e := fun d ds hd hds =>
    List.forall_mem_cons.mpr ⟨hd, hds⟩
  exact @Circuit.rec P (fun cs => ∀ c ∈ cs, P c) (fun n => step (.lit n) hnil)
    (fun b => step (.const b) hnil) (fun c hc => step (.neg c) (hcons c [] hc hnil))
    (fun args hargs => step (.and args) hargs) (fun args hargs => step (.or args) hargs)
    (fun a b ha hb => step (.xor a b) (hcons a [b] ha (hcons b [] hb hnil)))
    (fun c t e hc ht he =>
      step (.ite c t e) (hcons c [t, e] hc (hcons t [e] ht (hcons e [] he hnil))))
    (fun name args hargs => step (.other name args) hargs) hnil hcons c

/-! ## Values -/

mutual

/-- The value of a circuit. A gate of an unknown kind counts as false. -/
def value (α : Id → Bool) : Circuit → Bool
  | .lit n => literalValue α n
  | .const b => b
  | .neg c => !value α c
  | .and args => (values α args).all fun v => v
  | .or args => (values α args).any fun v => v
  | .xor a b => value α a ^^ value α b
  | .ite c t e => if value α c then value α t else value α e
  | .other _ _ => false

def values (α : Id → Bool) : List Circuit → List Bool
  | [] => []
  | c :: cs => value α c :: values α cs

end

theorem values_eq_map (α : Id → Bool) (cs : List Circuit) : values α cs = cs.map (value α) := by
  induction cs with
  | nil => rfl
  | cons c cs ih => rw [values, ih, List.map_cons]

section Values

variable (α : Id → Bool)

@[simp] theorem value_lit (n : Int) : value α (.lit n) = literalValue α n :=
  rfl

@[simp] theorem value_const (b : Bool) : value α (.const b) = b :=
  rfl

@[simp] theorem value_neg (c : Circuit) : value α (.neg c) = !value α c :=
  rfl

@[simp] theorem value_and (args : List Circuit) : value α (.and args) = args.all (value α) := by
  change (values α args).all (fun v => v) = _
  rw [values_eq_map, List.all_map]
  rfl

@[simp] theorem value_or (args : List Circuit) : value α (.or args) = args.any (value α) := by
  change (values α args).any (fun v => v) = _
  rw [values_eq_map, List.any_map]
  rfl

@[simp] theorem value_xor (a b : Circuit) : value α (.xor a b) = (value α a ^^ value α b) :=
  rfl

@[simp] theorem value_ite (c t e : Circuit) :
    value α (.ite c t e) = if value α c then value α t else value α e :=
  rfl

@[simp] theorem value_other (name : String) (args : List Circuit) :
    value α (.other name args) = false :=
  rfl

/-- Zero has no opposite; every other circuit is negated by `negate`. -/
theorem value_negate {c : Circuit} (h : c ≠ .lit 0) : value α c.negate = !value α c := by
  cases c with
  | lit n =>
      have hn : n ≠ 0 := fun heq => h (heq ▸ rfl)
      simp [negate, literalValue_neg hn]
  | neg d => simp [negate]
  | const b => simp [negate]
  | and args => simp [negate]
  | or args => simp [negate]
  | xor a b => simp [negate]
  | ite d t e => simp [negate]
  | other name args => simp [negate]

end Values

/-! ## Parts -/

mutual

/-- The circuits inside a circuit, beginning with the circuit itself. -/
def parts : Circuit → List Circuit
  | .lit n => [.lit n]
  | .const b => [.const b]
  | .neg c => .neg c :: parts c
  | .and args => .and args :: partsAll args
  | .or args => .or args :: partsAll args
  | .xor a b => .xor a b :: (parts a ++ parts b)
  | .ite c t e => .ite c t e :: (parts c ++ parts t ++ parts e)
  | .other name args => .other name args :: partsAll args

def partsAll : List Circuit → List Circuit
  | [] => []
  | c :: cs => parts c ++ partsAll cs

end

theorem partsAll_eq_flatMap (cs : List Circuit) : partsAll cs = cs.flatMap parts := by
  induction cs with
  | nil => rfl
  | cons c cs ih => rw [partsAll, ih, List.flatMap_cons]

theorem parts_eq (c : Circuit) : c.parts = c :: c.inputs.flatMap parts := by
  cases c <;> simp [parts, inputs, partsAll_eq_flatMap]

theorem mem_parts_self (c : Circuit) : c ∈ c.parts := by
  rw [parts_eq]
  exact List.mem_cons_self

theorem mem_parts {c d : Circuit} : d ∈ c.parts ↔ d = c ∨ ∃ input ∈ c.inputs, d ∈ input.parts := by
  rw [parts_eq, List.mem_cons, List.mem_flatMap]

theorem mem_parts_of_input {c input d : Circuit} (hinput : input ∈ c.inputs)
    (hd : d ∈ input.parts) : d ∈ c.parts :=
  mem_parts.mpr (Or.inr ⟨input, hinput, hd⟩)

theorem mem_parts_trans {c d e : Circuit} (hd : d ∈ c.parts) (he : e ∈ d.parts) : e ∈ c.parts := by
  induction c using inputsInduction with
  | step c ih =>
      rcases mem_parts.mp hd with rfl | ⟨input, hinput, hd⟩
      · exact he
      · exact mem_parts_of_input hinput (ih input hinput hd)

/-- A property of every part of a circuit. -/
def Everywhere (p : Circuit → Bool) (c : Circuit) : Prop :=
  ∀ d ∈ c.parts, p d = true

instance (p : Circuit → Bool) (c : Circuit) : Decidable (Everywhere p c) :=
  inferInstanceAs (Decidable (∀ d ∈ c.parts, p d = true))

theorem everywhere_iff {p : Circuit → Bool} {c : Circuit} :
    Everywhere p c ↔ p c = true ∧ ∀ input ∈ c.inputs, Everywhere p input := by
  unfold Everywhere
  rw [parts_eq]
  simp only [List.forall_mem_cons, List.forall_mem_flatMap]

/-- Negation turns a literal over, undoes a negation and negates every other circuit. -/
theorem Everywhere.negate {p : Circuit → Bool} {c : Circuit} (h : c.Everywhere p)
    (hlit : ∀ n, c = .lit n → p (.lit (-n)) = true)
    (hneg : (∀ n, c ≠ .lit n) → (∀ d, c ≠ .neg d) → p (.neg c) = true) :
    c.negate.Everywhere p := by
  have hgate : (∀ n, c ≠ .lit n) → (∀ d, c ≠ .neg d) → (Circuit.neg c).Everywhere p :=
    fun hn hd => everywhere_iff.mpr ⟨hneg hn hd, by simpa [inputs] using h⟩
  cases c with
  | lit n => exact everywhere_iff.mpr ⟨hlit n rfl, by simp [Circuit.negate, inputs]⟩
  | neg d => exact (everywhere_iff.mp h).2 d (List.mem_singleton.mpr rfl)
  | const b => exact hgate (by simp) (by simp)
  | and args => exact hgate (by simp) (by simp)
  | or args => exact hgate (by simp) (by simp)
  | xor a b => exact hgate (by simp) (by simp)
  | ite d t e => exact hgate (by simp) (by simp)
  | other name args => exact hgate (by simp) (by simp)

/-- A circuit of known gates over proper literals. -/
def isRegular : Circuit → Bool
  | .lit n => decide (n ≠ 0)
  | .other _ _ => false
  | _ => true

/-- A circuit built from literals, constants and gates of the known kinds. -/
abbrev Regular (c : Circuit) : Prop :=
  c.Everywhere isRegular

theorem Regular.ne_zero {c : Circuit} (h : c.Regular) : c ≠ .lit 0 := by
  rintro rfl
  exact absurd (h _ (mem_parts_self _)) (by decide)

theorem Regular.input {c input : Circuit} (h : c.Regular) (hinput : input ∈ c.inputs) :
    input.Regular :=
  (everywhere_iff.mp h).2 input hinput

theorem Regular.negate {c : Circuit} (h : c.Regular) : c.negate.Regular := by
  refine Everywhere.negate h (fun n hn => ?_) fun _ _ => rfl
  have hzero : n ≠ 0 := fun heq => h.ne_zero (heq ▸ hn)
  simpa [isRegular] using hzero

/-! ## Variables -/

theorem mem_occurrencesAll {v : Nat} {cs : List Circuit} :
    v ∈ occurrencesAll cs ↔ ∃ c ∈ cs, v ∈ c.occurrences := by
  induction cs with
  | nil => simp [occurrencesAll]
  | cons c cs ih => simp [occurrencesAll, ih]

theorem mem_occurrences_iff_input {v : Nat} {c : Circuit} :
    v ∈ c.occurrences ↔
      (∃ n, c = .lit n ∧ n.natAbs = v) ∨ ∃ input ∈ c.inputs, v ∈ input.occurrences := by
  cases c <;> simp [occurrences, inputs, mem_occurrencesAll, eq_comm]

theorem mem_occurrences {v : Nat} {c : Circuit} :
    v ∈ c.occurrences ↔ ∃ n, .lit n ∈ c.parts ∧ n.natAbs = v := by
  induction c using inputsInduction with
  | step c ih =>
      rw [mem_occurrences_iff_input]
      constructor
      · rintro (⟨n, rfl, hn⟩ | ⟨input, hinput, hv⟩)
        · exact ⟨n, mem_parts_self _, hn⟩
        · obtain ⟨n, hpart, hn⟩ := (ih input hinput).mp hv
          exact ⟨n, mem_parts_of_input hinput hpart, hn⟩
      · rintro ⟨n, hpart, hn⟩
        rcases mem_parts.mp hpart with rfl | ⟨input, hinput, hpart⟩
        · exact Or.inl ⟨n, rfl, hn⟩
        · exact Or.inr ⟨input, hinput, (ih input hinput).mpr ⟨n, hpart, hn⟩⟩

theorem occurrences_negate (c : Circuit) : c.negate.occurrences = c.occurrences := by
  cases c <;> simp [negate, occurrences]

theorem value_congr {c : Circuit} {α β : Id → Bool}
    (h : ∀ v ∈ c.occurrences, α v = β v) : value α c = value β c := by
  induction c using inputsInduction with
  | step c ih =>
      have hinput : ∀ d ∈ c.inputs, value α d = value β d := fun d hd =>
        ih d hd fun v hv => h v (mem_occurrences_iff_input.mpr (Or.inr ⟨d, hd, hv⟩))
      cases c with
      | lit n =>
          have hn : α n.natAbs = β n.natAbs := h _ (by simp [occurrences])
          rw [value_lit, value_lit, literalValue, literalValue, hn]
      | const b => simp
      | neg d => simp [hinput d (by simp [inputs])]
      | and args =>
          have hargs : args.map (value α) = args.map (value β) := List.map_congr_left hinput
          rw [value, value, values_eq_map, values_eq_map, hargs]
      | or args =>
          have hargs : args.map (value α) = args.map (value β) := List.map_congr_left hinput
          rw [value, value, values_eq_map, values_eq_map, hargs]
      | xor a b => simp [hinput a (by simp [inputs]), hinput b (by simp [inputs])]
      | ite d t e =>
          simp [hinput d (by simp [inputs]), hinput t (by simp [inputs]), hinput e (by simp [inputs])]
      | other name args => simp

end QuantFamily.Circuit
