import Mathlib.Data.List.Basic
import Mathlib.Data.List.Induction
import QuantFamily.Proofs.Gate.Board

/-!
# What gates compute

Gate lines are evaluated from the first to the last, each gate over the values of the variables
and of the gates before it. The meaning of a block, on the other hand, is found from the meaning
of its bricks, down to the variables. A block without attribute stands for the disjunction of
its at most one brick. Whatever the order in which blocks were written, every gate of a block
gets the meaning of the block, so the output gate gets the meaning of the matrix.
-/

namespace QuantFamily

/-! ## Evaluation of gates -/

/-- The value of a signed identifier. -/
def literalValue (env : Id → Bool) (e : Int) : Bool :=
  if e < 0 then !env e.natAbs else env e.natAbs

/-- The standard meaning of the words of gates. -/
def wordValue? : String → List Bool → Option Bool
  | "and", values => some (values.all fun v => v)
  | "or", values => some (values.any fun v => v)
  | "xor", [a, b] => some (a ^^ b)
  | "ite", [c, a, b] => some (if c then a else b)
  | _, _ => none

/-- The value of a gate. -/
def Gate.value? (g : Gate) (env : Id → Bool) : Option Bool :=
  wordValue? g.word (g.operands.map (literalValue env))

/-- Evaluate gates one after the other. -/
def evaluate? (gates : List Gate) (env : Id → Bool) : Option (Id → Bool) :=
  gates.foldlM (fun env g => (g.value? env).map (Function.update env g.id)) env

theorem evaluate?_append {gates more : List Gate} {env env' : Id → Bool}
    (h : evaluate? gates env = some env') :
    evaluate? (gates ++ more) env = evaluate? more env' := by
  unfold evaluate? at h ⊢
  rw [List.foldlM_append, h]
  rfl

theorem exists_of_evaluate?_append {gates more : List Gate} {α env' : Id → Bool}
    (h : evaluate? (gates ++ more) α = some env') :
    ∃ env, evaluate? gates α = some env ∧ evaluate? more env = some env' := by
  unfold evaluate? at h
  rw [List.foldlM_append] at h
  exact Option.bind_eq_some_iff.mp h

theorem exists_of_evaluate?_snoc {gates : List Gate} {g : Gate} {α env' : Id → Bool}
    (h : evaluate? (gates ++ [g]) α = some env') :
    ∃ env v, evaluate? gates α = some env ∧ g.value? env = some v ∧
      env' = Function.update env g.id v := by
  obtain ⟨env, henv, h⟩ := exists_of_evaluate?_append h
  obtain ⟨last, hlast, h⟩ := Option.bind_eq_some_iff.mp h
  obtain ⟨v, hv, rfl⟩ := Option.map_eq_some_iff.mp hlast
  cases h
  exact ⟨env, v, henv, hv, rfl⟩

theorem evaluate?_of_not_mem {gates : List Gate} {α env : Id → Bool}
    (h : evaluate? gates α = some env) {id : Id} (hid : id ∉ gates.map Gate.id) :
    env id = α id := by
  induction gates using List.reverseRecOn generalizing env with
  | nil =>
      cases h
      rfl
  | append_singleton gates g ih =>
      obtain ⟨before, v, hbefore, -, rfl⟩ := exists_of_evaluate?_snoc h
      simp only [List.map_append, List.map_cons, List.map_nil, List.mem_append, List.mem_singleton,
        not_or] at hid
      rw [Function.update_of_ne hid.2, ih hbefore hid.1]

theorem evaluate?_cons {g : Gate} {gates : List Gate} {env : Id → Bool} {v : Bool}
    (h : g.value? env = some v) :
    evaluate? (g :: gates) env = evaluate? gates (Function.update env g.id v) := by
  unfold evaluate?
  rw [List.foldlM_cons, h]
  rfl

theorem literalValue_update {env : Id → Bool} {id : Id} {v : Bool} {e : Int}
    (h : (e.natAbs : Int) ≠ id) : literalValue (Function.update env id v) e = literalValue env e := by
  rw [literalValue, literalValue, Function.update_of_ne h]

theorem ne_zero_of_natAbs {e : Int} (h : (1 : Int) ≤ e.natAbs) : e ≠ 0 := by
  omega

/-- A number that is not negative stands for itself. -/
theorem literalValue_of_nonneg {env : Id → Bool} {e : Int} (h : 0 ≤ e) :
    literalValue env e = env e := by
  rw [literalValue, if_neg (Int.not_lt.mpr h), Int.natAbs_of_nonneg h]

theorem literalValue_neg {env : Id → Bool} {e : Int} (h : e ≠ 0) :
    literalValue env (-e) = !literalValue env e := by
  unfold literalValue
  rw [Int.natAbs_neg]
  by_cases hneg : e < 0
  · rw [if_pos hneg, if_neg (by omega), Bool.not_not]
  · rw [if_neg hneg, if_pos (by omega)]

/-! ## The meaning of blocks -/

/-- What an operator makes of the values of its bricks, if their number suits it. -/
def Operator.value? : Operator → List Bool → Option Bool
  | .and, values => some (values.all fun v => v)
  | .or, values => some (values.any fun v => v)
  | .xor, [a, b] => some (a ^^ b)
  | .implies, [a, b] => some (!a || b)
  | .iff, [a, b] => some (a == b)
  | .ite, [c, a, b] => some (if c then a else b)
  | _, _ => none

/-- What a block makes of the values of its bricks. -/
def Block.value? (b : Block) (values : List Bool) : Option Bool :=
  match b.mark with
  | some (.operator o) => o.value? values
  | some (.quantifier _) => none
  | none => if values.length ≤ 1 then some (values.any fun v => v) else none

/-- The meaning of a variable is its value, and that of a block comes from the meanings of its
bricks. -/
inductive Means (φ : Formula) (α : Id → Bool) : Id → Bool → Prop
  | variable {id : Id} (h : id ∈ φ.vars.values) : Means φ α id (α id)
  | block {id : Id} {b : Block} {v : Bool} (m : Id → Bool) (held : φ.contents.get? id = some b)
      (below : ∀ e ∈ b.body, Means φ α e.natAbs (m e.natAbs))
      (joined : b.value? (b.body.map (literalValue m)) = some v) : Means φ α id v

theorem Means.unique {φ : Formula} {α : Id → Bool} (hφ : φ.WellFormed) {id : Id} {v w : Bool}
    (h : Means φ α id v) (h' : Means φ α id w) : v = w := by
  induction h generalizing w with
  | «variable» hvar =>
      cases h' with
      | «variable» _ => rfl
      | block m held below joined => exact absurd hvar (hφ.not_variable held)
  | @block id b v m held below joined ih =>
      cases h' with
      | «variable» hvar => exact absurd hvar (hφ.not_variable held)
      | block m' held' below' joined' =>
          rw [held, Option.some.injEq] at held'
          subst held'
          have hvalues : b.body.map (literalValue m) = b.body.map (literalValue m') := by
            refine List.map_congr_left fun e he => ?_
            rw [literalValue, literalValue, ih e he (below' e he)]
          rw [← hvalues, joined, Option.some.injEq] at joined'
          exact joined'

/-! ## Gates compute the meaning -/

/-- Evaluating one gate changes the value of this gate only. -/
theorem evaluate?_single (g : Gate) (env : Id → Bool) {v : Bool} (h : g.value? env = some v) :
    ∃ env', evaluate? [g] env = some env' ∧ (∀ id ∉ [g].map Gate.id, env' id = env id) ∧
      env' g.id = v := by
  refine ⟨Function.update env g.id v, evaluate?_cons h, fun id hid => ?_, Function.update_self ..⟩
  exact Function.update_of_ne (by simpa using hid) ..

/-- A marked block that is neither quantified nor an implication means what its word means. -/
theorem wordValue?_of_marked {b : Block} {a : Attribute} (mark : b.mark = some a)
    (notImplies : a ≠ .operator .implies) (notIff : a ≠ .operator .iff)
    (parity : a = .operator .xor → b.body.length = 2)
    (choice : a = .operator .ite → b.body.length = 3)
    (operators : ∀ q, b.mark ≠ some (.quantifier q)) (m : Id → Bool) :
    ∃ v, wordValue? a.word (b.body.map (literalValue m)) = some v ∧
      b.value? (b.body.map (literalValue m)) = some v := by
  unfold Block.value?
  rw [mark]
  cases a with
  | quantifier q => exact absurd mark (operators q)
  | operator o =>
      cases o with
      | or => exact ⟨_, rfl, rfl⟩
      | and => exact ⟨_, rfl, rfl⟩
      | implies => exact absurd rfl notImplies
      | iff => exact absurd rfl notIff
      | xor =>
          obtain ⟨x, y, hbody⟩ := List.length_eq_two.mp (parity rfl)
          rw [hbody]
          exact ⟨_, rfl, rfl⟩
      | ite =>
          obtain ⟨x, y, z, hbody⟩ := List.length_eq_three.mp (choice rfl)
          rw [hbody]
          exact ⟨_, rfl, rfl⟩

/-- The gates of a block give its own gate what the block makes of the values of its bricks,
and leave everything else as it is. -/
theorem GatesOf.evaluate {c : Id} {b : Block} {gates : List Gate} (h : GatesOf c b gates)
    (operators : ∀ q, b.mark ≠ some (.quantifier q))
    (bricks : ∀ e ∈ b.body, (1 : Int) ≤ e.natAbs ∧ (e.natAbs : Int) ≤ c) (env : Id → Bool) :
    ∃ env', evaluate? gates env = some env' ∧ (∀ id ∉ gates.map Gate.id, env' id = env id) ∧
      b.value? (b.body.map (literalValue env)) = some (env' b.id) := by
  cases h with
  | @implies x y mark body =>
      rw [body] at bricks
      have hx : x ≠ 0 := ne_zero_of_natAbs (bricks x (by simp)).1
      obtain ⟨env', heval, hother, hown⟩ := evaluate?_single ⟨b.id, "or", [-x, y]⟩ env rfl
      refine ⟨env', heval, hother, ?_⟩
      rw [hown, Block.value?, mark, body]
      simp [Operator.value?, literalValue_neg hx]
  | bare mark short =>
      obtain ⟨env', heval, hother, hown⟩ := evaluate?_single ⟨b.id, "or", b.body⟩ env rfl
      refine ⟨env', heval, hother, ?_⟩
      rw [hown, Block.value?, mark]
      simp [short]
  | @marked a mark notImplies notIff parity choice =>
      obtain ⟨v, hword, hvalue⟩ :=
        wordValue?_of_marked mark notImplies notIff parity choice operators env
      obtain ⟨env', heval, hother, hown⟩ := evaluate?_single ⟨b.id, a.word, b.body⟩ env hword
      exact ⟨env', heval, hother, by rw [hown, hvalue]⟩
  | @iff x y mark body =>
      rw [body] at bricks
      have hx := bricks x (by simp)
      have hy := bricks y (by simp)
      let left := !literalValue env x || literalValue env y
      let right := !literalValue env y || literalValue env x
      have hleft : Gate.value? ⟨c + 1, "or", [-x, y]⟩ env = some left := by
        simp [Gate.value?, wordValue?, literalValue_neg (ne_zero_of_natAbs hx.1), left]
      have hright : Gate.value? ⟨c + 2, "or", [-y, x]⟩ (Function.update env (c + 1) left) =
          some right := by
        have hxother : (x.natAbs : Int) ≠ c + 1 := by grind
        have hyother : (y.natAbs : Int) ≠ c + 1 := by grind
        simp [Gate.value?, wordValue?, literalValue_neg (ne_zero_of_natAbs hy.1),
          literalValue_update hxother, literalValue_update hyother, right]
      obtain ⟨env', heval, hother, hown⟩ := evaluate?_single ⟨b.id, "and", [c + 1, c + 2]⟩
        (Function.update (Function.update env (c + 1) left) (c + 2) right) rfl
      refine ⟨env', ?_, fun id hid => ?_, ?_⟩
      · rw [evaluate?_cons hleft, evaluate?_cons hright, heval]
      · simp only [List.map_cons, List.map_nil, List.mem_cons, List.not_mem_nil, or_false,
          not_or] at hid hother
        rw [hother id hid.2.2, Function.update_of_ne hid.2.1, Function.update_of_ne hid.1]
      · have hne : c + 1 ≠ c + 2 := by grind
        have hlow : (0 : Int) ≤ c + 1 := by grind
        have hhigh : (0 : Int) ≤ c + 2 := by grind
        rw [hown, Block.value?, mark, body]
        simp only [Operator.value?, List.map_cons, List.map_nil, literalValue_of_nonneg hlow,
          literalValue_of_nonneg hhigh, Function.update_self, Function.update_of_ne hne,
          List.all_cons, List.all_nil, Bool.and_true, left, right]
        cases literalValue env x <;> cases literalValue env y <;> rfl

/-- Evaluating what is written gives every block its meaning. -/
theorem Written.evaluate {φ : Formula} {log : Log} {c : Id} (h : Written φ log c)
    (hφ : φ.WellFormed) (operators : ∀ entry ∈ log, ∀ q, entry.1.mark ≠ some (.quantifier q))
    (α : Id → Bool) :
    ∃ env, evaluate? log.gates α = some env ∧ (∀ id ∈ φ.vars.values, env id = α id) ∧
      ∀ id ∈ log.ids, Means φ α id (env id) := by
  induction h with
  | nil => exact ⟨α, rfl, fun _ _ => rfl, by simp [Log.ids]⟩
  | @snoc log c b gates earlier held fresh operands lines ih =>
      obtain ⟨env, heval, hvars, hmeans⟩ :=
        ih fun entry hentry => operators entry (List.mem_append_left _ hentry)
      have hle := earlier.counter_le
      have hbricks : ∀ e ∈ b.body, (1 : Int) ≤ e.natAbs ∧ (e.natAbs : Int) ≤ c := by
        intro e he
        have hbrick := hφ.bricks b.id b (Table.mem_entries_of_get? held) e he
        exact ⟨hbrick.1, Int.le_trans (hφ.inRange _ hbrick.2.2).2 hle⟩
      have hbelow : ∀ e ∈ b.body, Means φ α e.natAbs (env e.natAbs) := by
        intro e he
        rcases operands e he with hvar | hlog
        · rw [hvars _ hvar]
          exact .variable hvar
        · exact hmeans _ hlog
      obtain ⟨env', heval', hother, hown⟩ := lines.evaluate
        (operators (b, gates) (List.mem_append_right _ List.mem_cons_self)) hbricks env
      -- What has a value already keeps it.
      have hkept : ∀ id ≠ b.id, id ≤ φ.counter → env' id = env id := by
        intro id hne hlow
        refine hother id ?_
        rw [lines.map_id, List.mem_append, List.mem_singleton, not_or]
        refine ⟨fun haux => ?_, hne⟩
        have := Block.lt_of_mem_auxiliary haux
        grind
      refine ⟨env', ?_, fun id hid => ?_, fun id hid => ?_⟩
      · rw [Log.gates_append, Log.gates_singleton, evaluate?_append heval, heval']
      · have hne : id ≠ b.id := fun heq => hφ.not_variable held (heq ▸ hid)
        rw [hkept id hne (hφ.inRange id (List.mem_append_left _ hid)).2, hvars id hid]
      · rw [Log.ids_append, Log.ids_singleton, List.mem_append, List.mem_singleton] at hid
        rcases hid with hold | rfl
        · have hne : id ≠ b.id := fun heq => fresh (heq ▸ hold)
          obtain ⟨entry, hentry, rfl⟩ := List.mem_map.mp hold
          rw [hkept _ hne (hφ.held_range (earlier.held hentry)).2]
          exact hmeans _ hold
        · exact .block env held hbelow hown

namespace Action

/-- The gate lines of a circuit text can be evaluated under every assignment, and the output
gate then has the value v if and only if v is the meaning of the matrix. -/
theorem circuit_evaluates_to_meaning {s t : Session} {text : String} {matrix : Id}
    (built : s.Built .full) (run : generateCircuit .full s = .ok text t)
    (second : s.formula.outputPart 1 = .ok matrix)
    (operators : ∀ b, s.formula.Reachable matrix b → ∀ q, b.mark ≠ some (.quantifier q))
    (α : Id → Bool) :
    outputsIn text = [matrix] ∧ ∃ env, evaluate? (gatesIn text) α = some env ∧
      ∀ v, Means s.formula α matrix v ↔ env matrix = v := by
  have hφ := built.wellFormed
  obtain ⟨root, log, hdraws⟩ :=
    (generateCircuit_log hφ built.complete built.blank).of_ok rfl run
  obtain ⟨hgates, houtput⟩ := hdraws.read hφ
  obtain ⟨c, hwritten⟩ := hdraws.written
  have hroot : root = matrix := Except.ok.inj (hdraws.second.symm.trans second)
  subst hroot
  obtain ⟨env, heval, -, hmeans⟩ := hwritten.evaluate hφ (fun entry hentry =>
    operators entry.1 ((hdraws.mem_log_iff hφ entry.1).mp (List.mem_map_of_mem hentry))) α
  have hmatrix := hmeans root hdraws.root
  refine ⟨houtput, env, hgates ▸ heval, fun v => ⟨fun hv => hmatrix.unique hφ hv, ?_⟩⟩
  rintro rfl
  exact hmatrix

theorem circuit_evaluates_to_meaning_shared :
    sharedSession.Built .full ∧ (∃ t, generateCircuit .full sharedSession = .ok sharedText t) ∧
      sharedSession.formula.outputPart 1 = .ok 5 ∧
      (∀ b, sharedSession.formula.Reachable 5 b → ∀ q, b.mark ≠ some (.quantifier q)) ∧
      Means sharedSession.formula (fun id => id == 2) 5 true := by
  obtain ⟨t, run⟩ := sharedSession_run
  have second : sharedSession.formula.outputPart 1 = .ok 5 := by
    have hpart : (sharedSession.formula.outputPart 1).toOption = some 5 := by decide +kernel
    cases h : sharedSession.formula.outputPart 1 with
    | ok id => rw [h] at hpart; cases hpart; rfl
    | error fault => rw [h] at hpart; cases hpart
  have closed : ∀ id ∈ [5, 4, 2, 1], ∀ b ∈ sharedSession.formula.contents.get? id,
      b.mark ∈ [some (.operator .iff), some (.operator .ite)] ∧
        ∀ e ∈ b.body, (e.natAbs : Int) ∈ [5, 4, 2, 1] := by
    decide +kernel
  have operators : ∀ b, sharedSession.formula.Reachable 5 b → ∀ q,
      b.mark ≠ some (.quantifier q) := by
    rintro b ⟨held, hreaches⟩ q hmark
    have hmem := Formula.mem_of_reaches [5, 4, 2, 1]
      (fun id hid b hb => (closed id hid b hb).2) (by simp) hreaches
    have hoperator := (closed b.id hmem b held).1
    simp [hmark] at hoperator
  obtain ⟨-, env, heval, hmeans⟩ := circuit_evaluates_to_meaning sharedSession_built run second
    operators fun id => id == 2
  have hvalue : (evaluate? (gatesIn sharedText) fun id => id == 2).map (fun env => env 5) =
      some true := by
    decide +kernel
  rw [heval, Option.map_some, Option.some.injEq] at hvalue
  exact ⟨sharedSession_built, ⟨t, run⟩, second, operators, (hmeans true).mpr hvalue⟩

end Action

end QuantFamily
