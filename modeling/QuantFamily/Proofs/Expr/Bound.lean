import Mathlib.Data.List.Find
import QuantFamily.Formula.Define
import QuantFamily.Proofs.Expr.Literal
import QuantFamily.Proofs.Session.Calculus

/-!
# Bound names

Values are brought into the scope of an expression by assignments, one after the other. The name is
assigned in its canonical form, the value is written out and read again, and the evaluation keeps
names of its own in the same scope. So a bound name has its value only if none of these gets in the
way. `evaluate_bound_name` says when it has.
-/

namespace QuantFamily

namespace Expr

/-- A text is the only value that is not read as it is written: it stands for what it spells. -/
def Value.isText : Value → Bool
  | .str _ => true
  | _ => false

theorem Value.text_eq_render {v : Value} (h : v.isText = false) : v.text = v.render := by
  cases v with
  | str s => cases h
  | none | bool | int | real | list | tuple | range | record | builtin | formula | drained => rfl

namespace Evaluation

/-- The names that an evaluation uses itself. -/
def ownNames : List String :=
  ["p", "assignment", "self", "expr", "extraValues", "variables", "assigned_values", "pairs"]

/-- A name that can be assigned, with a value of a kind that parameters have. -/
def isDeclared (b : String × Value) : Bool :=
  Token.isName b.1 && b.2.isLiteral Token.maxDepth

theorem isName_of_isDeclared {b : String × Value} (h : isDeclared b = true) :
    Token.isName b.1 = true := by
  rw [isDeclared, Bool.and_eq_true] at h
  exact h.1

theorem isLiteral_of_isDeclared {b : String × Value} (h : isDeclared b = true) :
    b.2.isLiteral Token.maxDepth = true := by
  rw [isDeclared, Bool.and_eq_true] at h
  exact h.2

/-- The value of the last binding whose name has the given canonical form. -/
def latest (bs : List (String × Value)) (x : String) : Option Value :=
  (bs.reverse.find? fun b => decide (Token.canonical b.1 = x)).map Prod.snd

/-- A name that stands for nothing while some bindings are in scope. -/
structure Unknown (bs : List (String × Value)) (x : String) : Prop where
  foreign : x ∉ ownNames
  unbound : ∀ b ∈ bs, Token.canonical b.1 ≠ x
  undefined : ∀ f : Builtin, f.name ≠ x

variable {e : Evaluation} {bs : List (String × Value)} {b : String × Value} {x : String}

/-! ## One binding -/

theorem lookup_fixedNames (hx : x ∉ ownNames) : e.fixedNames.lookup x = none := by
  simp only [ownNames, List.mem_cons, List.not_mem_nil, or_false, not_or] at hx
  rw [List.lookup_eq_none_iff]
  simp [fixedNames, hx]

theorem lookup_namesAt (hx : x ∉ ownNames) : (e.namesAt b).lookup x = none := by
  simp only [ownNames, List.mem_cons, List.not_mem_nil, or_false, not_or] at hx
  rw [List.lookup_eq_none_iff]
  simp [namesAt, fixedNames, hx]

theorem bind_value (hb : isDeclared b = true) (htext : b.2.isText = false) (scope : Scope) :
    e.bind scope b =
      .ok ⟨e.namesAt b, scope.assigned.put (Token.canonical b.1) b.2⟩ := by
  have hliteral := isLiteral_of_isDeclared hb
  have hparse : Assignment.parse? (assignment b) =
      some [⟨[Token.canonical b.1], b.2.term⟩] := by
    rw [assignment, Value.text_eq_render htext]
    exact Assignment.parse?_value (isName_of_isDeclared hb) hliteral
  unfold bind
  dsimp only
  rw [if_pos (Value.isWritable_of_isLiteral hliteral), hparse, Option.bind_some, Assignment.run,
    Value.eval_term hliteral]
  rfl

/-- A text that spells an unknown name cannot be assigned. -/
theorem bind_unknown {m t : String} (hm : Token.isName m = true) (ht : Token.isName t = true)
    {scope : Scope} (hunbound : scope.assigned.get? (Token.canonical t) = none)
    (hunknown : Unknown bs (Token.canonical t)) :
    e.bind scope (m, .str t) = .error (.unassignable (m ++ " = " ++ t)) := by
  have hparse : Assignment.parse? (assignment (m, .str t)) =
      some [⟨[Token.canonical m], .name (Token.canonical t)⟩] := Assignment.parse?_name hm ht
  have hbuiltin : Builtin.every.find? (fun f => f.name == Token.canonical t) = none := by
    rw [List.find?_eq_none]
    intro f _ heq
    exact hunknown.undefined f (beq_iff_eq.mp heq)
  unfold bind
  dsimp only
  rw [if_pos (show (Value.str t).isWritable = true from rfl), hparse, Option.bind_some,
    Assignment.run, Term.eval]
  simp only [Scope.get?, lookup_namesAt hunknown.foreign, hunbound, hbuiltin, Option.map_none]
  rfl

/-! ## All bindings -/

/-- The assignments that bindings make. -/
def assign (table : Table String Value) (b : String × Value) : Table String Value :=
  table.put (Token.canonical b.1) b.2

theorem get?_foldl_assign (bs : List (String × Value)) (table : Table String Value) (x : String) :
    (bs.foldl assign table).get? x = (latest bs x).or (table.get? x) := by
  induction bs generalizing table with
  | nil => rfl
  | cons b bs ih =>
      -- A binding counts only if none behind it has the name.
      rw [List.foldl_cons, ih, latest, latest, List.reverse_cons, List.find?_append]
      cases bs.reverse.find? fun b => decide (Token.canonical b.1 = x) with
      | some found => rfl
      | none =>
          by_cases hx : Token.canonical b.1 = x
          · simp [assign, hx]
          · simp [assign, hx, Table.get?_put_of_ne _ _ (Ne.symm hx)]

/-- Bindings without texts leave their assignments, and the names of the last one reached. -/
theorem foldlM_bind (hbs : ∀ b ∈ bs, isDeclared b = true) (htext : ∀ b ∈ bs, b.2.isText = false)
    (scope : Scope) :
    ∃ own, bs.foldlM e.bind scope = .ok ⟨own, bs.foldl assign scope.assigned⟩ ∧
      (bs = [] ∧ own = scope.own ∨ ∃ b ∈ bs, own = e.namesAt b) := by
  induction bs generalizing scope with
  | nil => exact ⟨scope.own, rfl, .inl ⟨rfl, rfl⟩⟩
  | cons b bs ih =>
      rw [List.forall_mem_cons] at hbs htext
      obtain ⟨own, hrun, hown⟩ := ih hbs.2 htext.2 ⟨e.namesAt b, assign scope.assigned b⟩
      refine ⟨own, ?_, .inr ?_⟩
      · rw [List.foldlM_cons, bind_value hbs.1 htext.1]
        exact hrun
      · rcases hown with ⟨rfl, rfl⟩ | ⟨c, hc, rfl⟩
        · exact ⟨b, List.mem_cons_self, rfl⟩
        · exact ⟨c, List.mem_cons_of_mem b hc, rfl⟩

theorem latest_eq_none (h : ∀ b ∈ bs, Token.canonical b.1 ≠ x) : latest bs x = none := by
  rw [latest, Option.map_eq_none_iff, List.find?_eq_none]
  exact fun b hb heq => h b (List.mem_reverse.mp hb) (of_decide_eq_true heq)

theorem exists_latest (hb : b ∈ bs) (hx : Token.canonical b.1 = x) : ∃ v, latest bs x = some v := by
  rw [← Option.isSome_iff_exists, latest, Option.isSome_map, List.find?_isSome]
  exact ⟨b, List.mem_reverse.mpr hb, decide_eq_true hx⟩

/-! ## Names as expressions -/

theorem run_name (hn : Token.isName e.expression = true) {scope : Scope}
    (hscope : e.scope = .ok scope) {v : Value}
    (hv : scope.get? (Token.canonical e.expression) = some v) : e.run = .ok v := by
  have hterm : (Term.parse? e.expression).bind (·.eval scope) = some v := by
    rw [Term.parse?_name hn, Option.bind_some, Term.eval, hv]
  unfold run
  simp only [hscope, Bind.bind, Except.bind, hterm]

/-- A bound name that the evaluation does not use itself has its latest value. -/
theorem run_bound (hn : Token.isName e.expression = true)
    (hbs : ∀ b ∈ e.bindings, isDeclared b = true) (htext : ∀ b ∈ e.bindings, b.2.isText = false)
    (hown : Token.canonical e.expression ∉ ownNames) {v : Value}
    (hv : latest e.bindings (Token.canonical e.expression) = some v) : e.run = .ok v := by
  obtain ⟨own, hscope, hnames⟩ := foldlM_bind (e := e) hbs htext ⟨e.fixedNames, {}⟩
  have hlookup : own.lookup (Token.canonical e.expression) = none := by
    rcases hnames with ⟨_, rfl⟩ | ⟨b, _, rfl⟩
    · exact lookup_fixedNames hown
    · exact lookup_namesAt hown
  refine run_name hn hscope ?_
  simp only [Scope.get?, hlookup, get?_foldl_assign, hv, Option.some_or]

/-- A name that the evaluation uses itself has the value that the evaluation gives it. -/
theorem run_own (hn : Token.isName e.expression = true)
    (hbs : ∀ b ∈ e.bindings, isDeclared b = true) (htext : ∀ b ∈ e.bindings, b.2.isText = false)
    (hne : e.bindings ≠ []) :
    ∃ b ∈ e.bindings, ∀ v, (e.namesAt b).lookup (Token.canonical e.expression) = some v →
      e.run = .ok v := by
  obtain ⟨own, hscope, ⟨hnil, _⟩ | ⟨b, hb, rfl⟩⟩ :=
    foldlM_bind (e := e) hbs htext ⟨e.fixedNames, {}⟩
  · exact absurd hnil hne
  · refine ⟨b, hb, fun v hv => run_name hn hscope ?_⟩
    simp only [Scope.get?, hv]

/-- No value is a list that it is itself an item of. -/
theorem ne_list_of_mem {v : Value} {items : List Value} (h : v ∈ items) : v ≠ .list items := by
  rintro rfl
  have hsize := List.sizeOf_lt_of_mem h
  rw [Value.list.sizeOf_spec] at hsize
  omega

/-- Of the names that the evaluation uses itself, only one can have the value of a binding. -/
theorem run_own_cases (hbs : ∀ b ∈ e.bindings, isDeclared b = true)
    (htext : ∀ b ∈ e.bindings, b.2.isText = false) {v : Value}
    (hb : (e.expression, v) ∈ e.bindings) (hown : Token.canonical e.expression ∈ ownNames) :
    (Token.canonical e.expression = "variables" ∧
        e.run = .ok (.list (e.bindings.map fun b => .str b.1))) ∨
      (Token.canonical e.expression ≠ "variables" ∧ e.run ≠ .ok v) := by
  obtain ⟨c, _, hrun⟩ := run_own (isName_of_isDeclared (hbs _ hb)) hbs htext
    (List.ne_nil_of_mem hb)
  have hother : ∀ w, (e.namesAt c).lookup (Token.canonical e.expression) = some w → v ≠ w →
      e.run ≠ .ok v := by
    intro w hw hne heq
    rw [hrun w hw] at heq
    exact hne (Except.ok.inj heq).symm
  have hkind : ∀ w, w.isLiteral Token.maxDepth = false ∨ w.isText = true → v ≠ w := by
    rintro w hw rfl
    rcases hw with hw | hw
    · exact Bool.false_ne_true (hw.symm.trans (isLiteral_of_isDeclared (hbs _ hb)))
    · exact Bool.false_ne_true ((htext _ hb).symm.trans hw)
  -- The list of all values has `v` as an item, so it is not `v`.
  have hvalues : v ≠ .list (e.bindings.map fun b => b.2) :=
    ne_list_of_mem (List.mem_map.mpr ⟨_, hb, rfl⟩)
  simp only [ownNames, List.mem_cons, List.not_mem_nil, or_false] at hown
  generalize Token.canonical e.expression = x at hown hrun hother ⊢
  rcases hown with rfl | rfl | rfl | rfl | rfl | rfl | rfl | rfl
  · exact .inr ⟨by decide, hother _ rfl (hkind _ (.inl rfl))⟩
  · exact .inr ⟨by decide, hother _ rfl (hkind _ (.inr rfl))⟩
  · exact .inr ⟨by decide, hother _ rfl (hkind _ (.inl rfl))⟩
  · exact .inr ⟨by decide, hother _ rfl (hkind _ (.inr rfl))⟩
  · exact .inr ⟨by decide, hother _ rfl (hkind _ (.inl rfl))⟩
  · exact .inl ⟨rfl, hrun _ rfl⟩
  · exact .inr ⟨by decide, hother _ rfl hvalues⟩
  · exact .inr ⟨by decide, hother _ rfl (hkind _ (.inl rfl))⟩

/-- When a bound name has the value it is bound to, if no value is a text. -/
theorem run_eq_ok_iff (hbs : ∀ b ∈ e.bindings, isDeclared b = true)
    (htext : ∀ b ∈ e.bindings, b.2.isText = false) {v : Value}
    (hb : (e.expression, v) ∈ e.bindings) :
    e.run = .ok v ↔
      (Token.canonical e.expression ∉ ownNames ∧
        latest e.bindings (Token.canonical e.expression) = some v) ∨
      (Token.canonical e.expression = "variables" ∧
        v = .list (e.bindings.map fun b => .str b.1)) := by
  by_cases hown : Token.canonical e.expression ∈ ownNames
  · rcases run_own_cases hbs htext hb hown with ⟨hx, hrun⟩ | ⟨hx, hrun⟩
    · rw [hx] at hown
      simp [hrun, hown, hx, eq_comm]
    · simp [hrun, hown, hx]
  · have hx : Token.canonical e.expression ≠ "variables" := by
      intro hx
      exact hown (hx ▸ by decide)
    obtain ⟨w, hw⟩ := exists_latest hb rfl
    rw [run_bound (isName_of_isDeclared (hbs _ hb)) hbs htext hown hw, hw]
    simp [hown, hx]

/-- A text that spells an unknown name spoils the evaluation of every expression. -/
theorem run_unknown {before after : List (String × Value)} {m t : String}
    (hsplit : e.bindings = before ++ (m, .str t) :: after)
    (hbefore : ∀ b ∈ before, isDeclared b = true) (htext : ∀ b ∈ before, b.2.isText = false)
    (hm : Token.isName m = true) (ht : Token.isName t = true)
    (hunknown : Unknown before (Token.canonical t)) :
    e.run = .error (.unassignable (m ++ " = " ++ t)) := by
  obtain ⟨own, hscope, _⟩ := foldlM_bind (e := e) hbefore htext ⟨e.fixedNames, {}⟩
  have hbind : e.bind ⟨own, before.foldl assign {}⟩ (m, .str t) =
      .error (.unassignable (m ++ " = " ++ t)) := by
    refine bind_unknown hm ht ?_ hunknown
    rw [get?_foldl_assign, latest_eq_none hunknown.unbound]
    rfl
  unfold run scope
  rw [hsplit, List.foldlM_append, hscope]
  simp only [Bind.bind, Except.bind, List.foldlM_cons, hbind]

/-- If no other name has the same canonical form, the latest value is the one that an index has, or
else the formula. -/
theorem latest_bindings (hvalues : e.values.keys.Nodup) (hindices : e.indices.keys.Nodup)
    {n : String} (halone : ∀ b ∈ e.bindings, Token.canonical b.1 = Token.canonical n → b.1 = n) :
    latest e.bindings (Token.canonical n) = (e.indices.get? n).or (e.values.get? n) := by
  have hsame : e.bindings.reverse.find?
      (fun b => decide (Token.canonical b.1 = Token.canonical n)) =
      e.bindings.reverse.find? (fun b => decide (b.1 = n)) := by
    refine List.find?_congr fun b hb => ?_
    have hiff : Token.canonical b.1 = Token.canonical n ↔ b.1 = n :=
      ⟨halone b (List.mem_reverse.mp hb), fun heq => heq ▸ rfl⟩
    exact decide_eq_decide.mpr hiff
  rw [latest, hsame, bindings, List.reverse_append, List.find?_append, Option.map_or,
    Table.find?_reverse_entries hindices, Table.find?_reverse_entries hvalues]

end Evaluation

end Expr

open QuantFamily.Expr (Value Token Evaluation)

namespace Formula

variable {φ : Formula} {indices : Valuation} {n : String}

/-- The values of the formula and the indices around an expression, in the order in which they are
brought into scope. -/
def bindings (φ : Formula) (indices : Valuation) : List (String × Value) :=
  φ.values.entries ++ indices.entries

/-- The value that a name is bound to: that of an index, if there is one. -/
def bound? (φ : Formula) (indices : Valuation) (n : String) : Option Value :=
  (indices.get? n).or (φ.values.get? n)

theorem evaluate_eq_ok_iff {v : Value} :
    φ.evaluate n indices = .ok v ↔ Evaluation.run ⟨n, φ.values, indices⟩ = .ok v := by
  unfold evaluate
  cases Evaluation.run ⟨n, φ.values, indices⟩ <;> simp

theorem exists_bound? (h : n ∈ φ.values.keys ∨ n ∈ indices.keys) :
    ∃ v, φ.bound? indices n = some v ∧ (n, v) ∈ φ.bindings indices := by
  unfold bound? bindings
  cases hindex : indices.get? n with
  | some v => exact ⟨v, rfl, List.mem_append_right _ (Table.mem_entries_of_get? hindex)⟩
  | none =>
      have hkey := h.resolve_right (Table.get?_eq_none_iff.mp hindex)
      cases hvalue : φ.values.get? n with
      | none => exact absurd hkey (Table.get?_eq_none_iff.mp hvalue)
      | some v => exact ⟨v, rfl, List.mem_append_left _ (Table.mem_entries_of_get? hvalue)⟩

end Formula

namespace Action

/-- Every value that was added has its one place among the values. -/
structure Recorded (calls : List (String × String)) (s : Session) : Prop where
  distinct : s.formula.values.keys.Nodup
  kept : ∀ call ∈ calls, call.1 ∈ s.formula.values.keys

theorem addValue_records (calls : List (String × String)) (name expression : String) :
    Leads (Recorded calls) (addValue name expression)
      (fun _ => Recorded (calls ++ [(name, expression)])) (fun _ => True) := by
  have hread : Leads (Recorded calls) (evaluate expression) (fun _ => Recorded calls)
      (fun _ => True) :=
    Leads.bind_formula fun φ => Leads.lift (fun _ _ _ hs => hs.2) fun _ _ => trivial
  refine Leads.bind hread fun value => Leads.update fun s hs => ⟨?_, fun call hcall => ?_⟩
  · exact Table.nodup_keys_put hs.distinct name value
  · rcases List.mem_append.mp hcall with hcall | hcall
    · exact Table.mem_keys_put_of_mem (hs.kept call hcall)
    · rw [List.mem_singleton.mp hcall]
      exact Table.mem_keys_put_self

/-- Values have been added to a formula that had none, and they and the indices are of the kinds
that parameters have. A name bound among them has its value exactly if the evaluation does not use
the name itself and no other value is brought into scope under it later on; the only other way is
to ask for the names of all bindings, with just this value. It is enough that no other name has the
same canonical form. All this is so without texts among the values: a text that spells an unknown
name makes every evaluation fail. -/
theorem evaluate_bound_name {calls : List (String × String)} {s t : Session} {indices : Valuation}
    {n : String} (fresh : s.formula.values = {})
    (added : calls.forM (fun call => addValue call.1 call.2) s = .ok () t)
    (distinct : indices.keys.Nodup)
    (declared : ∀ b ∈ t.formula.bindings indices, Evaluation.isDeclared b = true)
    (known : n ∈ calls.map Prod.fst ∨ n ∈ indices.keys) :
    (∃ v, t.formula.bound? indices n = some v ∧
      ((∀ b ∈ t.formula.bindings indices, b.2.isText = false) →
        (t.formula.evaluate n indices = .ok v ↔
          (Token.canonical n ∉ Evaluation.ownNames ∧
            Evaluation.latest (t.formula.bindings indices) (Token.canonical n) = some v) ∨
          (Token.canonical n = "variables" ∧
            v = .list ((t.formula.bindings indices).map fun b => .str b.1))) ∧
        (Token.canonical n ∉ Evaluation.ownNames →
          (∀ b ∈ t.formula.bindings indices, Token.canonical b.1 = Token.canonical n → b.1 = n) →
          t.formula.evaluate n indices = .ok v))) ∧
      ∀ before m text after, t.formula.bindings indices = before ++ (m, .str text) :: after →
        (∀ b ∈ before, b.2.isText = false) → Token.isName text = true →
        Evaluation.Unknown before (Token.canonical text) →
        t.formula.evaluate n indices =
          .error (.evaluation (.unassignable (m ++ " = " ++ text))) := by
  have hstart : Recorded [] s := by
    refine ⟨?_, fun call hcall => absurd hcall List.not_mem_nil⟩
    rw [fresh]
    exact List.Pairwise.nil
  have hrecorded : Recorded calls t :=
    (Leads.forM calls (fun seen call _ => addValue_records seen call.1 call.2) []).of_ok hstart
      added
  have hkey : n ∈ t.formula.values.keys ∨ n ∈ indices.keys := by
    refine known.imp_left fun hcall => ?_
    obtain ⟨call, hmem, rfl⟩ := List.mem_map.mp hcall
    exact hrecorded.kept call hmem
  obtain ⟨v, hbound, hmem⟩ := Formula.exists_bound? hkey
  refine ⟨⟨v, hbound, fun htext => ?_⟩, ?_⟩
  · have hiff := Evaluation.run_eq_ok_iff (e := ⟨n, t.formula.values, indices⟩) declared htext hmem
    rw [← Formula.evaluate_eq_ok_iff] at hiff
    refine ⟨hiff, fun hown halone => hiff.mpr (.inl ⟨hown, ?_⟩)⟩
    have hlatest := Evaluation.latest_bindings (e := ⟨n, t.formula.values, indices⟩)
      hrecorded.distinct distinct halone
    exact hlatest.trans hbound
  · intro before m text after hsplit htext hname hunknown
    rw [hsplit, List.forall_mem_append, List.forall_mem_cons] at declared
    have hrun := Evaluation.run_unknown (e := ⟨n, t.formula.values, indices⟩) hsplit declared.1
      htext (Evaluation.isName_of_isDeclared declared.2.1) hname hunknown
    unfold Formula.evaluate
    rw [hrun]
    rfl

/-- A number is found under its name, next to an index with a list. -/
theorem evaluate_bound_name_number :
    ∃ t : Session, [("n", "3")].forM (fun call => addValue call.1 call.2) {} = .ok () t ∧
      t.formula.evaluate "n" ⟨[("w", .list [.int (-1), .str "a b"])]⟩ = .ok (.int 3) := by
  have hadded : ∃ t : Session, [("n", "3")].forM (fun call => addValue call.1 call.2) {} =
      .ok () t ∧ t.formula.values = ⟨[("n", .int 3)]⟩ := ⟨_, rfl, rfl⟩
  obtain ⟨t, hadded, hvalues⟩ := hadded
  have hbindings : t.formula.bindings ⟨[("w", .list [.int (-1), .str "a b"])]⟩ =
      [("n", .int 3), ("w", .list [.int (-1), .str "a b"])] := by
    rw [Formula.bindings, hvalues]
    rfl
  have hbound : t.formula.bound? ⟨[("w", .list [.int (-1), .str "a b"])]⟩ "n" =
      some (.int 3) := by
    rw [Formula.bound?, hvalues]
    rfl
  have hdeclared : ∀ b ∈ t.formula.bindings ⟨[("w", .list [.int (-1), .str "a b"])]⟩,
      Evaluation.isDeclared b = true := by
    rw [hbindings]
    decide +kernel
  obtain ⟨⟨v, hv, hplain⟩, _⟩ := evaluate_bound_name (n := "n") rfl hadded (by decide) hdeclared
    (.inl (by decide))
  rw [hbound] at hv
  cases hv
  refine ⟨t, hadded, (hplain ?_).2 (by decide +kernel) ?_⟩
  · rw [hbindings]
    decide
  · rw [hbindings]
    decide +kernel

/-- The name of the pair in use, a text, and two names with one canonical form. -/
theorem evaluate_misses_bound_values :
    ({ values := ⟨[("p", .int 5)]⟩ } : Formula).evaluate "p" =
        .ok (.tuple [.str "p", .int 5]) ∧
      ({ values := ⟨[("s", .str "abc")]⟩ } : Formula).evaluate "s" =
        .error (.evaluation (.unassignable "s = abc")) ∧
      ({ values := ⟨[("ϕ", .int 1), ("φ", .int 2)]⟩ } : Formula).evaluate "ϕ" =
        .ok (.int 2) := by
  refine ⟨?_, ?_, ?_⟩
  · obtain ⟨b, hb, hrun⟩ := Evaluation.run_own (e := ⟨"p", ⟨[("p", .int 5)]⟩, {}⟩)
      (by decide +kernel) (by decide +kernel) (by decide +kernel) (by simp [Evaluation.bindings])
    simp only [Evaluation.bindings, List.append_nil, List.mem_singleton] at hb
    subst hb
    have hcanonical : Token.canonical "p" = "p" := by decide +kernel
    refine Formula.evaluate_eq_ok_iff.mpr (hrun _ ?_)
    rw [hcanonical]
    rfl
  · have hunknown : Evaluation.Unknown [] (Token.canonical "abc") :=
      ⟨by decide +kernel, fun b hb => absurd hb List.not_mem_nil, fun f => by
        cases f <;> decide +kernel⟩
    have hrun : Evaluation.run ⟨"s", ⟨[("s", .str "abc")]⟩, {}⟩ =
        .error (.unassignable ("s" ++ " = " ++ "abc")) :=
      Evaluation.run_unknown rfl (by decide) (by decide) (by decide +kernel) (by decide +kernel)
        hunknown
    unfold Formula.evaluate
    rw [hrun]
    rfl
  · have hcanonical : Token.canonical "ϕ" = "φ" ∧ Token.canonical "φ" = "φ" := by decide +kernel
    refine Formula.evaluate_eq_ok_iff.mpr (Evaluation.run_bound (by decide +kernel)
      (by decide +kernel) (by decide +kernel) (by decide +kernel) ?_)
    simp [Evaluation.latest, Evaluation.bindings, hcanonical]

end Action

end QuantFamily
