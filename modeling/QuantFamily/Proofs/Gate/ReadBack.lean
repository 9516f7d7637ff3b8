import Mathlib.Data.Set.Function
import QuantFamily.Proofs.Gate.Heading

/-!
# Circuits read back

Gate lines are read in the order in which gates are evaluated, and every gate that is read has the
value that it is evaluated to. Since the gates of a formula are evaluated to the meanings of its
blocks, what is read from the text of a formula has the meaning of its matrix, under the same
quantifiers over variables that are numbered anew.
-/

namespace QuantFamily

open Circuit (Document Scope)
open Circuit.Reader

/-! ## Gate lines -/

/-- A word with a meaning is the kind of a gate, and the gate has this meaning. -/
theorem ofWord?_of_wordValue? {word : String} {values : List Bool} {v : Bool}
    (h : wordValue? word values = some v) (number : Nat) {args : List Circuit}
    (hlength : args.length = values.length) :
    checkKind number word values.length = .ok () ∧ ∃ c, Circuit.ofWord? word args = some c ∧
      c ≠ .lit 0 ∧ ∀ β, wordValue? word (args.map (Circuit.value β)) = some (c.value β) := by
  unfold wordValue? at h
  split at h
  · exact ⟨rfl, .and args, rfl, by simp, fun β => by simp [wordValue?, Function.comp_def]⟩
  · exact ⟨rfl, .or args, rfl, by simp, fun β => by simp [wordValue?, Function.comp_def]⟩
  · obtain ⟨a, b, rfl⟩ := List.length_eq_two.mp hlength
    exact ⟨rfl, .xor a b, rfl, by simp, fun β => by simp [wordValue?]⟩
  · obtain ⟨a, b, c, rfl⟩ := List.length_eq_three.mp hlength
    exact ⟨rfl, .ite a b c, rfl, by simp, fun β => by simp [wordValue?]⟩
  · cases h

/-- Assignments that agree on variables and their numbers. -/
def Carries (numbers : Table String Int) (inputs : List Id) (α β : Id → Bool) : Prop :=
  ∀ x ∈ inputs, ∀ k, numbers.get? (Text.showInt x) = some k → β k = α x

/-- A circuit over the numbers has the value that is found after evaluating some gates. -/
def Follows (numbers : Table String Int) (inputs : List Id) (done : List Gate) (c : Circuit)
    (found : (Id → Bool) → Bool) : Prop :=
  ∀ α β env, Carries numbers inputs α β → evaluate? done α = some env → c.value β = found env

/-- What is known after some gates: the inputs have numbers, and every gate has a circuit with the
value of the gate. -/
structure Computes (known : Known) (inputs : List Id) (done : List Gate) : Prop where
  input : ∀ x ∈ inputs, ∃ k : Int, known.vars.get? (Text.showInt x) = some k ∧ 1 ≤ k
  only : ∀ name ∈ known.vars.keys, ∃ x ∈ inputs, name = Text.showInt x
  gate : ∀ g ∈ done, ∃ c, known.gates.get? (Text.showInt g.id) = some c ∧ c ≠ .lit 0 ∧
    Follows known.vars inputs done c fun env => env g.id
  names : ∀ name ∈ known.gates.keys, ∃ g ∈ done, name = Text.showInt g.id

section Computes

variable {known : Known} {inputs : List Id} {done : List Gate} {g : Gate}

theorem Computes.find (h : Computes known inputs done) (sequential : Sequential inputs done)
    {id : Id} (hnonneg : (0 : Int) ≤ id) (hid : id ∈ inputs ∨ id ∈ done.map Gate.id) :
    ∃ c, (∀ report, known.find report (Text.showInt id).toList = .ok c) ∧ c ≠ .lit 0 ∧
      Follows known.vars inputs done c fun env => env id := by
  have hname := isName_showInt hnonneg
  rcases hid with hinput | hgate
  · obtain ⟨k, hk, hpos⟩ := h.input id hinput
    refine ⟨.lit k, find_var hname hk, by simp; omega, fun α β env hcarries heval => ?_⟩
    have hapart : id ∉ done.map Gate.id := fun hmem => by
      obtain ⟨g, hg, rfl⟩ := List.mem_map.mp hmem
      exact sequential.apart g hg hinput
    show Circuit.value β (.lit k) = env id
    rw [Circuit.value_lit, literalValue_of_nonneg (by omega), hcarries id hinput k hk,
      evaluate?_of_not_mem heval hapart]
  · obtain ⟨g, hg, rfl⟩ := List.mem_map.mp hgate
    obtain ⟨c, hc, hne, hvalue⟩ := h.gate g hg
    have hvar : known.vars.get? (Text.showInt g.id) = none := by
      refine Table.get?_eq_none_iff.mpr fun hmem => ?_
      obtain ⟨x, hx, hname⟩ := h.only _ hmem
      exact sequential.apart g hg (Text.showInt_injective hname ▸ hx)
    exact ⟨c, find_gate hname hvar hc, hne, hvalue⟩

theorem Computes.literal (h : Computes known inputs done) (sequential : Sequential inputs done)
    (report inner : Circuit.LineFault → Circuit.Fault) {e : Int}
    (he : (e.natAbs : Int) ∈ inputs ∨ (e.natAbs : Int) ∈ done.map Gate.id) :
    ∃ c, known.literal report inner (Text.showInt e).toList = .ok c ∧
      Follows known.vars inputs done c fun env => literalValue env e := by
  obtain ⟨c, hfind, hne, hvalue⟩ := h.find sequential (Int.natCast_nonneg e.natAbs) he
  refine ⟨_, literal_showInt hfind report inner, fun α β env hcarries heval => ?_⟩
  have hsize := hvalue α β env hcarries heval
  change _ = literalValue env e
  unfold literalValue
  by_cases hneg : e < 0
  · rw [if_pos hneg, if_pos hneg, Circuit.value_negate _ hne, hsize]
  · rw [if_neg hneg, if_neg hneg, hsize, Int.natAbs_of_nonneg (by omega)]

theorem not_comment_line (g : Gate) : ((Text.trim g.line.toList).isEmpty ||
    decide ((Text.trim g.line.toList).head? = some '#')) = false := by
  obtain ⟨first, others, hfirst⟩ := List.exists_cons_of_ne_nil (Text.showInt_ne_nil g.id)
  have hmem : first ∈ (Text.showInt g.id).toList := hfirst ▸ List.mem_cons_self
  have hhash : first ≠ '#' := by
    rintro rfl
    exact Text.not_mem_showInt (by decide) (by decide) g.id hmem
  have htext : g.line.toList = first :: ((others ++ ' ' :: '=' :: ' ' ::
      (g.word.toList ++ '(' :: (commaList g.operands).toList)) ++ [')']) := by
    rw [Gate.toList_line, hfirst]
    simp
  rw [htext, Text.trim_of_ends (Text.isBlank_eq_false_of_mem_showInt hmem) (by decide)]
  simp [hhash]

theorem Computes.fresh (h : Computes known inputs done)
    (sequential : Sequential inputs (done ++ [g])) : Text.showInt g.id ∉ known.gates.keys := by
  intro hmem
  obtain ⟨g', hg', hname⟩ := h.names _ hmem
  have honce := sequential.once
  rw [List.map_append, List.nodup_append] at honce
  exact honce.2.2 g'.id (List.mem_map_of_mem hg') g.id (by simp) (Text.showInt_injective hname).symm

/-- The line of a further gate is read as a circuit with the value of the gate. -/
theorem Computes.readsAs (h : Computes known inputs done)
    (sequential : Sequential inputs (done ++ [g])) (legible : g.Legible)
    (evaluable : ∃ α env, evaluate? (done ++ [g]) α = some env) (number : Nat) :
    ∃ args c, ReadsAs known number g.line.toList (Text.showInt g.id) g.word
        (commaList g.operands).toList args c ∧ c ≠ .lit 0 ∧
      Follows known.vars inputs (done ++ [g]) c fun env => env g.id := by
  have hoperand : ∀ e ∈ g.operands, ∃ c,
      known.literal (.line number) (.line number) (Text.showInt e).toList = .ok c ∧
        Follows known.vars inputs done c fun env => literalValue env e := fun e he =>
    h.literal sequential.of_append _ _ (sequential.earlier done g [] rfl e he)
  have : Nonempty Circuit := ⟨.const true⟩
  choose! arg harg using hoperand
  obtain ⟨_, _, heval⟩ := evaluable
  obtain ⟨_, _, -, hv, -⟩ := exists_of_evaluate?_snoc heval
  obtain ⟨hkind, c, hc, hne, hvalue⟩ :=
    ofWord?_of_wordValue? hv number (show (g.operands.map arg).length = _ by simp)
  refine ⟨g.operands.map arg, c, ⟨Gate.gateParts?_line legible, ?_, ?_,
    Table.contains_eq_false_iff.mpr (h.fresh sequential), ?_, hc⟩, hne, ?_⟩
  · intro hmem
    rcases mem_commaList hmem with heq | heq | heq | heq <;> cases heq
  · rw [items_commaList, List.length_map]
    simpa using hkind
  · rw [items_commaList, List.mapM_map]
    exact mapM_ok_of_forall fun e he => (harg e he).1
  · intro α β env hcarries heval
    obtain ⟨before, v, hbefore, hv, rfl⟩ := exists_of_evaluate?_snoc heval
    have hargs : (g.operands.map arg).map (Circuit.value β) =
        g.operands.map (literalValue before) := by
      rw [List.map_map]
      exact List.map_congr_left fun e he => (harg e he).2 α β before hcarries hbefore
    have hsame := hvalue β
    rw [hargs, ← Gate.value?, hv, Option.some.injEq] at hsame
    show c.value β = Function.update before g.id v g.id
    rw [Function.update_self, hsame]

theorem Computes.define (h : Computes known inputs done)
    (sequential : Sequential inputs (done ++ [g])) {c : Circuit} (hne : c ≠ .lit 0)
    (hvalue : Follows known.vars inputs (done ++ [g]) c fun env => env g.id) :
    Computes (known.define (Text.showInt g.id) c) inputs (done ++ [g]) := by
  have hfresh := h.fresh sequential
  refine ⟨h.input, h.only, fun g' hg' => ?_, fun name hname => ?_⟩
  · rcases List.mem_append.mp hg' with hold | hnew
    · obtain ⟨d, hd, hdne, hdvalue⟩ := h.gate g' hold
      have hid : g'.id ≠ g.id := fun heq => hfresh (heq ▸ Table.mem_keys_of_get? hd)
      refine ⟨d, ?_, hdne, fun α β env hcarries heval => ?_⟩
      · exact Table.get?_put_of_get? c hfresh hd
      · obtain ⟨before, v, hbefore, -, rfl⟩ := exists_of_evaluate?_snoc heval
        show d.value β = Function.update before g.id v g'.id
        rw [Function.update_of_ne hid, hdvalue α β before hcarries hbefore]
    · cases List.mem_singleton.mp hnew
      exact ⟨c, Table.get?_put_self _ _ _, hne, hvalue⟩
  · rcases Table.mem_keys_put.mp hname with hold | rfl
    · obtain ⟨g', hg', hname⟩ := h.names name hold
      exact ⟨g', List.mem_append_left _ hg', hname⟩
    · exact ⟨g, by simp, rfl⟩

theorem Computes.step (h : Computes known inputs done)
    (sequential : Sequential inputs (done ++ [g])) (legible : g.Legible)
    (evaluable : ∃ α env, evaluate? (done ++ [g]) α = some env) (number : Nat) :
    ∃ after, Circuit.Reader.gate known number g.line.toList = .ok after ∧ after.vars = known.vars ∧
      Computes after inputs (done ++ [g]) := by
  obtain ⟨args, c, hreads, hne, hvalue⟩ := h.readsAs sequential legible evaluable number
  exact ⟨_, gate_of_readsAs hreads, rfl, h.define sequential hne hvalue⟩

theorem Computes.run {gates : List Gate} {lines : List (Nat × List Char)}
    (h : Computes known inputs done) (sequential : Sequential inputs (done ++ gates))
    (legible : ∀ g ∈ gates, g.Legible) (evaluable : ∃ α env, evaluate? (done ++ gates) α = some env)
    (hlines : lines.map Prod.snd = gates.map fun g => g.line.toList) :
    ∃ after, Circuit.Reader.gates lines known = .ok after ∧ after.vars = known.vars ∧
      Computes after inputs (done ++ gates) := by
  induction gates generalizing known done lines with
  | nil =>
      rw [List.map_nil, List.map_eq_nil_iff] at hlines
      subst hlines
      exact ⟨known, rfl, rfl, by simpa using h⟩
  | cons g gates ih =>
      obtain ⟨⟨number, line⟩, rest, rfl, hline, hrest⟩ := List.map_eq_cons_iff.mp hlines
      dsimp only at hline
      rw [List.forall_mem_cons] at legible
      rw [List.append_cons] at sequential evaluable ⊢
      obtain ⟨α, env, heval⟩ := evaluable
      obtain ⟨mid, hmid, -⟩ := exists_of_evaluate?_append heval
      obtain ⟨after, hgate, hvars, hafter⟩ :=
        h.step sequential.of_append legible.1 ⟨α, mid, hmid⟩ number
      obtain ⟨final, hrun, hfinal, hcomputes⟩ :=
        ih hafter sequential legible.2 ⟨α, env, heval⟩ hrest
      refine ⟨final, ?_, hfinal.trans hvars, hcomputes⟩
      rw [hline, Circuit.Reader.gates, not_comment_line, hgate]
      exact hrun

end Computes

/-! ## Whole texts -/

section Texts

variable {scopes : List (Quantifier × List Int)} {matrix : Int} {gates : List Gate}

/-- The variables of the quantifiers get the numbers from one to their count, and those that are
not greater keep theirs. -/
theorem allot_quantified {xs : List Int} (hpos : ∀ x ∈ xs, 0 < x) (hdistinct : xs.Nodup) :
    ∃ numbers ρ, allot (xs.map Text.showInt) = .ok numbers ∧
      (∀ x ∈ xs, numbers.get? (Text.showInt x) = some (ρ x)) ∧
      (∀ name ∈ numbers.keys, ∃ x ∈ xs, name = Text.showInt x) ∧
      Set.BijOn ρ {x | x ∈ xs} {k | 1 ≤ k ∧ k ≤ (xs.length : Int)} ∧
      ∀ x ∈ xs, x ≤ xs.length → ρ x = x := by
  obtain ⟨numbers, hallot, hkeys⟩ : ∃ numbers, allot (xs.map Text.showInt) = .ok numbers ∧
      numbers.keys ⊆ xs.map Text.showInt := by
    refine allot_ok ?_ ?_
    · intro name hname k hk
      obtain ⟨x, hx, rfl⟩ := List.mem_map.mp hname
      rw [Text.readInt?_showInt] at hk
      exact Option.some.inj hk ▸ hpos x hx
    · refine List.pairwise_map.mpr (hdistinct.imp fun {x y} hne k hx hy => hne ?_)
      rw [Text.readInt?_showInt] at hx hy
      exact Option.some.inj (hx.trans hy.symm)
  obtain ⟨hall, hrange, hinjective, hkept⟩ := numbers_of_allot hallot
  rw [List.length_map] at hrange hkept
  let ρ : Int → Int := fun x => (numbers.get? (Text.showInt x)).getD 0
  have hρ : ∀ x ∈ xs, numbers.get? (Text.showInt x) = some (ρ x) := by
    intro x hx
    obtain ⟨k, hk⟩ := hall _ (List.mem_map_of_mem hx)
    simp only [ρ, hk, Option.getD_some]
  have hmaps : ∀ x ∈ xs, 1 ≤ ρ x ∧ ρ x ≤ xs.length := fun x hx => hrange _ _ (hρ x hx)
  have hinj : ∀ x ∈ xs, ∀ y ∈ xs, ρ x = ρ y → x = y := fun x hx y hy heq =>
    Text.showInt_injective (hinjective _ _ _ (hρ x hx) (heq ▸ hρ y hy))
  refine ⟨numbers, ρ, hallot, hρ, fun name hname => ?_, ⟨hmaps, fun x hx y hy => hinj x hx y hy, ?_⟩,
    fun x hx hle => ?_⟩
  · obtain ⟨x, hx, heq⟩ := List.mem_map.mp (hkeys hname)
    exact ⟨x, hx, heq.symm⟩
  · rintro k ⟨hlow, hhigh⟩
    have hnodup : (xs.map ρ).Nodup := hdistinct.map_on hinj
    have hmem : k ∈ xs.map ρ := by
      refine Circuit.mem_of_nodup_of_bounds hnodup (fun v hv => ?_) hlow (by simpa using hhigh)
      obtain ⟨x, hx, rfl⟩ := List.mem_map.mp hv
      simpa using hmaps x hx
    exact List.mem_map.mp hmem
  · have hkeep := hkept _ (List.mem_map_of_mem hx) x (Text.readInt?_showInt x) hle
    exact Option.some.inj ((hρ x hx).symm.trans hkeep)

theorem scopes_of_numbers {numbers : Table String Int} {ρ : Int → Int}
    (hρ : ∀ x ∈ scopes.flatMap Prod.snd, numbers.get? (Text.showInt x) = some (ρ x)) :
    (scopes.map fun scope => (scope.1.binder, scope.2.map Text.showInt)).map
      (fun scope => { binder := scope.1, vars := scope.2.filterMap numbers.get? : Scope }) =
        scopes.map fun scope => ⟨scope.1.binder, scope.2.map ρ⟩ := by
  rw [List.map_map]
  refine List.map_congr_left fun scope hscope => ?_
  have hvar : ∀ x ∈ scope.2, numbers.get? (Text.showInt x) = some (ρ x) := fun x hx =>
    hρ x (List.mem_flatMap.mpr ⟨scope, hscope, hx⟩)
  have hvars : (scope.2.map Text.showInt).filterMap numbers.get? = scope.2.map ρ := by
    rw [List.filterMap_map, ← List.filterMap_eq_map]
    exact List.filterMap_congr hvar
  simp only [Function.comp, hvars]

/-- A circuit text is read, its quantifiers over the numbers of their variables, and its output has
the value that the output gate is evaluated to. -/
theorem read_circuit_text (heedNames : Bool) (filled : ∀ scope ∈ scopes, scope.2 ≠ [])
    (positive : ∀ scope ∈ scopes, ∀ x ∈ scope.2, 0 < x)
    (distinct : (scopes.flatMap Prod.snd).Nodup)
    (sequential : Sequential (scopes.flatMap Prod.snd) gates) (legible : ∀ g ∈ gates, g.Legible)
    (evaluable : ∃ α env, evaluate? gates α = some env) (hmatrix : matrix ∈ gates.map Gate.id) :
    ∃ document ρ, Document.read heedNames (circuitHeader ++ Formula.renderScopes scopes ++
        outputLine (Text.showInt matrix) ++ renderGates gates) = .ok document ∧
      document.scopes = scopes.map (fun scope => ⟨scope.1.binder, scope.2.map ρ⟩) ∧
      Set.BijOn ρ {x | x ∈ scopes.flatMap Prod.snd}
        {k | 1 ≤ k ∧ k ≤ ((scopes.flatMap Prod.snd).length : Int)} ∧
      (∀ x ∈ scopes.flatMap Prod.snd, x ≤ (scopes.flatMap Prod.snd).length → ρ x = x) ∧
      ∀ α β env, (∀ x ∈ scopes.flatMap Prod.snd, β (ρ x) = α x) → evaluate? gates α = some env →
        document.output.value β = env matrix := by
  have hpos : ∀ x ∈ scopes.flatMap Prod.snd, 0 < x := by
    intro x hx
    obtain ⟨scope, hscope, hx⟩ := List.mem_flatMap.mp hx
    exact positive scope hscope x hx
  have hnonneg : 0 ≤ matrix := by
    obtain ⟨g, hg, rfl⟩ := List.mem_map.mp hmatrix
    exact (legible g hg).nonneg
  obtain ⟨last, lines, hlines, hread⟩ := read_eq_readAfter heedNames matrix legible filled
  obtain ⟨rest, hrest, hheading⟩ := heading_lines last [] positive hlines
  obtain ⟨numbers, ρ, hallot, hρ, honly, hbij, hkept⟩ := allot_quantified hpos distinct
  have hstart : Computes { vars := numbers } (scopes.flatMap Prod.snd) [] := by
    refine ⟨fun x hx => ⟨ρ x, hρ x hx, (hbij.mapsTo hx).1⟩, honly, by simp, ?_⟩
    intro name hname
    cases hname
  obtain ⟨known, hgates, hvars, hcomputes⟩ := hstart.run sequential legible evaluable hrest
  have hsize : (matrix.natAbs : Int) = matrix := Int.natAbs_of_nonneg hnonneg
  obtain ⟨output, houtput, hvalue⟩ := hcomputes.literal sequential .outputLookup (.line last)
    (hsize.symm ▸ Or.inr hmatrix)
  have hnames : (scopes.map fun scope => (scope.1.binder, scope.2.map Text.showInt)).flatMap
      (·.2) = (scopes.flatMap Prod.snd).map Text.showInt := by
    rw [List.flatMap_map, List.map_flatMap]
  refine ⟨⟨_, output, namesByNumber numbers, known.gateNames⟩, ρ, ?_, scopes_of_numbers hρ, hbij, hkept,
    ?_⟩
  · rw [hread, Document.readAfter, hheading]
    simp only [List.nil_append, hnames, hallot, hgates, houtput, bind, Except.bind]
    rfl
  · intro α β env hcarries heval
    have hcarried : Carries known.vars (scopes.flatMap Prod.snd) α β := by
      intro x hx k hk
      rw [hvars, hρ x hx] at hk
      exact Option.some.inj hk ▸ hcarries x hx
    exact (hvalue α β env hcarried heval).trans (literalValue_of_nonneg hnonneg)

end Texts

namespace Action

/-- The text of a circuit is read, its quantifiers as they are in the formula, over variables that
are numbered anew from one; those whose identifiers are small enough keep them. What is read has the
meaning of the matrix. -/
theorem circuit_text_read_back {s t : Session} {text : String} {quantifiers matrix : Id}
    (built : s.Built .full) (run : generateCircuit .full s = .ok text t)
    (first : s.formula.outputPart 0 = .ok quantifiers)
    (second : s.formula.outputPart 1 = .ok matrix)
    (marks : ∀ b, s.formula.PrefixBlock quantifiers b → ∀ o, b.mark ≠ some (.operator o))
    (binds : ∀ scopes, s.formula.Quantifies quantifiers scopes → s.formula.Binds matrix scopes)
    (operators : ∀ b, s.formula.Reachable matrix b → ∀ q, b.mark ≠ some (.quantifier q))
    (heedNames : Bool) :
    ∃ scopes document ρ, s.formula.Quantifies quantifiers scopes ∧
      Document.read heedNames text = .ok document ∧
      document.scopes = scopes.map (fun scope => ⟨scope.1.binder, scope.2.map ρ⟩) ∧
      Set.BijOn ρ {x | x ∈ scopes.flatMap Prod.snd}
        {k | 1 ≤ k ∧ k ≤ ((scopes.flatMap Prod.snd).length : Int)} ∧
      (∀ x ∈ scopes.flatMap Prod.snd, x ≤ (scopes.flatMap Prod.snd).length → ρ x = x) ∧
      ∀ α β, (∀ x ∈ scopes.flatMap Prod.snd, β (ρ x) = α x) →
        ∀ v, Means s.formula α matrix v ↔ document.output.value β = v := by
  have hφ := built.wellFormed
  obtain ⟨root, log, hdraws⟩ :=
    (generateCircuit_log hφ built.complete built.blank).of_ok rfl run
  cases Except.ok.inj (hdraws.second.symm.trans second)
  obtain ⟨c, hwritten⟩ := hdraws.written
  obtain ⟨id, block, lines, hfirst, hblock, hlines, rfl⟩ := hdraws.lines
  cases Except.ok.inj (hfirst.symm.trans first)
  obtain ⟨scopes, hscopes, rfl⟩ :=
    Formula.quantifies_of_quantifierLines (get?_of_contentsOf hblock) marks hlines
  have hbinds := binds scopes hscopes
  have hwithin : scopes.flatMap Prod.snd ⊆ s.formula.vars.values := by
    intro x hx
    obtain ⟨scope, hscope, hmem⟩ := List.mem_flatMap.mp hx
    have hvar := hscopes.mem_vars hx
    rwa [Int.natAbs_of_nonneg (Int.le_of_lt (hbinds.positive scope hscope x hmem))] at hvar
  have heval := hwritten.evaluate hφ fun entry hentry =>
    operators entry.1 ((hdraws.mem_log_iff hφ entry.1).mp (List.mem_map_of_mem hentry))
  have hevaluable : ∃ α env, evaluate? log.gates α = some env := by
    obtain ⟨env, henv, -⟩ := heval fun _ => false
    exact ⟨_, env, henv⟩
  obtain ⟨document, ρ, hread, hdocument, hbij, hkept, hvalue⟩ := read_circuit_text heedNames
    hbinds.filled hbinds.positive hbinds.distinct (hdraws.sequential hφ hwithin hbinds.covers)
    (fun g hg => hwritten.legible hφ hg) hevaluable (hwritten.mem_gates hdraws.root)
  refine ⟨scopes, document, ρ, hscopes, hread, hdocument, hbij, hkept, fun α β hcarries v => ?_⟩
  obtain ⟨env, henv, -, hmeans⟩ := heval α
  rw [hvalue α β env hcarries henv]
  constructor
  · exact fun hv => (hmeans _ hdraws.root).unique hφ hv
  · rintro rfl
    exact hmeans _ hdraws.root

/-- A prefix of two quantifiers over variables after one that is not used. -/
def listedPrefix : List Language.Statement :=
  [.vars "u" [] [], .vars "x" [] [], .vars "y" [] [],
   .blocks [⟨"P", [], [.ref false "x" []]⟩] [] none,
   .blocks [⟨"Q", [], [.ref false "y" []]⟩] [] none,
   .blocks [⟨"R", [], [.ref false "P" [], .ref false "Q" []]⟩] [] none,
   .blocks [⟨"M", [], [.ref false "x" [], .ref true "y" []]⟩] [] none,
   .blocks [⟨"F", [], [.ref false "R" [], .ref false "M" []]⟩] [] none,
   .mark [("P", [])] "E", .mark [("Q", [])] "A", .mark [("M", [])] "<=>", .output "F" []]

def listedText : String :=
  "#QCIR-G14\nexists(2)\nforall(3)\noutput(7)\n9 = or(-2, -3)\n10 = or(3, 2)\n7 = and(9, 10)\n"

def listedSession : Session :=
  (perform (listedPrefix.forM (Language.Statement.perform .full false)) {}).2

theorem listedSession_built : listedSession.Built .full :=
  ⟨false, listedPrefix, {}, ok_of_perform (by decide +kernel)⟩

theorem listedSession_run : ∃ t, generateCircuit .full listedSession = .ok listedText t :=
  ⟨_, ok_of_perform (by decide +kernel)⟩

theorem listedSession_quantifies : listedSession.formula.Quantifies 6
    [(.existential, [2]), (.universal, [3])] := by
  have hvars : ∀ x ∈ ([2, 3] : List Int),
      (x.natAbs : Int) ∈ listedSession.formula.vars.values := by decide +kernel
  have hleft : listedSession.formula.contents.get? 4 =
      some ⟨"P( )", 4, [2], none, some (.quantifier .existential)⟩ := by decide +kernel
  have hright : listedSession.formula.contents.get? 5 =
      some ⟨"Q( )", 5, [3], none, some (.quantifier .universal)⟩ := by decide +kernel
  have hlist : listedSession.formula.contents.get? 6 = some ⟨"R( )", 6, [4, 5], none, none⟩ := by
    decide +kernel
  refine .list (fun e => if e = 4 then [(.existential, [2])] else [(.universal, [3])]) hlist rfl ?_
  simp only [List.mem_cons, List.not_mem_nil, or_false, forall_eq_or_imp, forall_eq]
  constructor
  · exact .scope (fun e => [e]) hleft rfl (by simpa using .variable (hvars 2 (by simp)))
  · exact .scope (fun e => [e]) hright rfl (by simpa using .variable (hvars 3 (by simp)))

theorem circuit_text_read_back_listed :
    listedSession.Built .full ∧ (∃ t, generateCircuit .full listedSession = .ok listedText t) ∧
      listedSession.formula.outputPart 0 = .ok 6 ∧ listedSession.formula.outputPart 1 = .ok 7 ∧
      (∀ b, listedSession.formula.PrefixBlock 6 b → ∀ o, b.mark ≠ some (.operator o)) ∧
      (∀ scopes, listedSession.formula.Quantifies 6 scopes →
        listedSession.formula.Binds 7 scopes) ∧
      (∀ b, listedSession.formula.Reachable 7 b → ∀ q, b.mark ≠ some (.quantifier q)) ∧
      ∃ document, Document.read true listedText = .ok document ∧
        document.scopes = [⟨.exists, [2]⟩, ⟨.forall, [1]⟩] ∧
        ∀ α β : Id → Bool, β 2 = α 2 → β 1 = α 3 →
          ∀ v, Means listedSession.formula α 7 v ↔ document.output.value β = v := by
  obtain ⟨t, run⟩ := listedSession_run
  have hφ := listedSession_built.wellFormed
  have first : listedSession.formula.outputPart 0 = .ok 6 := ok_of_toOption (by decide +kernel)
  have second : listedSession.formula.outputPart 1 = .ok 7 := ok_of_toOption (by decide +kernel)
  have marks : ∀ b, listedSession.formula.PrefixBlock 6 b → ∀ o, b.mark ≠ some (.operator o) := by
    have closed : ∀ id ∈ [6, 5, 4], ∀ b ∈ listedSession.formula.contents.get? id,
        b.mark ∈ [none, some (.quantifier .existential), some (.quantifier .universal)] ∧
          (b.mark = none → ∀ e ∈ b.body, e ∈ [6, 5, 4]) := by
      decide +kernel
    have inside : ∀ id b, listedSession.formula.PrefixBlock id b → id ∈ [6, 5, 4] →
        b.mark ∈ [none, some (.quantifier .existential), some (.quantifier .universal)] := by
      intro id b h
      induction h with
      | first held => exact fun hid => (closed _ hid _ held).1
      | listed held mark brick inner ih => exact fun hid => ih ((closed _ hid _ held).2 mark _ brick)
    intro b hb o hmark
    have hmem := inside 6 b hb (by simp)
    simp [hmark] at hmem
  have closed : ∀ id ∈ [7, 3, 2], ∀ b ∈ listedSession.formula.contents.get? id,
      b.mark = some (.operator .iff) ∧ ∀ e ∈ b.body, (e.natAbs : Int) ∈ [7, 3, 2] := by
    decide +kernel
  have hreaches : ∀ id, Relation.ReflTransGen listedSession.formula.Refers 7 id →
      id ∈ [7, 3, 2] := fun id h =>
    Formula.mem_of_reaches [7, 3, 2] (fun id hid b hb => (closed id hid b hb).2) (by simp) h
  have binds : ∀ scopes, listedSession.formula.Quantifies 6 scopes →
      listedSession.formula.Binds 7 scopes := by
    intro scopes hscopes
    rw [hscopes.unique hφ listedSession_quantifies]
    refine ⟨by decide, by decide, by decide, fun x hx hreach => ?_⟩
    have hvars : ∀ x ∈ listedSession.formula.vars.values, x ∈ [7, 3, 2] → x ∈ [2, 3] := by
      decide +kernel
    exact hvars x hx (hreaches x hreach)
  have operators : ∀ b, listedSession.formula.Reachable 7 b → ∀ q,
      b.mark ≠ some (.quantifier q) := by
    rintro b ⟨held, hreach⟩ q hmark
    have hoperator := (closed b.id (hreaches _ hreach) b held).1
    simp [hmark] at hoperator
  obtain ⟨scopes, document, ρ, hscopes, hread, hdocument, hbij, hkept, hmeans⟩ :=
    circuit_text_read_back listedSession_built run first second marks binds operators true
  cases hscopes.unique hφ listedSession_quantifies
  have htwo : ρ 2 = 2 := hkept 2 (by decide) (by decide)
  have hthree : ρ 3 = 1 := by
    have hrange := hbij.mapsTo (show (3 : Int) ∈ _ by simp)
    have hne : ρ 3 ≠ ρ 2 := fun heq => absurd (hbij.injOn (by simp) (by simp) heq) (by decide)
    simp only [Set.mem_ofPred_eq, List.flatMap_cons, List.flatMap_nil] at hrange
    rw [htwo] at hne
    simp at hrange
    omega
  refine ⟨listedSession_built, ⟨t, run⟩, first, second, marks, binds, operators, document, hread,
    ?_, fun α β hx hy => hmeans α β ?_⟩
  · simpa [htwo, hthree, Quantifier.binder] using hdocument
  · simp [htwo, hthree, hx, hy]

end Action

end QuantFamily
