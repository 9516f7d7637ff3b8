import QuantFamily.Proofs.Circuit.Complete
import QuantFamily.Proofs.Gate.Meaning
import QuantFamily.Proofs.Gate.Nesting
import QuantFamily.Proofs.Output.Draft

/-!
# Clause texts of conjunctions

The clauses of a clause text are the operands of the gates with `or` in their word, and nothing
else of the circuit is in the text. This is the circuit again if it is a conjunction of clauses:
each gate an `or` of variables, perhaps negated, or an `and` of other gates. Then an assignment
satisfies all clauses if and only if it makes the output gate true. In other circuits conjuncts are
lost, or gates are read as what they are not.
-/

namespace QuantFamily

open Circuit (Scope Sheet ClausesHold scope? clause? body? counts? zeroEnded? scopeText)

/-! ## Clause texts read -/

/-- What the lines of a clause text say depends on their words only. -/
theorem body?_congr {lines others : List (List Char)}
    (h : lines.map Text.words = others.map Text.words) : body? lines = body? others := by
  have hclauses : ∀ {lines others : List (List Char)},
      lines.map Text.words = others.map Text.words → lines.mapM clause? = others.mapM clause? := by
    intro lines others h
    have hwords : ∀ lines : List (List Char), lines.mapM clause? =
        (lines.map Text.words).mapM zeroEnded? := fun lines => List.mapM_map.symm
    rw [hwords, hwords, h]
  induction lines generalizing others with
  | nil =>
      rw [List.map_nil, eq_comm, List.map_eq_nil_iff] at h
      rw [h]
  | cons line lines ih =>
      obtain ⟨other, others, rfl, hline, hlines⟩ := List.map_eq_cons_iff.mp h.symm
      have hscope : scope? line = scope? other := by rw [scope?, scope?, hline]
      rw [body?, body?, hscope, ih hlines.symm, hclauses h]

theorem words_append_spaced (text : List Char) (ns : List Int) :
    Text.words (text ++ (spaced ns).toList) =
      Text.words text ++ ns.map fun n => (Text.showInt n).toList := by
  induction ns generalizing text with
  | nil => simp [spaced]
  | cons n ns ih =>
      have hcons : text ++ (spaced (n :: ns)).toList =
          text ++ ' ' :: ((Text.showInt n).toList ++ (spaced ns).toList) := by
        simp [spaced]
      rw [hcons, Text.words_append_cons (by decide), ih, Text.words_showInt]
      rfl

/-- The quantifier block of a run of quantifiers. -/
def runScope : List (Quantifier × List Int) → Scope
  | [] => ⟨.free, []⟩
  | scope :: scopes => ⟨scope.1.binder, (scope :: scopes).flatMap Prod.snd⟩

theorem words_runLine {run : List (Quantifier × List Int)} (hrun : run ≠ []) :
    Text.words (runLine run ++ " 0").toList = Text.words (scopeText (runScope run)).toList := by
  obtain ⟨scope, scopes, rfl⟩ := List.exists_cons_of_ne_nil hrun
  have hline : (runLine (scope :: scopes) ++ " 0").toList = (scope.1.sign.toList ++
      (spaced ((scope :: scopes).flatMap Prod.snd)).toList) ++ ' ' :: ['0'] := by
    simp [runLine]
  have hsign : Text.words scope.1.sign.toList =
      [[if scope.1.binder = .exists then 'e' else 'a']] := by
    cases scope.1 <;> decide
  rw [hline, Text.words_append_cons (by decide), words_append_spaced, Circuit.words_scopeText, hsign]
  rfl

theorem words_showInts_zero (clause : List Int) :
    Text.words (Text.showInts " " clause ++ " 0").toList =
      Text.words (Circuit.clauseText clause).toList := by
  have hline : (Text.showInts " " clause ++ " 0").toList =
      (Text.showInts " " clause).toList ++ ' ' :: ['0'] := by
    simp
  rw [hline, Text.words_append_cons (by decide), Text.words_showInts, Circuit.words_clauseText]
  rfl

namespace Formula

variable {φ : Formula} {scopes : List (Quantifier × List Int)} {clauses : List (List Int)}

/-- What a clause text says. -/
def clauseSheet (φ : Formula) (scopes : List (Quantifier × List Int)) (clauses : List (List Int)) :
    Sheet where
  greatest := φ.vars.size
  count := clauses.length
  scopes := (quantifierRuns scopes).map runScope
  clauses := clauses

theorem ofFile?_clauseLines (named : '\n' ∉ φ.name.toList)
    (hscopes : ∀ scope ∈ scopes, ∀ n ∈ scope.2, n ≠ 0)
    (hclauses : ∀ clause ∈ clauses, ∀ n ∈ clause, n ≠ 0) :
    Sheet.ofFile? (String.join ((φ.clauseLines scopes clauses).map (· ++ "\n"))) =
      some (φ.clauseSheet scopes clauses) := by
  have hruns : ∀ run ∈ quantifierRuns scopes, run ≠ [] := fun run hrun =>
    List.ne_nil_of_mem_splitBy hrun
  have hvars : ∀ s ∈ (quantifierRuns scopes).map runScope,
      (s.binder = .exists ∨ s.binder = .forall) ∧ ∀ n ∈ s.vars, n ≠ 0 := by
    intro s hs
    obtain ⟨run, hrun, rfl⟩ := List.mem_map.mp hs
    obtain ⟨scope, others, rfl⟩ := List.exists_cons_of_ne_nil (hruns run hrun)
    refine ⟨by cases h : scope.1 <;> simp [runScope, Quantifier.binder, h], fun n hn => ?_⟩
    obtain ⟨inner, hinner, hn⟩ := List.mem_flatMap.mp hn
    refine hscopes inner ?_ n hn
    rw [← List.flatten_splitBy (fun a b => a.1 == b.1) scopes]
    exact List.mem_flatten_of_mem hrun hinner
  have hbody : body? (((quantifierRuns scopes).map (fun run => runLine run ++ " 0") ++
      clauses.map fun clause => Text.showInts " " clause ++ " 0").map String.toList) =
        some ((quantifierRuns scopes).map runScope, clauses) := by
    rw [← Circuit.body?_texts (fun s hs => (hvars s hs).1) (fun s hs => (hvars s hs).2) hclauses]
    refine body?_congr ?_
    simp only [List.map_append, List.map_map]
    refine congrArg₂ _ (List.map_congr_left fun run hrun => ?_) (List.map_congr_left fun c _ => ?_)
    · exact words_runLine (hruns run hrun)
    · exact words_showInts_zero c
  have hcounts : counts? ("p cnf " ++ Nat.repr φ.vars.size ++ " " ++
      Nat.repr clauses.length).toList = some ((φ.vars.size : Int), (clauses.length : Int)) := by
    rw [← Circuit.counts?_spaces φ.vars.size clauses.length 0, counts?, counts?,
      Text.words_append_spaces]
    have hspace : ("p cnf " ++ Text.showInt φ.vars.size ++ " " ++ Text.showInt clauses.length ++
        " ").toList = ("p cnf " ++ Nat.repr φ.vars.size ++ " " ++
          Nat.repr clauses.length).toList ++ List.replicate 1 ' ' := by
      rw [String.toList_append]
      rfl
    rw [hspace, Text.words_append_spaces]
  unfold Sheet.ofFile?
  rw [lines_clauseLines named, clauseLines, List.map_cons, List.map_cons, List.map_cons,
    List.dropWhile_cons_of_pos (by simp [Text.startsWith, List.isPrefixOf]),
    List.dropWhile_cons_of_pos (by simp [Text.startsWith, List.isPrefixOf]),
    List.dropWhile_cons_of_neg (by simp [Text.startsWith, List.isPrefixOf]), Sheet.ofLines?,
    hcounts, hbody]
  rfl

end Formula

/-! ## Values of gates in order -/

/-- No operand is the last gate. -/
theorem Sequential.operand_ne_last {inputs : List Id} {gates : List Gate} {last g : Gate}
    (h : Sequential inputs (gates ++ [last])) (hg : g ∈ gates ++ [last]) {e : Int}
    (he : e ∈ g.operands) : (e.natAbs : Int) ≠ last.id := by
  intro heq
  obtain ⟨before, after, hsplit⟩ := List.append_of_mem hg
  have hlast : last ∈ g :: after := by
    rcases List.eq_nil_or_concat after with rfl | ⟨front, final, rfl⟩
    · obtain ⟨-, hfinal⟩ := List.append_inj' hsplit rfl
      exact List.mem_singleton.mpr (List.singleton_inj.mp hfinal)
    · rw [List.concat_eq_append, ← List.cons_append, ← List.append_assoc] at hsplit
      obtain ⟨-, hfinal⟩ := List.append_inj' hsplit rfl
      simp [List.singleton_inj.mp hfinal]
  rcases h.earlier before g after hsplit e he with hinput | hearlier
  · exact h.apart last (by simp) (heq ▸ hinput)
  · have honce := h.once
    rw [hsplit, List.map_append] at honce
    rw [heq] at hearlier
    exact (List.nodup_append.mp honce).2.2 _ hearlier _ (List.mem_map_of_mem hlast) rfl

/-- When all gates have been evaluated, each has the value of its operands. -/
theorem Sequential.value?_of_evaluate? {inputs : List Id} {gates : List Gate} {α env : Id → Bool}
    (h : Sequential inputs gates) (heval : evaluate? gates α = some env) {g : Gate}
    (hg : g ∈ gates) : g.value? env = some (env g.id) := by
  induction gates using List.reverseRecOn generalizing env with
  | nil => cases hg
  | append_singleton gates last ih =>
      obtain ⟨before, v, hbefore, hvalue, rfl⟩ := exists_of_evaluate?_snoc heval
      have hkept : g.value? (Function.update before last.id v) = g.value? before := by
        unfold Gate.value?
        rw [List.map_congr_left fun e he => literalValue_update (h.operand_ne_last hg he)]
      rw [hkept]
      rcases List.mem_append.mp hg with hold | hnew
      · have hne : g.id ≠ last.id := by
          have honce := h.once
          rw [List.map_append] at honce
          exact (List.nodup_append.mp honce).2.2 _ (List.mem_map_of_mem hold) _ (by simp)
        rw [Function.update_of_ne hne]
        exact ih h.of_append hbefore hold
      · rw [List.mem_singleton] at hnew
        rw [hnew, Function.update_self, hvalue]

/-- A gate of a conjunction of clauses: it is an `or` of variables, perhaps negated, or an `and` of
other gates. -/
def Gate.Clausal (inputs : List Id) (g : Gate) : Prop :=
  g.word = "or" ∧ (∀ e ∈ g.operands, (e.natAbs : Int) ∈ inputs) ∨
    g.word = "and" ∧ ∀ e ∈ g.operands, 0 < e ∧ e ∉ inputs

instance (inputs : List Id) (g : Gate) : Decidable (g.Clausal inputs) :=
  inferInstanceAs (Decidable (_ ∨ _))

namespace Gate

variable {inputs : List Id} {g : Gate} {env : Id → Bool}

theorem value?_or (h : g.word = "or") :
    g.value? env = some (g.operands.any fun e => literalValue env e) := by
  rw [value?, h]
  simp [wordValue?, List.any_map, Function.comp_def]

theorem value?_and (h : g.word = "and") :
    g.value? env = some (g.operands.all fun e => literalValue env e) := by
  rw [value?, h]
  simp [wordValue?, List.all_map, Function.comp_def]

theorem Clausal.isDisjunction_iff (h : g.Clausal inputs) :
    g.isDisjunction = true ↔ g.word = "or" := by
  rcases h with ⟨hword, -⟩ | ⟨hword, -⟩ <;> rw [isDisjunction, hword] <;> decide

theorem Clausal.exists_value? (h : g.Clausal inputs) : ∃ v, g.value? env = some v := by
  rcases h with ⟨hword, -⟩ | ⟨hword, -⟩
  · exact ⟨_, value?_or hword⟩
  · exact ⟨_, value?_and hword⟩

/-- The operands of a true conjunction are true. -/
theorem Clausal.operand_true (h : g.Clausal inputs) (hword : g.word = "and")
    (hvalue : g.value? env = some (env g.id)) (htrue : env g.id = true) {e : Int}
    (he : e ∈ g.operands) : env e = true := by
  rcases h with ⟨hor, -⟩ | ⟨-, hgates⟩
  · rw [hword] at hor
    exact absurd hor (by decide)
  · rw [value?_and hword, Option.some.injEq, htrue, List.all_eq_true] at hvalue
    exact (literalValue_of_nonneg (Int.le_of_lt (hgates e he).1)).symm.trans (hvalue e he)

end Gate

theorem exists_evaluate? {inputs : List Id} {gates : List Gate}
    (h : ∀ g ∈ gates, g.Clausal inputs) (α : Id → Bool) : ∃ env, evaluate? gates α = some env := by
  induction gates generalizing α with
  | nil => exact ⟨α, rfl⟩
  | cons g gates ih =>
      rw [List.forall_mem_cons] at h
      obtain ⟨v, hv⟩ : ∃ v, g.value? α = some v := h.1.exists_value?
      rw [evaluate?_cons hv]
      exact ih h.2 _

/-! ## Conjunctions of clauses -/

section Conjunction

variable {inputs : List Id} {gates : List Gate} {α env : Id → Bool}

/-- If the disjunctions are true, then so are the conjunctions, one after the other. -/
theorem Sequential.all_true (h : Sequential inputs gates) (clausal : ∀ g ∈ gates, g.Clausal inputs)
    (values : ∀ g ∈ gates, g.value? env = some (env g.id))
    (disjunctions : ∀ g ∈ gates, g.word = "or" → env g.id = true) :
    ∀ g ∈ gates, env g.id = true := by
  induction gates using List.reverseRecOn with
  | nil => simp
  | append_singleton gates last ih =>
      rw [List.forall_mem_append] at clausal values disjunctions ⊢
      have hbefore := ih h.of_append clausal.1 values.1 disjunctions.1
      refine ⟨hbefore, ?_⟩
      rw [List.forall_mem_singleton] at clausal values disjunctions ⊢
      rcases clausal.2 with ⟨hword, -⟩ | ⟨hword, hgates⟩
      · exact disjunctions.2 hword
      · have hvalue := values.2
        rw [Gate.value?_and hword, Option.some.injEq] at hvalue
        rw [← hvalue, List.all_eq_true]
        intro e he
        obtain ⟨hpos, hinput⟩ := hgates e he
        have habs : (e.natAbs : Int) = e := Int.natAbs_of_nonneg (Int.le_of_lt hpos)
        rw [literalValue_of_nonneg (Int.le_of_lt hpos)]
        rcases h.earlier gates last [] rfl e he with hvar | hearlier
        · exact absurd (habs ▸ hvar) hinput
        · obtain ⟨g, hg, hid⟩ := List.mem_map.mp hearlier
          rw [habs] at hid
          exact hid ▸ hbefore g hg

end Conjunction

/-- A brick of a block is an operand of one of its gates, of its own gate if that is a
conjunction. -/
theorem GatesOf.exists_operand {c : Id} {b : Block} {gates : List Gate} (h : GatesOf c b gates)
    {e : Id} (he : e ∈ b.body) : ∃ g ∈ gates, ∃ d ∈ g.operands, d.natAbs = e.natAbs ∧
      (g.word = "and" → g.id = b.id ∧ d = e) := by
  cases h with
  | implies mark body =>
      rw [body] at he
      simp only [List.mem_cons, List.not_mem_nil, or_false] at he
      refine ⟨_, List.mem_cons_self, ?_⟩
      rcases he with rfl | rfl <;> simp
  | iff mark body =>
      rw [body] at he
      simp only [List.mem_cons, List.not_mem_nil, or_false] at he
      refine ⟨_, List.mem_cons_self, ?_⟩
      rcases he with rfl | rfl <;> simp
  | bare mark short => exact ⟨_, List.mem_cons_self, e, he, rfl, fun _ => ⟨rfl, rfl⟩⟩
  | marked mark notImplies notIff parity choice =>
      exact ⟨_, List.mem_cons_self, e, he, rfl, fun _ => ⟨rfl, rfl⟩⟩

/-- A gate of a block is its own, or an operand of its own, which is a conjunction then. -/
theorem GatesOf.own_or_operand {c : Id} {b : Block} {gates : List Gate} (h : GatesOf c b gates)
    {g : Gate} (hg : g ∈ gates) :
    g.id = b.id ∨ ∃ own ∈ gates, own.id = b.id ∧ own.word = "and" ∧ g.id ∈ own.operands := by
  cases h with
  | implies mark body => exact Or.inl (by rw [List.mem_singleton.mp hg])
  | bare mark short => exact Or.inl (by rw [List.mem_singleton.mp hg])
  | marked mark notImplies notIff parity choice => exact Or.inl (by rw [List.mem_singleton.mp hg])
  | iff mark body =>
      simp only [List.mem_cons, List.not_mem_nil, or_false] at hg
      rcases hg with rfl | rfl | rfl
      · exact Or.inr ⟨⟨b.id, "and", [c + 1, c + 2]⟩, by simp, rfl, rfl, by simp⟩
      · exact Or.inr ⟨⟨b.id, "and", [c + 1, c + 2]⟩, by simp, rfl, rfl, by simp⟩
      · exact Or.inl rfl

namespace Action.Draws

variable {φ : Formula} {text : String} {matrix : Id} {log : Log} {α env : Id → Bool}

/-- In a conjunction of clauses that is true, the gate of every block is true. -/
theorem block_true (h : Draws φ text matrix log) (hφ : φ.WellFormed)
    (clausal : ∀ g ∈ log.gates, g.Clausal φ.vars.values)
    (values : ∀ g ∈ log.gates, g.value? env = some (env g.id)) (htrue : env matrix = true) {id : Id}
    (hreaches : Relation.ReflTransGen φ.Refers matrix id) (hvar : id ∉ φ.vars.values) :
    env id = true := by
  obtain ⟨c, hwritten⟩ := h.written
  induction hreaches with
  | refl => exact htrue
  | @tail parent id hparent last ih =>
      obtain ⟨b, hb, e, he, rfl⟩ := last
      have hown := hφ.not_variable hb
      have hlog := (h.variable_or_written hφ hparent).resolve_left hown
      obtain ⟨entry, hentry, rfl⟩ := List.mem_map.mp hlog
      have hsame := (hwritten.held hentry).symm.trans hb
      rw [Option.some.injEq] at hsame
      subst hsame
      obtain ⟨c', -, hgates⟩ := hwritten.gatesOf hentry
      obtain ⟨g, hg, d, hd, habs, hconj⟩ := hgates.exists_operand he
      have hmem : g ∈ log.gates := List.mem_flatMap.mpr ⟨entry, hentry, hg⟩
      rcases clausal g hmem with ⟨-, hinputs⟩ | ⟨hword, hpos⟩
      · exact absurd (habs ▸ hinputs d hd) hvar
      · obtain ⟨hid, rfl⟩ := hconj hword
        have hvalue := (clausal g hmem).operand_true hword (values g hmem)
          (hid ▸ ih hown) hd
        rwa [Int.natAbs_of_nonneg (Int.le_of_lt (hpos d hd).1)]

theorem gate_true (h : Draws φ text matrix log) (hφ : φ.WellFormed)
    (clausal : ∀ g ∈ log.gates, g.Clausal φ.vars.values)
    (values : ∀ g ∈ log.gates, g.value? env = some (env g.id)) (htrue : env matrix = true)
    {g : Gate} (hg : g ∈ log.gates) : env g.id = true := by
  obtain ⟨c, hwritten⟩ := h.written
  obtain ⟨entry, hentry, hgate⟩ := List.mem_flatMap.mp hg
  obtain ⟨c', -, hgates⟩ := hwritten.gatesOf hentry
  have hblock : env entry.1.id = true := h.block_true hφ clausal values htrue
    (h.below _ (List.mem_map_of_mem hentry)) (hφ.not_variable (hwritten.held hentry))
  rcases hgates.own_or_operand hgate with hid | ⟨own, hown, hid, hword, hoperand⟩
  · exact hid ▸ hblock
  · have hmem : own ∈ log.gates := List.mem_flatMap.mpr ⟨entry, hentry, hown⟩
    exact (clausal own hmem).operand_true hword (values own hmem) (hid ▸ hblock) hoperand

/-- The operands of the disjunctions are the clauses of a conjunction. -/
theorem clausesHold_iff (h : Draws φ text matrix log) (hφ : φ.WellFormed)
    (clausal : ∀ g ∈ log.gates, g.Clausal φ.vars.values)
    (heval : evaluate? log.gates α = some env) :
    ClausesHold ((log.gates.filter Gate.isDisjunction).map Gate.operands) α ↔
      env matrix = true := by
  obtain ⟨c, hwritten⟩ := h.written
  have hseq := hwritten.sequential hφ
  have values : ∀ g ∈ log.gates, g.value? env = some (env g.id) := fun g hg =>
    hseq.value?_of_evaluate? heval hg
  have hinput : ∀ e : Int, (e.natAbs : Int) ∈ φ.vars.values →
      literalValue env e = literalValue α e := by
    intro e he
    have hother : (e.natAbs : Int) ∉ log.gates.map Gate.id := by
      intro hmem
      obtain ⟨g, hg, hid⟩ := List.mem_map.mp hmem
      exact hseq.apart g hg (hid ▸ he)
    rw [literalValue, literalValue, evaluate?_of_not_mem heval hother]
  -- A clause holds if and only if its gate is true.
  have hclause : ∀ g ∈ log.gates, g.word = "or" →
      (env g.id = true ↔ ∃ n ∈ g.operands, literalValue α n = true) := by
    intro g hg hword
    have hvalue := values g hg
    rw [Gate.value?_or hword, Option.some.injEq] at hvalue
    rw [← hvalue, List.any_eq_true]
    rcases clausal g hg with ⟨-, hinputs⟩ | ⟨hand, -⟩
    · exact exists_congr fun n => and_congr_right fun hn => by rw [hinput n (hinputs n hn)]
    · rw [hword] at hand
      exact absurd hand (by decide)
  constructor
  · intro hall
    have htrue := hseq.all_true clausal values fun g hg hword => (hclause g hg hword).mpr <|
      hall _ (List.mem_map_of_mem (List.mem_filter.mpr
        ⟨hg, (clausal g hg).isDisjunction_iff.mpr hword⟩))
    obtain ⟨g, hg, hid⟩ := List.mem_map.mp (hwritten.mem_gates h.root)
    exact hid ▸ htrue g hg
  · intro htrue clause hmem
    obtain ⟨g, hg, rfl⟩ := List.mem_map.mp hmem
    obtain ⟨hg, hdisjunction⟩ := List.mem_filter.mp hg
    exact (hclause g hg ((clausal g hg).isDisjunction_iff.mp hdisjunction)).mp
      (h.gate_true hφ clausal values htrue hg)

theorem text_eq (h : Draws φ text matrix log) (hφ : φ.WellFormed) {quantifiers : Id}
    {scopes : List (Quantifier × List Int)} (first : φ.outputPart 0 = .ok quantifiers)
    (prefixed : φ.Quantifies quantifiers scopes) :
    text = circuitHeader ++ Formula.renderScopes scopes ++ outputLine (Text.showInt matrix) ++
      renderGates log.gates := by
  obtain ⟨id, quantified, lines, hid, hquantified, hlines, htext⟩ := h.lines
  cases hid.symm.trans first
  have hwritten := Formula.quantifierLines_of_quantifies hφ prefixed
    (get?_of_contentsOf hquantified) (φ.rank_lt_nestingBound quantifiers)
  cases hlines.symm.trans hwritten
  exact htext

theorem operand_ne_zero (h : Draws φ text matrix log) (hφ : φ.WellFormed) {g : Gate}
    (hg : g ∈ log.gates) {e : Int} (he : e ∈ g.operands) : e ≠ 0 := by
  obtain ⟨c, hwritten⟩ := h.written
  obtain ⟨before, after, hsplit⟩ := List.append_of_mem hg
  refine ne_zero_of_natAbs ?_
  rcases (hwritten.sequential hφ).earlier before g after hsplit e he with hvar | hearlier
  · exact (hφ.inRange _ (List.mem_append_left _ hvar)).1
  · have hmem : (e.natAbs : Int) ∈ log.gates.map Gate.id := by
      rw [hsplit, List.map_append]
      exact List.mem_append_left _ hearlier
    rcases hwritten.mem_ids_or_fresh hmem with hblock | hfresh
    · obtain ⟨entry, hentry, hid⟩ := List.mem_map.mp hblock
      exact hid ▸ (hφ.held_range (hwritten.held hentry)).1
    · exact Int.le_trans (Int.add_le_add_right hφ.nonneg 1) hfresh.1

end Action.Draws

namespace Action

/-- The clauses of a clause text are the operands of the gates with `or` in their word, in the order
of the gate lines, whether the circuit text was asked for before or not. If all gates are `or` of
variables, perhaps negated, or `and` of other gates, then an assignment satisfies all clauses if and
only if it makes the output gate true. -/
theorem clauseText_lists_disjunctions {s t u start : Session} {circuit text : String}
    {quantifiers : Id} {scopes : List (Quantifier × List Int)} (built : s.Built .full)
    (format : s.formula.format = some .cnf) (named : '\n' ∉ s.formula.name.toList)
    (first : s.formula.outputPart 0 = .ok quantifiers)
    (prefixed : s.formula.Quantifies quantifiers scopes) (quantified : scopes ≠ [])
    (filled : ∀ scope ∈ scopes, scope.2 ≠ [])
    (drawn : circuitText .full s = .ok (some circuit) t) (before : start = s ∨ start = t)
    (listed : clauseText .full start = .ok (some text) u) :
    ∃ sheet matrix, Sheet.ofFile? text = some sheet ∧ outputsIn circuit = [matrix] ∧
      sheet.clauses = ((gatesIn circuit).filter Gate.isDisjunction).map Gate.operands ∧
      ((∀ g ∈ gatesIn circuit, g.Clausal s.formula.vars.values) →
        ∀ α, ∃ env, evaluate? (gatesIn circuit) α = some env ∧
          (ClausesHold sheet.clauses α ↔ env matrix = true)) := by
  have hφ := built.wellFormed
  have hrun := generateCircuit_of_circuitText format built.unwritten.1 drawn
  obtain ⟨v, hfresh, hkept⟩ := clauseText_of_circuit format built.unwritten hrun
  have htext : text = s.formula.clausesOf circuit := by
    rcases before with rfl | rfl
    · cases listed.symm.trans hfresh
      rfl
    · cases listed.symm.trans hkept
      rfl
  obtain ⟨matrix, log, hdraws⟩ :=
    (generateCircuit_log hφ built.complete built.blank).of_ok rfl hrun
  obtain ⟨hgates, houtput⟩ := hdraws.read hφ
  obtain ⟨c, hwritten⟩ := hdraws.written
  have hlines := Formula.clausesOf_eq_join (φ := s.formula) quantified filled matrix
    fun g hg => hwritten.legible hφ hg
  rw [← hdraws.text_eq hφ first prefixed, ← htext] at hlines
  have hscopes : ∀ scope ∈ scopes, ∀ n ∈ scope.2, n ≠ 0 := by
    intro scope hscope n hn
    have hvar := prefixed.mem_vars (List.mem_flatMap.mpr ⟨scope, hscope, hn⟩)
    exact ne_zero_of_natAbs (hφ.inRange _ (List.mem_append_left _ hvar)).1
  have hclauses : ∀ clause ∈ (log.gates.filter Gate.isDisjunction).map Gate.operands,
      ∀ n ∈ clause, n ≠ 0 := by
    intro clause hclause n hn
    obtain ⟨g, hg, rfl⟩ := List.mem_map.mp hclause
    exact hdraws.operand_ne_zero hφ (List.mem_filter.mp hg).1 hn
  have hread := Formula.ofFile?_clauseLines named hscopes hclauses
  rw [← hlines] at hread
  refine ⟨_, matrix, hread, houtput, by rw [hgates]; rfl, fun clausal α => ?_⟩
  rw [hgates] at clausal ⊢
  obtain ⟨env, heval⟩ := exists_evaluate? clausal α
  exact ⟨env, heval, hdraws.clausesHold_iff hφ clausal heval⟩

/-- A formula in clause form over three variables with the given matrix. -/
def clauseStatements (matrix : List Language.Statement) : List Language.Statement :=
  [.format "CNF", .vars "x" [] [], .vars "y" [] [], .vars "z" [] []] ++ matrix ++
    [.blocks [⟨"Q", [], [.ref false "x" [], .ref false "y" [], .ref false "z" []]⟩] [] none,
     .blocks [⟨"F", [], [.ref false "Q" [], .ref false "M" []]⟩] [] none, .mark [("Q", [])] "E",
     .output "F" []]

def clauseSession (matrix : List Language.Statement) : Session :=
  (perform ((clauseStatements matrix).forM (Language.Statement.perform .full false)) {}).2

/-- A conjunction of a clause, a block of one literal, and a double implication. -/
def conjunctionMatrix : List Language.Statement :=
  [.blocks [⟨"C", [], [.ref false "x" [], .ref true "y" []]⟩] [] none,
   .blocks [⟨"D", [], [.ref false "z" []]⟩] [] none,
   .blocks [⟨"E", [], [.ref false "y" [], .ref false "z" []]⟩] [] none,
   .blocks [⟨"M", [], [.ref false "C" [], .ref false "D" [], .ref false "E" []]⟩] [] none,
   .mark [("C", [])] "OR", .mark [("E", [])] "<=>", .mark [("M", [])] "AND"]

def conjunctionText : String :=
  "#QCIR-G14\nexists(1, 2, 3)\noutput(7)\n4 = or(1, -2)\n5 = or(3)\n" ++
    "10 = or(-2, 3)\n11 = or(-3, 2)\n6 = and(10, 11)\n7 = and(4, 5, 6)\n"

theorem clauseSession_quantifies {matrix : List Language.Statement} {id : Id}
    (hvars : ∀ x ∈ ([1, 2, 3] : List Int),
      (x.natAbs : Int) ∈ (clauseSession matrix).formula.vars.values)
    (held : (clauseSession matrix).formula.contents.get? id =
      some ⟨"Q( )", id, [1, 2, 3], none, some (.quantifier .existential)⟩) :
    (clauseSession matrix).formula.Quantifies id [(.existential, [1, 2, 3])] :=
  .scope (fun e => [e]) held rfl fun e he => .variable (hvars e he)

theorem clauseText_lists_disjunctions_conjunction :
    (clauseSession conjunctionMatrix).Built .full ∧
      (clauseSession conjunctionMatrix).formula.format = some .cnf ∧
      '\n' ∉ (clauseSession conjunctionMatrix).formula.name.toList ∧
      (clauseSession conjunctionMatrix).formula.outputPart 0 = .ok 8 ∧
      (clauseSession conjunctionMatrix).formula.Quantifies 8 [(.existential, [1, 2, 3])] ∧
      ∃ t u text sheet,
        circuitText .full (clauseSession conjunctionMatrix) = .ok (some conjunctionText) t ∧
        clauseText .full t = .ok (some text) u ∧ Sheet.ofFile? text = some sheet ∧
        sheet.clauses = [[1, -2], [3], [-2, 3], [-3, 2]] ∧
        ∀ α, ∃ env, evaluate? (gatesIn conjunctionText) α = some env ∧
          (ClausesHold sheet.clauses α ↔ env 7 = true) := by
  have hfacts : (perform ((clauseStatements conjunctionMatrix).forM
        (Language.Statement.perform .full false)) {}).1.toOption = some () ∧
      (clauseSession conjunctionMatrix).formula.format = some .cnf ∧
      '\n' ∉ (clauseSession conjunctionMatrix).formula.name.toList ∧
      ((clauseSession conjunctionMatrix).formula.outputPart 0).toOption = some 8 ∧
      (clauseSession conjunctionMatrix).formula.contents.get? 8 =
        some ⟨"Q( )", 8, [1, 2, 3], none, some (.quantifier .existential)⟩ ∧
      (clauseSession conjunctionMatrix).formula.vars.values = [1, 2, 3] := by decide +kernel
  obtain ⟨hbuilt, format, named, first, held, hvars⟩ := hfacts
  have built : (clauseSession conjunctionMatrix).Built .full :=
    ⟨false, clauseStatements conjunctionMatrix, {}, ok_of_perform hbuilt⟩
  have prefixed :
      (clauseSession conjunctionMatrix).formula.Quantifies 8 [(.existential, [1, 2, 3])] :=
    clauseSession_quantifies (by rw [hvars]; decide) held
  have drawn : ∃ t, circuitText .full (clauseSession conjunctionMatrix) =
      .ok (some conjunctionText) t := ⟨_, ok_of_perform (by decide +kernel)⟩
  obtain ⟨t, drawn⟩ := drawn
  have hrun := generateCircuit_of_circuitText format built.unwritten.1 drawn
  obtain ⟨u, -, listed⟩ := clauseText_of_circuit format built.unwritten hrun
  obtain ⟨sheet, matrix, hread, houtput, hclauses, hholds⟩ := clauseText_lists_disjunctions built
    format named (ok_of_toOption first) prefixed (by simp) (by simp) drawn (Or.inr rfl) listed
  have hgates : gatesIn conjunctionText = [⟨4, "or", [1, -2]⟩, ⟨5, "or", [3]⟩, ⟨10, "or", [-2, 3]⟩,
      ⟨11, "or", [-3, 2]⟩, ⟨6, "and", [10, 11]⟩, ⟨7, "and", [4, 5, 6]⟩] ∧
      outputsIn conjunctionText = [7] := by decide +kernel
  cases hgates.2.symm.trans houtput
  have hlist : ((gatesIn conjunctionText).filter Gate.isDisjunction).map Gate.operands =
      [[1, -2], [3], [-2, 3], [-3, 2]] := by
    rw [hgates.1]
    decide
  have hclausal : ∀ g ∈ gatesIn conjunctionText,
      g.Clausal (clauseSession conjunctionMatrix).formula.vars.values := by
    rw [hgates.1, hvars]
    decide
  exact ⟨built, format, named, ok_of_toOption first, prefixed, t, u, _, sheet, drawn, listed, hread,
    hclauses.trans hlist, hholds hclausal⟩

/-- A conjunction of a variable and a clause. -/
def bareMatrix : List Language.Statement :=
  [.blocks [⟨"C", [], [.ref false "y" [], .ref false "z" []]⟩] [] none,
   .blocks [⟨"M", [], [.ref false "x" [], .ref false "C" []]⟩] [] none,
   .mark [("C", [])] "OR", .mark [("M", [])] "AND"]

/-- A conjunction of a parity. -/
def parityMatrix : List Language.Statement :=
  [.blocks [⟨"C", [], [.ref false "x" [], .ref false "y" []]⟩] [] none,
   .blocks [⟨"M", [], [.ref false "C" []]⟩] [] none,
   .mark [("C", [])] "XOR", .mark [("M", [])] "AND"]

/-- The circuit and clause texts of a formula over three variables with one clause. -/
def oneClauseTexts (clause conjunction : String) (literals : List Int) : String × String :=
  ("#QCIR-G14\nexists(1, 2, 3)\noutput(5)\n4 = " ++ clause ++ "\n5 = " ++ conjunction ++ "\n",
   "c Formula Family: \nc Values: \x7b\x7d\np cnf 3 1\ne 1 2 3 0\n" ++
    Text.showInts " " literals ++ " 0\n")

/-- Some assignment satisfies all clauses of the formula and makes its output gate false. -/
def MissesOutput (matrix : List Language.Statement) : Prop :=
  (clauseSession matrix).Built .full ∧ (clauseSession matrix).formula.format = some .cnf ∧
    ∃ t u circuit text sheet env, ∃ α : Id → Bool,
      circuitText .full (clauseSession matrix) = .ok (some circuit) t ∧
      clauseText .full (clauseSession matrix) = .ok (some text) u ∧
      Sheet.ofFile? text = some sheet ∧ outputsIn circuit = [5] ∧
      evaluate? (gatesIn circuit) α = some env ∧ ClausesHold sheet.clauses α ∧ env 5 = false

/-- The variable in the conjunction is in no clause, and the parity is read as a disjunction. -/
theorem clauses_miss_conjunct_and_parity :
    MissesOutput bareMatrix ∧ MissesOutput parityMatrix := by
  constructor
  · let texts := oneClauseTexts "or(2, 3)" "and(1, 4)" [2, 3]
    let α : Id → Bool := fun id => id != 1
    have hvalue : (evaluate? (gatesIn texts.1) α).map (fun env => env 5) = some false := by
      decide +kernel
    obtain ⟨env, heval, hfalse⟩ := Option.map_eq_some_iff.mp hvalue
    refine ⟨⟨false, clauseStatements bareMatrix, {}, ok_of_perform (by decide +kernel)⟩,
      by decide +kernel, _, _, texts.1, texts.2, ⟨3, 1, [⟨.exists, [1, 2, 3]⟩], [[2, 3]]⟩, env, α,
      ok_of_perform (by decide +kernel), ok_of_perform (by decide +kernel), by decide +kernel,
      by decide +kernel, heval, ?_, hfalse⟩
    simp [ClausesHold, literalValue, α]
  · let texts := oneClauseTexts "xor(1, 2)" "and(4)" [1, 2]
    let α : Id → Bool := fun _ => true
    have hvalue : (evaluate? (gatesIn texts.1) α).map (fun env => env 5) = some false := by
      decide +kernel
    obtain ⟨env, heval, hfalse⟩ := Option.map_eq_some_iff.mp hvalue
    refine ⟨⟨false, clauseStatements parityMatrix, {}, ok_of_perform (by decide +kernel)⟩,
      by decide +kernel, _, _, texts.1, texts.2, ⟨3, 1, [⟨.exists, [1, 2, 3]⟩], [[1, 2]]⟩, env, α,
      ok_of_perform (by decide +kernel), ok_of_perform (by decide +kernel), by decide +kernel,
      by decide +kernel, heval, ?_, hfalse⟩
    simp [ClausesHold, literalValue, α]

end Action

end QuantFamily
