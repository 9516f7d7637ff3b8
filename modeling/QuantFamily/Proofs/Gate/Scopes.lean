import Mathlib.Data.List.Basic
import QuantFamily.Proofs.Gate.Nesting

/-!
# Quantifier lines and their variables

A quantifier line is written with a separator behind each variable, and the last two characters give
way to a closing bracket. These are the last separator if there are variables. Without variables
they are the opening bracket and the last letter of the quantifier, so exactly the lines of the
quantifiers that bind nothing are not well formed.
-/

namespace QuantFamily

namespace Formula

/-- The line of a quantifier: its word and, in brackets, its variables. -/
def properLine (scope : Quantifier × List Int) : String :=
  scope.1.word ++ "(" ++ commaList scope.2 ++ ")\n"

theorem toList_properLine (scope : Quantifier × List Int) :
    (properLine scope).toList =
      scope.1.word.toList ++ '(' :: ((commaList scope.2).toList ++ [')', '\n']) := by
  simp [properLine]

theorem scopeLine_of_filled {scope : Quantifier × List Int} (filled : scope.2 ≠ []) :
    scopeLine scope ++ "\n" = properLine scope := by
  refine String.toList_injective ?_
  rw [String.toList_append, scopeLine, String.toList_ofList, markedText, if_neg filled,
    toList_properLine]
  simp [Attribute.word]

/-- A quantifier that binds nothing is written without its last letter and its opening bracket. -/
theorem length_scopeLine_of_empty {scope : Quantifier × List Int} (empty : scope.2 = []) :
    (properLine scope).length = (scopeLine scope ++ "\n").length + 2 := by
  have hword : 0 < scope.1.word.toList.length := by cases scope.1 <;> decide
  have hnone : (commaList []).toList = [] := rfl
  rw [← String.length_toList, ← String.length_toList, toList_properLine, String.toList_append,
    scopeLine, String.toList_ofList, markedText, if_pos empty, empty, hnone]
  simp only [Attribute.word, List.length_append, List.length_cons, List.length_nil,
    List.length_dropLast, List.nil_append]
  have hbreak : "\n".toList.length = 1 := rfl
  omega

/-- For each quantifier that binds nothing two characters are missing. -/
theorem length_renderScopes (scopes : List (Quantifier × List Int)) :
    (String.join (scopes.map properLine)).length =
      (renderScopes scopes).length + 2 * scopes.countP fun scope => scope.2 = [] := by
  induction scopes with
  | nil => rfl
  | cons scope scopes ih =>
      have hrender : renderScopes (scope :: scopes) =
          scopeLine scope ++ "\n" ++ renderScopes scopes := by simp [renderScopes]
      rw [List.map_cons, String.join_cons, String.length_append, ih, hrender, String.length_append,
        List.countP_cons]
      by_cases empty : scope.2 = []
      · rw [length_scopeLine_of_empty empty]
        simp only [empty, decide_true, if_true]
        omega
      · rw [scopeLine_of_filled empty]
        simp only [empty, decide_false, Bool.false_eq_true, if_false]
        omega

theorem renderScopes_proper_iff (scopes : List (Quantifier × List Int)) :
    renderScopes scopes = String.join (scopes.map properLine) ↔ ∀ scope ∈ scopes, scope.2 ≠ [] := by
  constructor
  · intro heq
    have hlength := length_renderScopes scopes
    rw [← heq] at hlength
    have hcount : scopes.countP (fun scope => scope.2 = []) = 0 := by omega
    intro scope hscope empty
    exact List.countP_eq_zero.mp hcount scope hscope (decide_eq_true empty)
  · intro filled
    exact congrArg String.join (List.map_congr_left fun scope hscope =>
      scopeLine_of_filled (filled scope hscope))

/-- For every block of a prefix there is one quantifier line for each quantified block below it, in
the order of the bricks. The lines are well formed exactly if each of these blocks has variables;
the line of a block without variables lacks the last letter and the bracket. -/
theorem quantifierLines_proper_iff (edition : Edition) (operations : List Operation) (s : Session)
    {id : Id} {b : Block} {scopes : List (Quantifier × List Int)} :
    let φ := (Operation.run edition operations { s with formula := {} }).formula
    φ.contents.get? id = some b → φ.Quantifies id scopes →
      φ.quantifierLines φ.nestingBound b = .ok (renderScopes scopes) ∧
        (φ.quantifierLines φ.nestingBound b = .ok (String.join (scopes.map properLine)) ↔
          ∀ scope ∈ scopes, scope.2 ≠ []) := by
  intro φ held quantifies
  have hφ : φ.WellFormed := Operation.wellFormed_run edition operations wellFormed_empty
  have hlines : φ.quantifierLines φ.nestingBound b = .ok (renderScopes scopes) :=
    quantifierLines_of_quantifies hφ quantifies held (φ.rank_lt_nestingBound id)
  refine ⟨hlines, ?_⟩
  rw [hlines, Except.ok.injEq]
  exact renderScopes_proper_iff scopes

/-- A prefix of two quantified blocks; the second one holds its variable in a block of its own. -/
def twofoldPrefix : List Operation :=
  ([.vars "x" [] [], .vars "y" [] [], .vars "z" [] [],
    .blocks [⟨"P", [], [.ref false "z" [], .ref false "x" []]⟩] [] none,
    .blocks [⟨"C", [], [.ref false "y" []]⟩] [] none,
    .blocks [⟨"Q", [], [.ref false "C" []]⟩] [] none,
    .blocks [⟨"R", [], [.ref false "P" [], .ref false "Q" []]⟩] [] none,
    .mark [("P", [])] "E", .mark [("Q", [])] "A"] : List Language.Statement).map (.define false)

def twofoldFormula : Formula :=
  (Operation.run .full twofoldPrefix {}).formula

theorem twofoldFormula_quantifies :
    twofoldFormula.Quantifies 7 [(.existential, [3, 1]), (.universal, [2])] := by
  have hvars : ∀ x ∈ ([1, 2, 3] : List Int), (x.natAbs : Int) ∈ twofoldFormula.vars.values := by
    decide +kernel
  have hleft : twofoldFormula.contents.get? 4 =
      some ⟨"P( )", 4, [3, 1], none, some (.quantifier .existential)⟩ := by decide +kernel
  have hinner : twofoldFormula.contents.get? 5 = some ⟨"C( )", 5, [2], none, none⟩ := by
    decide +kernel
  have hright : twofoldFormula.contents.get? 6 =
      some ⟨"Q( )", 6, [5], none, some (.quantifier .universal)⟩ := by decide +kernel
  have hlist : twofoldFormula.contents.get? 7 = some ⟨"R( )", 7, [4, 6], none, none⟩ := by
    decide +kernel
  have hbrick : ∀ d ∈ ([2] : List Id), twofoldFormula.Flattens d [d] := by
    simpa using .variable (hvars 2 (by simp))
  have hblock : twofoldFormula.Flattens 5 [2] := by
    have hflattens := Flattens.block (e := 5) (fun e => [e]) hinner hbrick
    exact hflattens
  refine .list (fun e => if e = 4 then [(.existential, [3, 1])] else [(.universal, [2])]) hlist rfl ?_
  simp only [List.mem_cons, List.not_mem_nil, or_false, forall_eq_or_imp, forall_eq]
  constructor
  · refine .scope (fun e => [e]) hleft rfl ?_
    simpa using ⟨.variable (hvars 3 (by simp)), .variable (hvars 1 (by simp))⟩
  · exact .scope (fun _ => [2]) hright rfl (by simpa using hblock)

theorem quantifierLines_proper_iff_twofold :
    twofoldFormula.contents.get? 7 = some ⟨"R( )", 7, [4, 6], none, none⟩ ∧
      twofoldFormula.Quantifies 7 [(.existential, [3, 1]), (.universal, [2])] ∧
      twofoldFormula.quantifierLines twofoldFormula.nestingBound ⟨"R( )", 7, [4, 6], none, none⟩ =
        .ok (String.join
          [properLine (.existential, [3, 1]), properLine (.universal, [2])]) ∧
      String.join [properLine (.existential, [3, 1]), properLine (.universal, [2])] =
        "exists(3, 1)\nforall(2)\n" := by
  have held : twofoldFormula.contents.get? 7 = some ⟨"R( )", 7, [4, 6], none, none⟩ := by
    decide +kernel
  have hlines := quantifierLines_proper_iff .full twofoldPrefix {} held twofoldFormula_quantifies
  exact ⟨held, twofoldFormula_quantifies, hlines.2.mpr (by simp), by decide +kernel⟩

/-- Two quantified blocks that list a grouping without blocks. -/
def hollowPrefix : List Operation :=
  ([.vars "x" [] [], .blocks [⟨"B", ["i"], [.ref false "x" []]⟩] [.range "i" "1" "0"] (some "G"),
    .blocks [⟨"Q", [], [.all "G"]⟩] [] none, .blocks [⟨"R", [], [.all "G"]⟩] [] none,
    .mark [("Q", [])] "E", .mark [("R", [])] "A"] : List Language.Statement).map (.define false)

def hollowFormula : Formula :=
  (Operation.run .full hollowPrefix {}).formula

/-- The lines of quantified blocks without variables lack a letter and a bracket. -/
theorem hollow_scope_lines_are_cut :
    hollowFormula.Quantifies 2 [(.existential, [])] ∧
      hollowFormula.quantifierLines hollowFormula.nestingBound
        ⟨"Q( )", 2, [], none, some (.quantifier .existential)⟩ = .ok "exist)\n" ∧
      hollowFormula.Quantifies 3 [(.universal, [])] ∧
      hollowFormula.quantifierLines hollowFormula.nestingBound
        ⟨"R( )", 3, [], none, some (.quantifier .universal)⟩ = .ok "foral)\n" := by
  have hleft : hollowFormula.contents.get? 2 =
      some ⟨"Q( )", 2, [], none, some (.quantifier .existential)⟩ := by decide +kernel
  have hright : hollowFormula.contents.get? 3 =
      some ⟨"R( )", 3, [], none, some (.quantifier .universal)⟩ := by decide +kernel
  exact ⟨.scope (fun _ => []) hleft rfl (by simp), by decide +kernel,
    .scope (fun _ => []) hright rfl (by simp), by decide +kernel⟩

end Formula

end QuantFamily
