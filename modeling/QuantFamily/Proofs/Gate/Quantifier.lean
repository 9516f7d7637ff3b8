import Mathlib.Data.List.Nodup
import QuantFamily.Proofs.Gate.Text
import QuantFamily.Proofs.State.WellFormed

/-!
# Prefixes

The first part of the output block holds the quantifiers. A block of it that carries a quantifier
binds the variables that its bricks stand for, and a block without attribute lists further blocks of
this kind. Whenever quantifier lines are written, they are one line for each quantified block, in
the order in which the bricks lead to them.
-/

namespace QuantFamily

namespace Formula

variable {φ : Formula} {fuel : Nat} {id matrix : Id}

/-- The variables that a signed identifier stands for, with their signs. -/
inductive Flattens (φ : Formula) : Id → List Int → Prop
  | variable {e : Id} (h : (e.natAbs : Int) ∈ φ.vars.values) : Flattens φ e [e]
  | block {e : Id} {b : Block} (parts : Id → List Int) (held : φ.contents.get? e.natAbs = some b)
      (bricks : ∀ d ∈ b.body, Flattens φ d (parts d)) :
      Flattens φ e ((b.body.flatMap parts).map (withSign e))

/-- The quantifiers of a block of the prefix, each with what the body of its block stands for. -/
inductive Quantifies (φ : Formula) : Id → List (Quantifier × List Int) → Prop
  | scope {id : Id} {b : Block} {q : Quantifier} (parts : Id → List Int)
      (held : φ.contents.get? id = some b) (mark : b.mark = some (.quantifier q))
      (bricks : ∀ e ∈ b.body, φ.Flattens e (parts e)) : Quantifies φ id [(q, b.body.flatMap parts)]
  | list {id : Id} {b : Block} (parts : Id → List (Quantifier × List Int))
      (held : φ.contents.get? id = some b) (mark : b.mark = none)
      (bricks : ∀ e ∈ b.body, Quantifies φ e (parts e)) : Quantifies φ id (b.body.flatMap parts)

/-- A block of the prefix: the first one, or one that a block without attribute lists. -/
inductive PrefixBlock (φ : Formula) : Id → Block → Prop
  | first {id : Id} {b : Block} (held : φ.contents.get? id = some b) : PrefixBlock φ id b
  | listed {id e : Id} {b c : Block} (held : φ.contents.get? id = some b) (mark : b.mark = none)
      (brick : e ∈ b.body) (inner : PrefixBlock φ e c) : PrefixBlock φ id c

/-- Quantifiers that bind the matrix: each over at least one variable, none over a negated one, no
variable twice, and every variable of the matrix. -/
structure Binds (φ : Formula) (matrix : Id) (scopes : List (Quantifier × List Int)) : Prop where
  filled : ∀ scope ∈ scopes, scope.2 ≠ []
  positive : ∀ scope ∈ scopes, ∀ x ∈ scope.2, 0 < x
  distinct : (scopes.flatMap Prod.snd).Nodup
  covers : ∀ x ∈ φ.vars.values, Relation.ReflTransGen φ.Refers matrix x →
    x ∈ scopes.flatMap Prod.snd

theorem flattens_of_literals {bricks : List Id} {ns : List Int}
    (h : φ.literals fuel bricks = .ok ns) :
    ∃ parts, (∀ e ∈ bricks, φ.Flattens e (parts e)) ∧ ns = bricks.flatMap parts := by
  induction fuel generalizing bricks ns with
  | zero => cases h
  | succ fuel ih =>
      unfold literals at h
      obtain ⟨lists, hlists, h⟩ := exists_ok_of_bind h
      cases h
      obtain ⟨parts, rfl, hparts⟩ := exists_map_of_mapM hlists
      refine ⟨parts, fun e he => ?_, rfl⟩
      have hpart := hparts e he
      dsimp only at hpart
      split at hpart
      · rename_i hvar
        rw [← Except.ok.inj hpart]
        exact .variable (List.contains_iff_mem.mp hvar)
      · split at hpart
        · cases hpart
        · rename_i b held
          obtain ⟨inner, hinner, hpart⟩ := exists_ok_of_bind hpart
          obtain ⟨below, hbelow, rfl⟩ := ih hinner
          rw [← Except.ok.inj hpart]
          exact .block below held hbelow

theorem Flattens.mem_vars {e : Id} {ns : List Int} (h : φ.Flattens e ns) {n : Int} (hn : n ∈ ns) :
    (n.natAbs : Int) ∈ φ.vars.values := by
  induction h generalizing n with
  | «variable» hvar =>
      rw [List.mem_singleton] at hn
      exact hn ▸ hvar
  | @block e b parts held bricks ih =>
      obtain ⟨m, hm, rfl⟩ := List.mem_map.mp hn
      obtain ⟨d, hd, hm⟩ := List.mem_flatMap.mp hm
      have hsize : (withSign e m).natAbs = m.natAbs := by
        unfold withSign
        split
        · exact Int.natAbs_neg m
        · rfl
      exact hsize ▸ ih d hd hm

theorem Quantifies.mem_vars {scopes : List (Quantifier × List Int)} (h : φ.Quantifies id scopes)
    {n : Int} (hn : n ∈ scopes.flatMap Prod.snd) : (n.natAbs : Int) ∈ φ.vars.values := by
  induction h with
  | scope parts held mark bricks =>
      simp only [List.flatMap_cons, List.flatMap_nil, List.append_nil, List.mem_flatMap] at hn
      obtain ⟨e, he, hn⟩ := hn
      exact (bricks e he).mem_vars hn
  | list parts held mark bricks ih =>
      obtain ⟨scope, hscope, hn⟩ := List.mem_flatMap.mp hn
      obtain ⟨e, he, hscope⟩ := List.mem_flatMap.mp hscope
      exact ih e he (List.mem_flatMap.mpr ⟨scope, hscope, hn⟩)

theorem Flattens.unique (hφ : φ.WellFormed) {e : Id} {ns ms : List Int} (h : φ.Flattens e ns)
    (h' : φ.Flattens e ms) : ns = ms := by
  induction h generalizing ms with
  | «variable» hvar =>
      cases h' with
      | «variable» _ => rfl
      | block parts held bricks => exact absurd hvar (hφ.not_variable held)
  | @block e b parts held bricks ih =>
      cases h' with
      | «variable» hvar => exact absurd hvar (hφ.not_variable held)
      | block parts' held' bricks' =>
          rw [held, Option.some.injEq] at held'
          subst held'
          rw [List.flatMap_congr fun d hd => ih d hd (bricks' d hd)]

theorem Quantifies.unique (hφ : φ.WellFormed) {scopes scopes' : List (Quantifier × List Int)}
    (h : φ.Quantifies id scopes) (h' : φ.Quantifies id scopes') : scopes = scopes' := by
  induction h generalizing scopes' with
  | scope parts held mark bricks =>
      cases h' with
      | scope parts' held' mark' bricks' =>
          rw [held, Option.some.injEq] at held'
          subst held'
          rw [mark, Option.some.injEq, Attribute.quantifier.injEq] at mark'
          rw [mark', List.flatMap_congr fun e he => (bricks e he).unique hφ (bricks' e he)]
      | list parts' held' mark' bricks' =>
          rw [held, Option.some.injEq] at held'
          subst held'
          cases mark.symm.trans mark'
  | list parts held mark bricks ih =>
      cases h' with
      | scope parts' held' mark' bricks' =>
          rw [held, Option.some.injEq] at held'
          subst held'
          cases mark.symm.trans mark'
      | list parts' held' mark' bricks' =>
          rw [held, Option.some.injEq] at held'
          subst held'
          exact List.flatMap_congr fun e he => ih e he (bricks' e he)

/-! ## Written prefixes -/

def scopeLine (scope : Quantifier × List Int) : String :=
  String.ofList (markedText (.quantifier scope.1) scope.2)

def renderScopes (scopes : List (Quantifier × List Int)) : String :=
  String.join (scopes.map fun scope => scopeLine scope ++ "\n")

theorem join_map_renderScopes (xs : List Id) (parts : Id → List (Quantifier × List Int)) :
    String.join (xs.map fun x => renderScopes (parts x)) = renderScopes (xs.flatMap parts) := by
  induction xs with
  | nil => rfl
  | cons x xs ih =>
      rw [List.map_cons, String.join_cons, ih, List.flatMap_cons]
      simp [renderScopes]

/-- Quantifier lines are written for quantifiers, if no block of the prefix carries an operator. -/
theorem quantifies_of_quantifierLines {b : Block} {lines : String}
    (held : φ.contents.get? id = some b)
    (marks : ∀ c, φ.PrefixBlock id c → ∀ o, c.mark ≠ some (.operator o))
    (h : φ.quantifierLines fuel b = .ok lines) :
    ∃ scopes, φ.Quantifies id scopes ∧ lines = renderScopes scopes := by
  induction fuel generalizing id b lines with
  | zero => cases h
  | succ fuel ih =>
      unfold quantifierLines at h
      cases hmark : b.mark with
      | some mark =>
          rw [hmark] at h
          obtain ⟨ns, hns, rfl⟩ := toList_markedLine h
          cases mark with
          | operator o => exact absurd hmark (marks b (.first held) o)
          | quantifier q =>
              obtain ⟨parts, hparts, rfl⟩ := flattens_of_literals hns
              refine ⟨_, .scope parts held hmark hparts, ?_⟩
              simp [renderScopes, scopeLine]
      | none =>
          rw [hmark] at h
          obtain ⟨parts, hparts, h⟩ := exists_ok_of_bind h
          cases h
          obtain ⟨line, rfl, hline⟩ := exists_map_of_mapM hparts
          have hinner : ∀ e ∈ b.body, ∃ scopes, φ.Quantifies e scopes ∧
              line e = renderScopes scopes := by
            intro e he
            have hpart := hline e he
            split at hpart
            · cases hpart
            · rename_i c hc
              exact ih hc (fun d hd => marks d (.listed held hmark he hd)) hpart
          choose! scopes hscopes using hinner
          refine ⟨_, .list scopes held hmark fun e he => (hscopes e he).1, ?_⟩
          rw [← join_map_renderScopes]
          exact congrArg String.join (List.map_congr_left fun e he => (hscopes e he).2)

end Formula

end QuantFamily
