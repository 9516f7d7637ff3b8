import Mathlib.Data.List.Nodup
import QuantFamily.Proofs.Block.Naming
import QuantFamily.Proofs.State.WellFormed

/-!
# Names that cannot be confused

Variables and blocks are stored under one text each. The first bracket of the text ends the name,
and a blank stands in front of every index, so name and indices can be read off the text as long as
the name has no bracket and no index has a blank. Numbers and the indices of the language have none,
however they come into the text: as they stand, through the values that a declaration binds, or as
values of a block head or a brick. Since no identifier is given out twice, what has one identifier
has one name and one list of indices.
-/

namespace QuantFamily

open QuantFamily.Expr (Value)

/-- An index: a number, or a text that some edition of the language reads as an index. -/
inductive Index where
  | number (n : Int)
  | token (edition : Edition) (text : String)
      (isToken : ∃ source, Language.Terminal.index.lexeme? edition source = some text.toList)

namespace Index

/-- The value that stands for an index in a block head or a brick. -/
def value : Index → Value
  | number n => .int n
  | token _ text _ => .str text

/-- How an index is written. -/
def text (ix : Index) : String :=
  ix.value.text

end Index

/-- A name with indices has a text: with the indices as they stand, with the values that a
declaration binds in their place, or as the name of a block head or a brick. -/
inductive Spells (name : String) (indices : List Index) : String → Prop
  | plain : Spells name indices (indexedName name (indices.map Index.text))
  | declared {written : List String} {v : Valuation}
      (stand : written.map (fun ix => (v.get? ix).getD (.str ix)) = indices.map Index.value) :
      Spells name indices (declaredName name written v)
  | head {text : String} (h : headName name (indices.map Index.value) = .ok text) :
      Spells name indices text
  | brick {written : List String} {text : String}
      (h : brickName name (indices.map Index.value) written = .ok text) : Spells name indices text

/-! ## One text in all places -/

theorem map_text_value (indices : List Index) :
    (indices.map Index.value).map Value.text = indices.map Index.text := by
  rw [List.map_map]
  rfl

theorem declaredName_eq (name : String) (written : List String) (v : Valuation) :
    declaredName name written v =
      indexedName name ((written.map fun ix => (v.get? ix).getD (.str ix)).map Value.text) := by
  rw [declaredName, List.map_map]
  refine congrArg (indexedName name) (List.map_congr_left fun ix _ => ?_)
  rw [Function.comp_apply]
  cases v.get? ix <;> rfl

theorem Spells.eq_indexedName {name text : String} {indices : List Index}
    (h : Spells name indices text) : text = indexedName name (indices.map Index.text) := by
  cases h with
  | plain => rfl
  | declared stand => rw [declaredName_eq, stand, map_text_value]
  | head h =>
      rw [headName, map_text_value] at h
      split at h
      · exact (Except.ok.inj h).symm
      · cases h
  | brick h =>
      rw [brickName, map_text_value] at h
      split at h
      · cases h
      · exact (Except.ok.inj h).symm

/-! ## Reading a text back -/

theorem Index.blankless (ix : Index) : Blankless ix.text := by
  cases ix with
  | number n => exact blankless_showInt n
  | token edition text isToken =>
      obtain ⟨source, hsource⟩ := isToken
      exact Language.blankless_of_index hsource

/-- The name ends at the first bracket. -/
theorem splitAt_indexedName {name : String} (hname : '(' ∉ name.toList) (xs : List String) :
    (Text.splitAt (· = '(') (indexedName name xs).toList).head? = some name.toList := by
  have hkept : ∀ c ∈ name.toList, decide (c = '(') = false := by
    intro c hc
    rw [decide_eq_false_iff_not]
    rintro rfl
    exact hname hc
  rw [toList_indexedName, Text.splitAt_append_cons (by decide), Text.splitAt_of_not_mem hkept]
  rfl

theorem indexedName_inj_of_bracketless {name other : String} {xs ys : List String}
    (hname : '(' ∉ name.toList) (hother : '(' ∉ other.toList) (hxs : ∀ x ∈ xs, Blankless x)
    (hys : ∀ y ∈ ys, Blankless y) :
    indexedName name xs = indexedName other ys ↔ name = other ∧ xs = ys := by
  constructor
  · intro h
    have hfirst := splitAt_indexedName hname xs
    rw [h, splitAt_indexedName hother ys, Option.some.injEq] at hfirst
    have hsame : name = other := String.toList_injective hfirst.symm
    subst hsame
    exact ⟨rfl, (indexedName_inj hxs hys).mp h⟩
  · rintro ⟨rfl, rfl⟩
    rfl

theorem Spells.text_eq_iff {name other text text' : String} {indices indices' : List Index}
    (hname : '(' ∉ name.toList) (hother : '(' ∉ other.toList) (h : Spells name indices text)
    (h' : Spells other indices' text') :
    text = text' ↔ name = other ∧ indices.map Index.text = indices'.map Index.text := by
  have hblankless : ∀ indices : List Index, ∀ x ∈ indices.map Index.text, Blankless x := by
    intro indices x hx
    obtain ⟨ix, -, rfl⟩ := List.mem_map.mp hx
    exact ix.blankless
  rw [h.eq_indexedName, h'.eq_indexedName]
  exact indexedName_inj_of_bracketless hname hother (hblankless _) (hblankless _)

/-! ## Identifiers -/

/-- No two texts have one identifier. -/
theorem Formula.WellFormed.name_eq_of_idOf? {φ : Formula} (hφ : φ.WellFormed) {text text' : String}
    {id : Id} (h : φ.idOf? text = some id) (h' : φ.idOf? text' = some id) : text = text' := by
  have hdistinct : ((φ.vars.entries ++ φ.blocks.entries).map Prod.snd).Nodup := by
    rw [List.map_append]
    exact hφ.distinct
  exact congrArg Prod.fst (List.inj_on_of_nodup_map hdistinct (mem_entries_of_idOf? h)
    (mem_entries_of_idOf? h') rfl)

/-- Two names without brackets, with indices that are numbers or indices of the language, have one
text only if they are the same name and have indices that are written alike, in whatever places the
texts come from. So in every formula that operations lead to, what has one identifier has one name
and one list of written indices. -/
theorem identifier_determines_spelled_name {name other text text' : String}
    {indices indices' : List Index} (hname : '(' ∉ name.toList) (hother : '(' ∉ other.toList)
    (h : Spells name indices text) (h' : Spells other indices' text') :
    (text = text' ↔ name = other ∧ indices.map Index.text = indices'.map Index.text) ∧
      ∀ (edition : Edition) (operations : List Operation) (s : Session) (id : Id),
        let φ := (Operation.run edition operations { s with formula := {} }).formula
        φ.idOf? text = some id → φ.idOf? text' = some id →
          name = other ∧ indices.map Index.text = indices'.map Index.text := by
  have hiff := h.text_eq_iff hname hother h'
  refine ⟨hiff, ?_⟩
  intro edition operations s id φ hid hid'
  have hφ : φ.WellFormed := Operation.wellFormed_run edition operations Formula.wellFormed_empty
  exact hiff.mp (hφ.name_eq_of_idOf? hid hid')

/-- A variable that is declared with the index 2 and one that is looked up under the written index
have one identifier. -/
theorem identifier_determines_spelled_name_declared :
    let φ := (Operation.run .full [.define false (.vars "x" ["i"] [.range "i" "1" "2"])] {}).formula
    let written : Index := .token .full "2" ⟨['2'], by decide +kernel⟩
    let bound : Valuation := Table.ofList [("i", .int 2)]
    Spells "x" [.number 2] (declaredName "x" ["i"] bound) ∧
      Spells "x" [written] (indexedName "x" ["2"]) ∧
      φ.idOf? (declaredName "x" ["i"] bound) = some 2 ∧ φ.idOf? (indexedName "x" ["2"]) = some 2 ∧
      [Index.number 2].map Index.text = [written].map Index.text := by
  intro φ written bound
  have hdeclared : Spells "x" [.number 2] (declaredName "x" ["i"] bound) := .declared rfl
  have hwritten : Spells "x" [written] (indexedName "x" ["2"]) := .plain
  have hfirst : φ.idOf? (declaredName "x" ["i"] bound) = some 2 := by decide +kernel
  have hsecond : φ.idOf? (indexedName "x" ["2"]) = some 2 := by decide +kernel
  have hsame := (identifier_determines_spelled_name (by decide) (by decide) hdeclared hwritten).2
    .full [.define false (.vars "x" ["i"] [.range "i" "1" "2"])] {} 2 hfirst hsecond
  exact ⟨hdeclared, hwritten, hfirst, hsecond, hsame.2⟩

end QuantFamily
