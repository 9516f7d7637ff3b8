import Mathlib.Data.List.TakeWhile
import QuantFamily.Proofs.Language.Lexemes
import QuantFamily.Proofs.Session.Calculus

/-!
# One name in every place

A name with indices is looked up under the text that it was stored under, so all places should turn
the same indices into the same text. Block heads and bricks write the numbers that the indices stand
for. A declaration with ranges writes the numbers of the indices that it binds and leaves the others
as they are; a declaration without ranges, an attribute and the output block leave all of them as
they are. The texts are compared here, index by index.
-/

namespace QuantFamily

open QuantFamily.Expr (Value)

/-! ## Texts of indexed names -/

theorem toList_indexedName (name : String) (indices : List String) :
    (indexedName name indices).toList =
      name.toList ++ '(' :: ((indices.flatMap fun ix => ' ' :: ix.toList) ++ [' ', ')']) := by
  unfold indexedName
  rw [String.toList_append, String.toList_append, String.toList_append, String.toList_join]
  simp [List.flatMap_map]

/-- A text without white space. -/
def Blankless (text : String) : Prop :=
  ∀ c ∈ text.toList, Text.isBlank c = false

theorem blankless_showInt (n : Int) : Blankless (Text.showInt n) :=
  fun _ hc => Text.isBlank_eq_false_of_mem_showInt hc

theorem splitAt_spaced {x : String} {xs : List String} (hx : Blankless x)
    (hxs : ∀ y ∈ xs, Blankless y) :
    Text.splitAt Text.isBlank (x.toList ++ xs.flatMap fun y => ' ' :: y.toList) =
      x.toList :: xs.map String.toList := by
  induction xs generalizing x with
  | nil =>
      rw [List.flatMap_nil, List.append_nil, Text.splitAt_of_not_mem hx]
      rfl
  | cons y ys ih =>
      rw [List.forall_mem_cons] at hxs
      rw [List.flatMap_cons, List.cons_append, Text.splitAt_append_cons (by decide),
        Text.splitAt_of_not_mem hx, ih hxs.1 hxs.2]
      rfl

/-- Indices can be read off the text of a name. -/
theorem indexedName_inj {name : String} {xs ys : List String} (hxs : ∀ x ∈ xs, Blankless x)
    (hys : ∀ y ∈ ys, Blankless y) : indexedName name xs = indexedName name ys ↔ xs = ys := by
  constructor
  · intro h
    have hlist := congrArg String.toList h
    rw [toList_indexedName, toList_indexedName] at hlist
    have hspaced := List.append_cancel_right (List.cons.inj (List.append_cancel_left hlist)).2
    have hempty : Blankless "" := fun c hc => absurd hc (by simp)
    have hsplit := congrArg (Text.splitAt Text.isBlank) hspaced
    have hmap := (splitAt_spaced hempty hxs).symm.trans (hsplit.trans (splitAt_spaced hempty hys))
    exact (List.map_inj_right fun _ _ => String.toList_injective).mp (List.cons.inj hmap).2
  · intro h
    rw [h]

/-! ## Indices -/

namespace Language

/-- A text that is read as an index. -/
def IsIndex (ix : String) : Prop :=
  ∃ text, Terminal.index.lexeme? .full text = some ix.toList

variable {ix : String}

/-- An index is a name that begins with a small letter, or it is made of digits. -/
theorem IsIndex.cases (h : IsIndex ix) :
    (∃ c rest, ix.toList = c :: rest ∧ c.isLower = true ∧
      ∀ d ∈ rest, continuesName .full d = true) ∨
    (ix.toList ≠ [] ∧ ∀ c ∈ ix.toList, c.isDigit = true) := by
  obtain ⟨text, h⟩ := h
  rcases index_cases h with hname | ⟨-, hnumber⟩
  · obtain ⟨c, rest, -, hlower, hix⟩ := exists_of_nameFrom hname
    exact Or.inl ⟨c, _, hix, hlower, fun d hd => List.mem_takeWhile_imp hd⟩
  · obtain ⟨hix, hne⟩ := takeWhile_of_runOf hnumber
    refine Or.inr ⟨hne, fun c hc => ?_⟩
    rw [hix] at hc
    exact List.mem_takeWhile_imp hc

theorem isBlank_eq_false_of_continuesName {c : Char} (h : continuesName .full c = true) :
    Text.isBlank c = false := by
  have hunextended : (!(Text.isBlank c || (",:;()".toList.contains c) || c.toNat == 0x7b ||
      c.toNat == 0x7d)) = true := h
  simp only [Bool.not_eq_true', Bool.or_eq_false_iff] at hunextended
  exact hunextended.1.1.1

theorem isBlank_eq_false_of_isDigit {c : Char} (h : c.isDigit = true) :
    Text.isBlank c = false := by
  have hrange := Text.toNat_of_isDigit h
  simp only [Text.isBlank, Text.inRanges, Text.blankRanges, List.any_cons, List.any_nil,
    Bool.or_false, Bool.or_eq_false_iff, Bool.and_eq_false_iff, decide_eq_false_iff_not]
  omega

theorem continuesName_full {edition : Edition} {c : Char}
    (h : continuesName edition c = true) : continuesName .full c = true := by
  cases edition with
  | full => exact h
  | classic => exact continuesName_full_of_classic h
  | split => exact continuesName_full_of_classic h
  | tracing => exact continuesName_full_of_classic h

/-- What any edition reads as an index has no blanks. -/
theorem blankless_of_index {edition : Edition} {source : List Char}
    (h : Terminal.index.lexeme? edition source = some ix.toList) : Blankless ix := by
  intro c hc
  rcases index_cases h with hname | ⟨-, hnumber⟩
  · obtain ⟨first, rest, -, hlower, hix⟩ := exists_of_nameFrom hname
    rw [hix, List.mem_cons] at hc
    rcases hc with rfl | hc
    · exact Text.isBlank_eq_false_of_isAlpha (Text.isAlpha_of_isLower hlower)
    · exact isBlank_eq_false_of_continuesName (continuesName_full (List.mem_takeWhile_imp hc))
  · rw [(takeWhile_of_runOf hnumber).1] at hc
    exact isBlank_eq_false_of_isDigit (List.mem_takeWhile_imp hc)

theorem IsIndex.blankless (h : IsIndex ix) : Blankless ix := by
  obtain ⟨text, h⟩ := h
  exact blankless_of_index h

/-- An index of digits is a numeral. -/
theorem IsIndex.exists_readInt? (h : IsIndex ix) (digits : ∀ c ∈ ix.toList, c.isDigit = true) :
    ∃ n, Text.readInt? ix.toList = some n := by
  have hne : ix.toList ≠ [] := by
    rcases h.cases with ⟨first, rest, hix, -⟩ | ⟨hne, -⟩
    · rw [hix]
      exact List.cons_ne_nil first rest
    · exact hne
  have hread : Text.readDigits 10 ix.toList false 0 = some _ :=
    Text.readDigits_of_isDigit digits (Or.inl hne) 0
  have hstart : ∀ {c rest}, ix.toList = c :: rest → 48 ≤ c.toNat := by
    intro c rest hix
    exact (Text.toNat_of_isDigit (digits c (hix ▸ List.mem_cons_self))).1
  rw [Text.readInt?, Text.trim_eq_self h.blankless, Text.readSigned, hread]
  · exact ⟨_, rfl⟩
  · intro rest hix
    exact absurd (hstart hix) (by decide)
  · intro rest hix
    exact absurd (hstart hix) (by decide)

end Language

/-- A table of integers. -/
def Integral (table : Table String Value) : Prop :=
  ∀ x ∈ table.values, ∃ n, x = .int n

theorem Integral.get? {table : Table String Value} (h : Integral table) {key : String} {x : Value}
    (hx : table.get? key = some x) : ∃ n, x = .int n :=
  h x (Table.mem_values_of_get? hx)

namespace Formula

variable {φ : Formula} {v left more : Valuation} {ix : String}

/-- The integer that an index stands for where the valuation binds it, or zero if it does not stand
for an integer. -/
def indexValue (φ : Formula) (v : Valuation) (ix : String) : Int :=
  match φ.substituteIndex v {} ix with
  | .ok (.int n) => n
  | _ => 0

/-- The text is a numeral, the name of a value, or bound by the valuation. -/
def Knows (φ : Formula) (v : Valuation) (ix : String) : Prop :=
  (∀ c ∈ ix.toList, c.isDigit = true) ∨ ix ∈ φ.values.keys ∨ ix ∈ v.keys

theorem substituteIndex_eq (values : Integral φ.values) (bound : Integral v)
    (token : Language.IsIndex ix) (known : φ.Knows v ix) :
    φ.substituteIndex v {} ix = .ok (.int (φ.indexValue v ix)) := by
  have hsome : ∃ n, φ.substituteIndex v {} ix = .ok (.int n) := by
    unfold substituteIndex
    cases hvalue : φ.values.get? ix with
    | some x =>
        obtain ⟨n, rfl⟩ := values.get? hvalue
        exact ⟨n, rfl⟩
    | none =>
        cases hbound : v.get? ix with
        | some x =>
            obtain ⟨n, rfl⟩ := bound.get? hbound
            exact ⟨n, rfl⟩
        | none =>
            rcases known with hdigits | hmem | hmem
            · obtain ⟨n, hn⟩ := token.exists_readInt? hdigits
              refine ⟨n, ?_⟩
              dsimp only
              rw [Table.get?_empty]
              dsimp only
              rw [hn]
            · exact absurd hmem (Table.get?_eq_none_iff.mp hvalue)
            · exact absurd hmem (Table.get?_eq_none_iff.mp hbound)
  obtain ⟨n, hn⟩ := hsome
  rw [indexValue, hn]

/-- An index is looked up in the head's part of the valuation first. -/
theorem substituteIndex_of_agree (agree : (left.get? ix).or (more.get? ix) = v.get? ix) :
    φ.substituteIndex left more ix = φ.substituteIndex v {} ix := by
  unfold substituteIndex
  rw [← agree]
  cases φ.values.get? ix with
  | some x => rfl
  | none =>
      cases left.get? ix with
      | some x => rfl
      | none => cases more.get? ix <;> rfl

end Formula

section Names

variable {φ : Formula} {v left more : Valuation} {indices : List String}

/-- The name with the numbers that its indices stand for. -/
def resolvedName (φ : Formula) (v : Valuation) (name : String) (indices : List String) : String :=
  indexedName name (indices.map fun ix => Text.showInt (φ.indexValue v ix))

theorem headName_ints (name : String) (ns : List Int) :
    headName name (ns.map .int) = .ok (indexedName name (ns.map Text.showInt)) := by
  have hkeys : (ns.map Value.int).all Value.isKey = true := by simp [Value.isKey]
  rw [headName, if_pos hkeys, List.map_map]
  rfl

/-- Integers cannot be mistaken for indices. -/
theorem brickName_ints (name : String) (ns : List Int) (written : List String) :
    brickName name (ns.map .int) written = .ok (indexedName name (ns.map Text.showInt)) := by
  unfold brickName
  dsimp only
  rw [if_neg (by simp), List.map_map]
  rfl

theorem substitute_eq (values : Integral φ.values) (bound : Integral v)
    (tokens : ∀ ix ∈ indices, Language.IsIndex ix) (known : ∀ ix ∈ indices, φ.Knows v ix)
    (agree : ∀ ix ∈ indices, (left.get? ix).or (more.get? ix) = v.get? ix) :
    φ.substitute indices left more = .ok ((indices.map (φ.indexValue v)).map .int) := by
  have hindex : ∀ ix ∈ indices,
      φ.substituteIndex left more ix = .ok (.int (φ.indexValue v ix)) := by
    intro ix hix
    rw [Formula.substituteIndex_of_agree (agree ix hix)]
    exact Formula.substituteIndex_eq values bound (tokens ix hix) (known ix hix)
  rw [List.map_map]
  exact mapM_ok_of_forall hindex

/-- How a declaration with ranges writes an index. -/
theorem declared_index_iff (bound : Integral v) (ix : String) (n : Int) :
    ((v.get? ix).map Value.text).getD ix = Text.showInt n ↔
      v.get? ix = some (.int n) ∨ v.get? ix = none ∧ ix = Text.showInt n := by
  cases hget : v.get? ix with
  | none => simp
  | some x =>
      obtain ⟨m, rfl⟩ := bound.get? hget
      have htext : ((some (Value.int m)).map Value.text).getD ix = Text.showInt m := rfl
      rw [htext]
      constructor
      · intro h
        rw [Text.showInt_injective h]
        exact Or.inl rfl
      · rintro (h | ⟨h, -⟩)
        · cases h
          rfl
        · cases h

/-- Block heads and bricks write the numbers that the indices stand for. A declaration with ranges
agrees with them exactly if each index is bound to its number or, where it is not bound, spelled as
its number is written. The other places agree exactly if every index is spelled so. -/
theorem indexed_names_agree_iff (name : String) (values : Integral φ.values) (bound : Integral v)
    (tokens : ∀ ix ∈ indices, Language.IsIndex ix) (known : ∀ ix ∈ indices, φ.Knows v ix)
    (agree : ∀ ix ∈ indices, (left.get? ix).or (more.get? ix) = v.get? ix) :
    (φ.substitute indices v >>= headName name) = .ok (resolvedName φ v name indices) ∧
    (φ.substitute indices left more >>= fun values => brickName name values indices) =
      .ok (resolvedName φ v name indices) ∧
    (declaredName name indices v = resolvedName φ v name indices ↔
      ∀ ix ∈ indices, v.get? ix = some (.int (φ.indexValue v ix)) ∨
        v.get? ix = none ∧ ix = Text.showInt (φ.indexValue v ix)) ∧
    (indexedName name indices = resolvedName φ v name indices ↔
      ∀ ix ∈ indices, ix = Text.showInt (φ.indexValue v ix)) := by
  have hresolved : resolvedName φ v name indices =
      indexedName name ((indices.map (φ.indexValue v)).map Text.showInt) := by
    rw [List.map_map]
    rfl
  have hblank : ∀ x ∈ indices.map fun ix => Text.showInt (φ.indexValue v ix), Blankless x := by
    intro x hx
    obtain ⟨ix, -, rfl⟩ := List.mem_map.mp hx
    exact blankless_showInt _
  have hhead : φ.substitute indices v = .ok ((indices.map (φ.indexValue v)).map .int) :=
    substitute_eq values bound tokens known fun ix _ => by rw [Table.get?_empty, Option.or_none]
  have hbrick := substitute_eq values bound tokens known agree
  refine ⟨?_, ?_, ?_, ?_⟩
  · rw [hhead, hresolved]
    exact headName_ints name _
  · rw [hbrick, hresolved]
    exact brickName_ints name _ indices
  · have hdeclared : ∀ x ∈ indices.map fun ix => ((v.get? ix).map Value.text).getD ix,
        Blankless x := by
      intro x hx
      obtain ⟨ix, hix, rfl⟩ := List.mem_map.mp hx
      cases hget : v.get? ix with
      | none => exact (tokens ix hix).blankless
      | some x =>
          obtain ⟨m, rfl⟩ := bound.get? hget
          exact blankless_showInt m
    rw [declaredName, resolvedName, indexedName_inj hdeclared hblank, List.map_inj_left]
    exact forall_congr' fun ix => imp_congr_right fun _ => declared_index_iff bound ix _
  · have htokens : ∀ x ∈ indices, Blankless x := fun x hx => (tokens x hx).blankless
    have hspelled : indices = (indices.map fun ix => Text.showInt (φ.indexValue v ix)) ↔
        indices.map (fun ix => ix) = indices.map fun ix => Text.showInt (φ.indexValue v ix) := by
      rw [List.map_id']
    rw [resolvedName, indexedName_inj htokens hblank, hspelled]
    exact List.map_inj_left

end Names

/-- A formula with a value for `n`. -/
def valuedFormula : Formula :=
  { values := ({} : Table String Value).put "n" (.int 3) }

/-- A valuation that binds `i`. -/
def boundIndex : Valuation :=
  ({} : Valuation).put "i" (.int 2)

theorem indexed_names_agree_iff_bound :
    Integral valuedFormula.values ∧ Integral boundIndex ∧
      (∀ ix ∈ ["i", "7"], Language.IsIndex ix) ∧
      (∀ ix ∈ ["i", "7"], valuedFormula.Knows boundIndex ix) ∧
      (∀ ix ∈ ["i", "7"], (boundIndex.get? ix).or (({} : Valuation).get? ix) = boundIndex.get? ix) ∧
      resolvedName valuedFormula boundIndex "x" ["i", "7"] = "x( 2 7 )" ∧
      declaredName "x" ["i", "7"] boundIndex =
        resolvedName valuedFormula boundIndex "x" ["i", "7"] ∧
      indexedName "x" ["i", "7"] ≠ resolvedName valuedFormula boundIndex "x" ["i", "7"] := by
  have hvalues : Integral valuedFormula.values := by
    intro x hx
    exact ⟨3, List.mem_singleton.mp hx⟩
  have hbound : Integral boundIndex := by
    intro x hx
    exact ⟨2, List.mem_singleton.mp hx⟩
  have htokens : ∀ ix ∈ ["i", "7"], Language.IsIndex ix := by
    intro ix hix
    rw [List.mem_cons, List.mem_singleton] at hix
    rcases hix with rfl | rfl
    · exact ⟨['i'], by decide⟩
    · exact ⟨['7'], by decide⟩
  have hknown : ∀ ix ∈ ["i", "7"], valuedFormula.Knows boundIndex ix := by
    intro ix hix
    rw [List.mem_cons, List.mem_singleton] at hix
    rcases hix with rfl | rfl
    · exact Or.inr (Or.inr (by decide))
    · exact Or.inl (List.all_eq_true.mp (by decide))
  have hagree : ∀ ix ∈ ["i", "7"],
      (boundIndex.get? ix).or (({} : Valuation).get? ix) = boundIndex.get? ix :=
    fun ix _ => by rw [Table.get?_empty, Option.or_none]
  obtain ⟨-, -, hdeclared, hraw⟩ :=
    indexed_names_agree_iff "x" hvalues hbound htokens hknown hagree
  refine ⟨hvalues, hbound, htokens, hknown, hagree, by decide +kernel, hdeclared.mpr ?_, ?_⟩
  · intro ix hix
    rw [List.mem_cons, List.mem_singleton] at hix
    rcases hix with rfl | rfl
    · exact Or.inl (by rfl)
    · exact Or.inr ⟨rfl, by decide +kernel⟩
  · intro h
    exact absurd (hraw.mp h "i" List.mem_cons_self) (by decide +kernel)

/-! ## Names that are not found again -/

/-- What statements end in. -/
def outcomeOf (statements : List Language.Statement) : Except Fault Unit :=
  (Action.perform (statements.forM (Language.Statement.perform .full false)) {}).1

/-- A block whose index is the name of a value is not found by an attribute or as the output block,
nor a variable by a brick if its numeral has a zero in front or its index is the name of a value. -/
theorem indexed_names_differ :
    outcomeOf [.value "n" "2", .vars "x" [] [], .blocks [⟨"B", ["n"], [.ref false "x" []]⟩] [] none,
        .mark [("B", ["n"])] "OR"] = .error (.undeclaredBrick "B( n )") ∧
      outcomeOf [.value "n" "2", .vars "x" [] [],
        .blocks [⟨"B", ["n"], [.ref false "x" []]⟩] [] none, .output "B" ["n"]] =
        .error (.undeclaredBrick "B( n )") ∧
      outcomeOf [.vars "x" ["01"] [], .blocks [⟨"B", [], [.ref false "x" ["01"]]⟩] [] none] =
        .error (.undeclaredBrick "x( 1 )") ∧
      outcomeOf [.value "i" "5", .vars "x" ["i"] [.range "i" "1" "2"],
        .blocks [⟨"B", ["i"], [.ref false "x" ["i"]]⟩] [.range "i" "1" "2"] none] =
        .error (.undeclaredBrick "x( 5 )") := by
  decide +kernel

end QuantFamily
