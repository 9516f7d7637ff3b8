import QuantFamily.Expr.Value
import QuantFamily.Proofs.Text.Numeral

/-!
# Shown values

A value is shown in one line, whatever texts, numbers and names it holds: line feeds and carriage
returns in texts are escaped, and nothing else that is shown has any.
-/

namespace QuantFamily

variable {b : Char}

/-! ## Quoted texts -/

namespace Text

theorem break_not_mem_toDigits (hb : b = '\n' ∨ b = '\r') {base : Nat} (hlow : 1 < base)
    (hhigh : base ≤ 16) (n : Nat) : b ∉ Nat.toDigits base n := by
  have hdigit : ∀ d < 16, d.digitChar ≠ b := by
    rcases hb with rfl | rfl <;> decide
  induction n using Nat.strongRecOn with
  | ind n ih =>
      by_cases hsmall : n < base
      · rw [Nat.toDigits_of_lt_base hsmall, List.mem_singleton]
        exact (hdigit n (by omega)).symm
      · have hmod := Nat.mod_lt n (Nat.zero_lt_of_lt hlow)
        rw [Nat.toDigits_of_base_le hlow (Nat.le_of_not_lt hsmall), List.mem_append,
          List.mem_singleton, not_or]
        exact ⟨ih _ (Nat.div_lt_self (by omega) hlow), (hdigit _ (by omega)).symm⟩

theorem newline_not_mem_toDigits {base : Nat} (hlow : 1 < base) (hhigh : base ≤ 16) (n : Nat) :
    '\n' ∉ Nat.toDigits base n :=
  break_not_mem_toDigits (.inl rfl) hlow hhigh n

theorem break_not_mem_escapeCode (hb : b = '\n' ∨ b = '\r') (c : Char) : b ∉ escapeCode c := by
  have hhex : ∀ width n, b ∉ hex width n := by
    intro width n
    rw [hex, List.mem_append, List.mem_replicate, not_or, not_and]
    refine ⟨fun _ => ?_, break_not_mem_toDigits hb (by decide) (by decide) n⟩
    rcases hb with rfl | rfl <;> decide
  unfold escapeCode
  split
  · rcases hb with rfl | rfl <;> simp [hhex]
  · split <;> rcases hb with rfl | rfl <;> simp [hhex]

theorem break_not_mem_quoteChar (hb : b = '\n' ∨ b = '\r') {mark : Char} (hmark : mark ≠ b)
    (c : Char) : b ∉ quoteChar mark c := by
  have hplain : ∀ d ∈ ['\\', 'n', 'r', 't'], b ≠ d := by
    rcases hb with rfl | rfl <;> simp
  unfold quoteChar
  split
  · rename_i hescaped
    have hc : b ≠ c := by
      rintro rfl
      rcases hescaped with heq | heq
      · exact hmark heq.symm
      · exact hplain _ (by simp) heq
    simp [hplain, hc]
  · split
    · simp [hplain]
    · rename_i hline
      split
      · simp [hplain]
      · rename_i hreturn
        split
        · simp [hplain]
        · split
          · rw [List.mem_singleton]
            rintro rfl
            exact hb.elim hline hreturn
          · exact break_not_mem_escapeCode hb c

theorem break_not_mem_quote (hb : b = '\n' ∨ b = '\r') (text : String) :
    b ∉ (quote text).toList := by
  have hmark : quoteFor text.toList ≠ b := by
    unfold quoteFor
    split <;> rcases hb with rfl | rfl <;> decide
  simp only [quote, String.toList_ofList, List.mem_append, List.mem_cons, List.mem_flatMap,
    List.not_mem_nil, or_false, not_or, not_exists, not_and]
  exact ⟨⟨hmark.symm, fun c _ => break_not_mem_quoteChar hb hmark c⟩, hmark.symm⟩

end Text

/-! ## Decimals -/

namespace Decimal

theorem break_not_mem_significantDigits (hb : b = '\n' ∨ b = '\r') (n : Nat) :
    b ∉ significantDigits n := by
  unfold significantDigits
  dsimp only
  split
  · rcases hb with rfl | rfl <;> decide
  · intro h
    rw [List.mem_reverse] at h
    have hmem := List.mem_reverse.mp ((List.dropWhile_sublist _).subset h)
    rw [Nat.toString_eq_ofList_toDigits, String.toList_ofList] at hmem
    exact Text.break_not_mem_toDigits hb (by decide) (by decide) n hmem

theorem break_not_mem_render (hb : b = '\n' ∨ b = '\r') (layout : Layout) {digits : List Char}
    (h : b ∉ digits) (place : Int) : b ∉ layout.render digits place := by
  have hpower : b ∉ Nat.toDigits 10 (place - 1).natAbs :=
    Text.break_not_mem_toDigits hb (by decide) (by decide) _
  have hplain : ∀ d ∈ ['.', '0', 'e', '+', '-'], b ≠ d := by
    rcases hb with rfl | rfl <;> simp
  unfold Layout.render
  split
  · split
    · split
      · simp [h, hplain]
      · split
        · simp [h, hplain]
        · rw [List.mem_append, List.mem_cons, not_or, not_or]
          exact ⟨fun hmem => h (List.mem_of_mem_take hmem), hplain _ (by simp),
            fun hmem => h (List.mem_of_mem_drop hmem)⟩
    · simp [h, hplain]
  · dsimp only
    split
    · exact List.not_mem_nil
    · rw [List.mem_singleton] at h
      split <;> split <;> simp [h, hpower, hplain]
    · rw [List.mem_cons, not_or] at h
      split <;> split <;> simp [h, hpower, hplain]

theorem break_not_mem_text (hb : b = '\n' ∨ b = '\r') (x : Float) : b ∉ (text x).toList := by
  unfold text
  split
  · rcases hb with rfl | rfl <;> decide
  · split <;> rcases hb with rfl | rfl <;> decide
  · rename_i negative mantissa exponent _
    dsimp only
    rw [String.toList_ofList]
    have hbody : ∀ digits place, b ∉ if mantissa = 0 then ['0', '.', '0']
        else Layout.plain.render (significantDigits digits) place := by
      intro digits place
      split
      · rcases hb with rfl | rfl <;> decide
      · exact break_not_mem_render hb _ (break_not_mem_significantDigits hb digits) place
    split
    · rw [List.mem_cons, not_or]
      refine ⟨?_, hbody _ _⟩
      rcases hb with rfl | rfl <;> decide
    · exact hbody _ _

end Decimal

/-! ## Values -/

namespace Expr.Value

theorem break_not_mem_intercalate (hb : b = '\n' ∨ b = '\r') {parts : List String}
    (h : ∀ part ∈ parts, b ∉ part.toList) : b ∉ (", ".intercalate parts).toList := by
  induction parts with
  | nil => simp
  | cons part parts ih =>
      rw [List.forall_mem_cons] at h
      cases parts with
      | nil => simpa using h.1
      | cons other parts =>
          have hrest := ih h.2
          rw [String.toList_intercalate, List.map_cons] at hrest ⊢
          rw [List.map_cons, List.intercalate_cons_cons, List.mem_append, List.mem_append, not_or,
            not_or]
          refine ⟨⟨h.1, ?_⟩, hrest⟩
          rcases hb with rfl | rfl <;> decide

theorem break_not_mem_joinEntries (hb : b = '\n' ∨ b = '\r') (names : List String)
    {values : List String} (h : ∀ value ∈ values, b ∉ value.toList) :
    ∀ part ∈ joinEntries names values, b ∉ part.toList := by
  have hcolon : b ∉ ": ".toList := by
    rcases hb with rfl | rfl <;> decide
  induction names generalizing values with
  | nil => simp [joinEntries]
  | cons name names ih =>
      cases values with
      | nil => simp [joinEntries]
      | cons value values =>
          rw [List.forall_mem_cons] at h
          rw [joinEntries, List.forall_mem_cons]
          refine ⟨?_, ih h.2⟩
          rw [String.toList_append, String.toList_append, List.mem_append, List.mem_append, not_or,
            not_or]
          exact ⟨⟨Text.break_not_mem_quote hb name, hcolon⟩, h.1⟩

mutual

theorem break_not_mem_render (hb : b = '\n' ∨ b = '\r') (v : Value) : b ∉ v.render.toList := by
  have hint : ∀ n, b ∉ (Text.showInt n).toList := by
    rcases hb with rfl | rfl <;> exact Text.not_mem_showInt (by decide) (by decide)
  cases v with
  | none => rcases hb with rfl | rfl <;> decide
  | bool t => cases t <;> rcases hb with rfl | rfl <;> decide
  | int n => exact hint n
  | real x => exact Decimal.break_not_mem_text hb x
  | str s => exact Text.break_not_mem_quote hb s
  | list items =>
      have hitems := break_not_mem_intercalate hb (break_not_mem_renderAll hb items)
      rcases hb with rfl | rfl <;> simpa [render] using hitems
  | tuple items =>
      have hitems := break_not_mem_renderAll hb items
      rw [render]
      split
      · rename_i item hone
        rw [hone] at hitems
        rcases hb with rfl | rfl <;> simpa using hitems
      · have hjoined := break_not_mem_intercalate hb hitems
        rcases hb with rfl | rfl <;> simpa using hjoined
  | range start stop step =>
      rw [render]
      split <;> rcases hb with rfl | rfl <;> simp [hint]
  | record names values =>
      have hitems := break_not_mem_intercalate hb
        (break_not_mem_joinEntries hb names (break_not_mem_renderAll hb values))
      rcases hb with rfl | rfl <;> simpa [render] using hitems
  | builtin f => cases f <;> rcases hb with rfl | rfl <;> decide
  | formula => rcases hb with rfl | rfl <;> decide
  | drained => rcases hb with rfl | rfl <;> decide

theorem break_not_mem_renderAll (hb : b = '\n' ∨ b = '\r') (items : List Value) :
    ∀ part ∈ renderAll items, b ∉ part.toList := by
  cases items with
  | nil => simp [renderAll]
  | cons item items =>
      rw [renderAll, List.forall_mem_cons]
      exact ⟨break_not_mem_render hb item, break_not_mem_renderAll hb items⟩

end

theorem newline_not_mem_render (v : Value) : '\n' ∉ v.render.toList :=
  break_not_mem_render (.inl rfl) v

end Expr.Value

end QuantFamily
