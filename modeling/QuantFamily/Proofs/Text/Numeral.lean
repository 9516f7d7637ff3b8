import QuantFamily.Text.Line
import QuantFamily.Text.Numeral

/-!
# Numerals read back

A written integer is a run of digits, perhaps behind a minus sign, and reading it gives the
integer back. A text that is put together word by word or line by line falls into the same words or
lines again.
-/

namespace QuantFamily.Text

/-! ## Digits -/

theorem toNat_of_isDigit {c : Char} (h : c.isDigit = true) : 48 ≤ c.toNat ∧ c.toNat ≤ 57 := by
  simp only [Char.isDigit, Bool.and_eq_true, decide_eq_true_eq] at h
  exact ⟨h.1, h.2⟩

theorem toNat_of_isAlpha {c : Char} (h : c.isAlpha = true) : 65 ≤ c.toNat ∧ c.toNat ≤ 122 := by
  rcases Bool.or_eq_true_iff.mp h with hupper | hlower
  · have hrange : 65 ≤ c.toNat ∧ c.toNat ≤ 90 := of_decide_eq_true hupper
    omega
  · obtain ⟨hlow, hhigh⟩ := Bool.and_eq_true_iff.mp hlower
    have ha : 97 ≤ c.toNat := of_decide_eq_true hlow
    have hz : c.toNat ≤ 122 := of_decide_eq_true hhigh
    omega

theorem isAlpha_of_isLower {c : Char} (h : c.isLower = true) : c.isAlpha = true :=
  Bool.or_eq_true_iff.mpr (Or.inr h)

theorem isAlpha_of_isUpper {c : Char} (h : c.isUpper = true) : c.isAlpha = true :=
  Bool.or_eq_true_iff.mpr (Or.inl h)

theorem alphanumValue?_of_isDigit {c : Char} (h : c.isDigit = true) :
    alphanumValue? c = some (c.toNat - 48) := by
  have hrange := toNat_of_isDigit h
  have hlower : ¬ ('a' ≤ c ∧ c ≤ 'z') := by
    rintro ⟨ha, -⟩
    have : 97 ≤ c.toNat := ha
    omega
  have hupper : ¬ ('A' ≤ c ∧ c ≤ 'Z') := by
    rintro ⟨ha, -⟩
    have : 65 ≤ c.toNat := ha
    omega
  rw [alphanumValue?, if_neg hlower, if_neg hupper, digitValue?, digitZeros,
    List.find?_cons_of_pos]
  · rfl
  · simp
    omega

theorem readDigits_of_isDigit {digits : List Char} (h : ∀ c ∈ digits, c.isDigit = true)
    {afterDigit : Bool} (hsome : digits ≠ [] ∨ afterDigit = true) (acc : Nat) :
    readDigits 10 digits afterDigit acc = some (Nat.ofDigitChars 10 digits acc) := by
  induction digits generalizing afterDigit acc with
  | nil => simp_all [readDigits]
  | cons c rest ih =>
      have hc := h c List.mem_cons_self
      have hrange := toNat_of_isDigit hc
      have hne : c ≠ '_' := by
        rintro rfl
        simp at hrange
      rw [readDigits, alphanumValue?_of_isDigit hc]
      · dsimp only
        rw [if_pos (by omega), ih (fun d hd => h d (List.mem_cons_of_mem c hd)) (Or.inr rfl),
          Nat.ofDigitChars_cons, Nat.mul_comm]
        rfl
      · exact hne

/-! ## Written integers -/

theorem toList_showInt (n : Int) :
    (showInt n).toList = (if n < 0 then ['-'] else []) ++ Nat.toDigits 10 n.natAbs := by
  cases n with
  | ofNat n =>
      have hneg : ¬ Int.ofNat n < 0 := Int.not_lt.mpr (Int.natCast_nonneg n)
      rw [if_neg hneg]
      exact Nat.toList_repr
  | negSucc n =>
      rw [if_pos (Int.negSucc_lt_zero n), showInt, String.toList_append, Nat.toList_repr]
      rfl

theorem isDigit_of_mem_toDigits {n : Nat} {c : Char} (h : c ∈ Nat.toDigits 10 n) :
    c.isDigit = true :=
  Nat.isDigit_of_mem_toDigits (by decide) (by decide) h

/-- A written integer has no other characters than digits and the sign. -/
theorem mem_showInt {n : Int} {c : Char} (h : c ∈ (showInt n).toList) :
    c = '-' ∨ c.isDigit = true := by
  rw [toList_showInt] at h
  rcases List.mem_append.mp h with hsign | hdigit
  · split at hsign
    · exact Or.inl (List.mem_singleton.mp hsign)
    · cases hsign
  · exact Or.inr (isDigit_of_mem_toDigits hdigit)

theorem isDigit_of_mem_showInt {n : Int} (hn : 0 ≤ n) {c : Char} (h : c ∈ (showInt n).toList) :
    c.isDigit = true := by
  rw [toList_showInt, if_neg (Int.not_lt.mpr hn), List.nil_append] at h
  exact isDigit_of_mem_toDigits h

theorem toList_showInt_of_neg {n : Int} (h : n < 0) :
    (showInt n).toList = '-' :: (showInt (n.natAbs : Int)).toList := by
  rw [toList_showInt, toList_showInt, if_pos h, if_neg (Int.not_lt.mpr (Int.natCast_nonneg _))]
  rfl

theorem not_mem_showInt {c : Char} (hdigit : c.isDigit = false) (hsign : c ≠ '-') (n : Int) :
    c ∉ (showInt n).toList := by
  intro hc
  rcases mem_showInt hc with rfl | h
  · exact hsign rfl
  · rw [hdigit] at h
    cases h

theorem showInt_ne_nil (n : Int) : (showInt n).toList ≠ [] := by
  rw [toList_showInt]
  exact List.append_ne_nil_of_right_ne_nil _ Nat.toDigits_ne_nil

theorem isBlank_eq_false_of_mem_showInt {n : Int} {c : Char} (h : c ∈ (showInt n).toList) :
    isBlank c = false := by
  rcases mem_showInt h with rfl | hdigit
  · decide
  · have hrange := toNat_of_isDigit hdigit
    simp only [isBlank, inRanges, blankRanges, List.any_cons, List.any_nil, Bool.or_false,
      Bool.or_eq_false_iff, Bool.and_eq_false_iff, decide_eq_false_iff_not]
    omega

theorem toList_showInts_cons (separator : String) (n m : Int) (ns : List Int) :
    (showInts separator (n :: m :: ns)).toList =
      (showInt n).toList ++ separator.toList ++ (showInts separator (m :: ns)).toList := by
  simp [showInts, String.toList_intercalate]

theorem isBlank_eq_false_of_isAlpha {c : Char} (h : c.isAlpha = true) : isBlank c = false := by
  have hrange := toNat_of_isAlpha h
  simp only [isBlank, inRanges, blankRanges, List.any_cons, List.any_nil, Bool.or_false,
    Bool.or_eq_false_iff, Bool.and_eq_false_iff, decide_eq_false_iff_not]
  omega

theorem dropWhile_isBlank_eq_self {text : List Char} (h : ∀ c ∈ text, isBlank c = false) :
    text.dropWhile isBlank = text := by
  cases text with
  | nil => rfl
  | cons c rest => simp [h c List.mem_cons_self]

theorem trim_eq_self {text : List Char} (h : ∀ c ∈ text, isBlank c = false) :
    trim text = text := by
  unfold trim
  rw [dropWhile_isBlank_eq_self h, dropWhile_isBlank_eq_self (by simpa using h),
    List.reverse_reverse]

theorem trim_append_of_blank {lead : List Char} (h : ∀ c ∈ lead, isBlank c = true)
    (text : List Char) : trim (lead ++ text) = trim text := by
  unfold trim
  rw [List.dropWhile_append_of_pos h]

theorem trim_of_ends {first last : Char} (hfirst : isBlank first = false)
    (hlast : isBlank last = false) (middle : List Char) :
    trim (first :: (middle ++ [last])) = first :: (middle ++ [last]) := by
  unfold trim
  rw [List.dropWhile_cons_of_neg (by simp [hfirst])]
  simp [hlast]

theorem trim_of_solid_end {first : Char} {piece : List Char} (hfirst : isBlank first = false)
    (hne : piece ≠ []) (hpiece : ∀ c ∈ piece, isBlank c = false) (middle : List Char) :
    trim (first :: (middle ++ piece)) = first :: (middle ++ piece) := by
  rcases List.eq_nil_or_concat piece with rfl | ⟨front, last, rfl⟩
  · exact absurd rfl hne
  · rw [List.concat_eq_append, ← List.append_assoc]
    exact trim_of_ends hfirst (hpiece last (by simp)) _

theorem head?_trim {c : Char} (h : isBlank c = false) (text : List Char) :
    (trim (c :: text)).head? = some c := by
  unfold trim
  rw [List.dropWhile_cons_of_neg (by simp [h]), List.reverse_cons, List.dropWhile_append]
  split <;> simp [h]

theorem readDigits_toDigits (n : Nat) : readDigits 10 (Nat.toDigits 10 n) false 0 = some n := by
  rw [readDigits_of_isDigit (fun c hc => isDigit_of_mem_toDigits hc) (Or.inl Nat.toDigits_ne_nil),
    Nat.ofDigitChars_ten_toDigits]

/-- Reading a written integer gives it back. -/
theorem readInt?_showInt (n : Int) : readInt? (showInt n).toList = some n := by
  rw [readInt?, trim_eq_self fun c hc => isBlank_eq_false_of_mem_showInt hc, toList_showInt]
  split
  · rename_i hneg
    simp only [List.singleton_append, readSigned, readDigits_toDigits, Option.map_some]
    congr 1
    simp only [Int.ofNat_eq_natCast]
    omega
  · rename_i hpos
    have hsize : Int.ofNat n.natAbs = n := by
      simp only [Int.ofNat_eq_natCast]
      omega
    cases hdigits : Nat.toDigits 10 n.natAbs with
    | nil => exact absurd hdigits Nat.toDigits_ne_nil
    | cons c rest =>
        have hrange := toNat_of_isDigit
          (isDigit_of_mem_toDigits (hdigits ▸ List.mem_cons_self : c ∈ Nat.toDigits 10 n.natAbs))
        have hminus : c ≠ '-' := by
          rintro rfl
          simp at hrange
        have hplus : c ≠ '+' := by
          rintro rfl
          simp at hrange
        rw [List.nil_append, readSigned, ← hdigits, readDigits_toDigits, Option.map_some, hsize]
        · rintro rest' heq
          exact hminus (List.cons.inj heq).1
        · rintro rest' heq
          exact hplus (List.cons.inj heq).1

theorem showInt_injective {m n : Int} (h : showInt m = showInt n) : m = n := by
  have hread := congrArg (fun text => readInt? text.toList) h
  simpa [readInt?_showInt] using hread

/-! ## Words -/

theorem splitAt_ne_nil (cut : Char → Bool) (text : List Char) : splitAt cut text ≠ [] := by
  cases text with
  | nil => simp [splitAt]
  | cons c rest =>
      rw [splitAt]
      split <;> simp

theorem splitAt_append_cons {cut : Char → Bool} {c : Char} (h : cut c = true)
    (left right : List Char) :
    splitAt cut (left ++ c :: right) = splitAt cut left ++ splitAt cut right := by
  induction left with
  | nil => simp [splitAt, h]
  | cons d left ih =>
      obtain ⟨piece, pieces, hleft⟩ := List.exists_cons_of_ne_nil (splitAt_ne_nil cut left)
      rw [List.cons_append, splitAt, splitAt, ih, hleft]
      cases cut d <;> rfl

/-- A blank divides the words before it from the words after it. -/
theorem words_append_cons {c : Char} (h : isBlank c = true) (left right : List Char) :
    words (left ++ c :: right) = words left ++ words right := by
  rw [words, words, words, splitAt_append_cons h, List.filter_append]

theorem splitAt_of_not_mem {cut : Char → Bool} {piece : List Char}
    (h : ∀ c ∈ piece, cut c = false) : splitAt cut piece = [piece] := by
  induction piece with
  | nil => rfl
  | cons c piece ih =>
      rw [splitAt, ih fun d hd => h d (List.mem_cons_of_mem c hd), h c List.mem_cons_self]

/-! ## Lines -/

theorem lines_append_newline {line : List Char} (h : '\n' ∉ line) (rest : List Char) :
    lines (line ++ '\n' :: rest) = line :: lines rest := by
  induction line with
  | nil => rfl
  | cons c line ih =>
      have hne : c ≠ '\n' := fun heq => h (heq ▸ List.mem_cons_self)
      rw [List.cons_append, lines, ih fun hmem => h (List.mem_cons_of_mem c hmem)]
      exact hne

theorem lines_join {parts : List String} (h : ∀ part ∈ parts, '\n' ∉ part.toList) :
    lines (String.join (parts.map (· ++ "\n"))).toList = parts.map String.toList := by
  induction parts with
  | nil => rfl
  | cons part parts ih =>
      rw [List.forall_mem_cons] at h
      have htext : (String.join ((part :: parts).map (· ++ "\n"))).toList =
          part.toList ++ '\n' :: (String.join (parts.map (· ++ "\n"))).toList := by
        simp [String.toList_append]
      rw [htext, lines_append_newline h.1, ih h.2, List.map_cons]

theorem map_snd_numberedLines (text : List Char) :
    (numberedLines text).map Prod.snd = lines text := by
  simp [numberedLines, Function.comp_def]

theorem unifyBreaks_eq_self {text : List Char} (h : '\r' ∉ text) : unifyBreaks text = text := by
  induction text with
  | nil => rfl
  | cons c rest ih =>
      rw [List.mem_cons, not_or] at h
      rw [unifyBreaks, ih h.2]
      · rintro _ rfl
        exact h.1.elim rfl
      · rintro rfl
        exact h.1.elim rfl

end QuantFamily.Text
