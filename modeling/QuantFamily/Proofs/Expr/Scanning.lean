import QuantFamily.Expr.Value
import QuantFamily.Expr.Token
import QuantFamily.Proofs.Text.Numeral

/-!
# Scanning what was written

Numbers, texts and names are cut off from the front of a text again as they were written, as long as
nothing follows that would continue them. Every token takes up at least one character, so the number
of steps is no concern: it is enough to know it is larger than the number of characters.
-/

namespace QuantFamily.Expr.Token

/-! ## Characters -/

/-- A letter, an underscore or a character beyond the basic ones. -/
theorem isWordChar_of_isIdentContinue {c : Char} (h : Text.isIdentContinue c = true) :
    isWordChar c = true := by
  unfold Text.isIdentContinue at h
  unfold isWordChar
  split at h
  · rw [h, Bool.true_or]
  · rename_i hbasic
    rw [decide_eq_true (Nat.le_of_not_lt hbasic), Bool.or_true]

theorem isIdentContinue_of_isIdentStart {c : Char} (h : Text.isIdentStart c = true) :
    Text.isIdentContinue c = true := by
  unfold Text.isIdentStart at h
  unfold Text.isIdentContinue
  split at h
  · rename_i hbasic
    rw [if_pos hbasic]
    rcases Bool.or_eq_true_iff.mp h with halpha | hunder
    · rw [Char.isAlphanum, halpha, Bool.true_or, Bool.true_or]
    · rw [hunder, Bool.or_true]
  · rename_i hbasic
    rw [if_neg hbasic, h, Bool.true_or]

theorem isWordChar_of_mem_identifier {word : List Char} (h : Text.isIdentifier word = true) :
    ∀ c ∈ word, isWordChar c = true := by
  cases word with
  | nil => cases h
  | cons c rest =>
      rw [Text.isIdentifier, Bool.and_eq_true, List.all_eq_true] at h
      rw [List.forall_mem_cons]
      exact ⟨isWordChar_of_isIdentContinue (isIdentContinue_of_isIdentStart h.1),
        fun d hd => isWordChar_of_isIdentContinue (h.2 d hd)⟩

theorem ne_of_isWordChar {c d : Char} (hc : isWordChar c = true) (hd : isWordChar d = false) :
    c ≠ d := by
  rintro rfl
  rw [hc] at hd
  cases hd

/-- A character of a word is nothing else. -/
theorem isSpace_of_isWordChar {c : Char} (h : isWordChar c = true) : isSpace c = false := by
  have hspace := ne_of_isWordChar h (show isWordChar ' ' = false by decide)
  have htab := ne_of_isWordChar h (show isWordChar '\t' = false by decide)
  have hfeed := ne_of_isWordChar h (show isWordChar (Char.ofNat 12) = false by decide)
  simp [isSpace, hspace, htab, hfeed]

theorem isQuote_of_isWordChar {c : Char} (h : isWordChar c = true) : isQuote c = false := by
  have hsingle := ne_of_isWordChar h (show isWordChar '\'' = false by decide)
  have hdouble := ne_of_isWordChar h (show isWordChar '"' = false by decide)
  simp [isQuote, hsingle, hdouble]

theorem isWordChar_of_isDigit {c : Char} (h : c.isDigit = true) : isWordChar c = true := by
  simp [isWordChar, Char.isAlphanum, h]

/-! ## One token after the other -/

/-- With the given number of brackets open, a text is cut into the given tokens. -/
def Scans (depth : Nat) (text : List Char) (tokens : List Token) : Prop :=
  ∀ fuel, text.length < fuel → scanFrom fuel depth false text = some tokens

namespace Scans

variable {depth : Nat} {c : Char} {rest after : List Char} {token : Token} {tokens : List Token}

theorem of_succ {text : List Char}
    (h : ∀ fuel, text.length ≤ fuel → scanFrom (fuel + 1) depth false text = some tokens) :
    Scans depth text tokens := by
  intro fuel hfuel
  obtain ⟨fuel, rfl⟩ := Nat.exists_eq_add_one_of_ne_zero (Nat.ne_zero_of_lt hfuel)
  exact h fuel (Nat.le_of_lt_succ hfuel)

theorem nil : Scans 0 [] [] :=
  of_succ fun _ _ => rfl

theorem space (h : Scans depth rest tokens) : Scans depth (' ' :: rest) tokens := by
  refine of_succ fun fuel hfuel => ?_
  rw [scanFrom, if_pos (by decide)]
  exact h fuel hfuel

theorem word (hc : isWordChar c = true) (hdigit : c.isDigit = false)
    (hword : wordToken (c :: rest) = some (token, after)) (hafter : after.length ≤ rest.length)
    (h : Scans depth after tokens) : Scans depth (c :: rest) (token :: tokens) := by
  refine of_succ fun fuel hfuel => ?_
  have hpoint := ne_of_isWordChar hc (show isWordChar '.' = false by decide)
  rw [scanFrom, isSpace_of_isWordChar hc, if_neg Bool.false_ne_true,
    if_neg (ne_of_isWordChar hc (by decide)), if_neg (ne_of_isWordChar hc (by decide)),
    if_neg (ne_of_isWordChar hc (by decide)), isQuote_of_isWordChar hc,
    if_neg Bool.false_ne_true, if_neg (by simp [hdigit, hpoint]), if_pos hc, hword]
  simp [h fuel (Nat.lt_of_le_of_lt hafter hfuel)]

theorem number (hc : c.isDigit = true)
    (hnumber : Token.number (c :: rest) = some (token, after))
    (hafter : after.length ≤ rest.length) (h : Scans depth after tokens) :
    Scans depth (c :: rest) (token :: tokens) := by
  refine of_succ fun fuel hfuel => ?_
  have hword := isWordChar_of_isDigit hc
  rw [scanFrom, isSpace_of_isWordChar hword, if_neg Bool.false_ne_true,
    if_neg (ne_of_isWordChar hword (by decide)), if_neg (ne_of_isWordChar hword (by decide)),
    if_neg (ne_of_isWordChar hword (by decide)), isQuote_of_isWordChar hword,
    if_neg Bool.false_ne_true, if_pos (by simp [hc]), hnumber]
  simp [h fuel (Nat.lt_of_le_of_lt hafter hfuel)]

theorem quoted (hc : isQuote c = true)
    (hliteral : literal false c (c :: rest) = some (token, after))
    (hafter : after.length ≤ rest.length) (h : Scans depth after tokens) :
    Scans depth (c :: rest) (token :: tokens) := by
  refine of_succ fun fuel hfuel => ?_
  have hmark : c = '\'' ∨ c = '"' := by simpa [isQuote] using hc
  have hplain : isSpace c = false ∧ c ≠ '#' ∧ c ≠ '\n' ∧ c ≠ '\\' := by
    rcases hmark with rfl | rfl <;> decide
  rw [scanFrom, hplain.1, if_neg Bool.false_ne_true, if_neg hplain.2.1, if_neg hplain.2.2.1,
    if_neg hplain.2.2.2, if_pos hc, hliteral]
  simp [h fuel (Nat.lt_of_le_of_lt hafter hfuel)]

/-- A character that begins an operator or a bracket. -/
def isSign (c : Char) : Bool :=
  !(isSpace c || c == '#' || c == '\n' || c == '\\' || isQuote c || c.isDigit || c == '.' ||
    isWordChar c)

theorem scanFrom_sign {fuel : Nat} {sign : String} (hc : isSign c = true)
    (hsign : operator? (c :: rest) = some (sign, after)) :
    scanFrom (fuel + 1) depth false (c :: rest) =
      if sign = "(" ∨ sign = "[" ∨ sign = "\x7b" then
        if maxDepth ≤ depth then none
        else scanFrom fuel (depth + 1) false after >>= fun more => some (.op sign :: more)
      else if sign = ")" ∨ sign = "]" ∨ sign = "\x7d" then
        if depth = 0 then none
        else scanFrom fuel (depth - 1) false after >>= fun more => some (.op sign :: more)
      else scanFrom fuel depth false after >>= fun more => some (.op sign :: more) := by
  simp only [isSign, Bool.not_or, Bool.and_eq_true, Bool.not_eq_true', beq_eq_false_iff_ne] at hc
  obtain ⟨⟨⟨⟨⟨⟨⟨hspace, hcomment⟩, hline⟩, hslash⟩, hquote⟩, hdigit⟩, hpoint⟩, hword⟩ := hc
  rw [scanFrom, hspace, if_neg Bool.false_ne_true, if_neg hcomment, if_neg hline, if_neg hslash,
    hquote, if_neg Bool.false_ne_true, if_neg (by simp [hdigit, hpoint]), hword,
    if_neg Bool.false_ne_true, hsign]
  rfl

theorem opening (hdepth : depth < maxDepth) (h : Scans (depth + 1) rest tokens) :
    Scans depth ('[' :: rest) (.op "[" :: tokens) := by
  refine of_succ fun fuel hfuel => ?_
  have hsign : operator? ('[' :: rest) = some ("[", rest) := rfl
  rw [scanFrom_sign (by decide) hsign, if_pos (by decide), if_neg (Nat.not_le.mpr hdepth),
    h fuel hfuel]
  rfl

theorem closing (h : Scans depth rest tokens) :
    Scans (depth + 1) (']' :: rest) (.op "]" :: tokens) := by
  refine of_succ fun fuel hfuel => ?_
  have hsign : operator? (']' :: rest) = some ("]", rest) := rfl
  rw [scanFrom_sign (by decide) hsign, if_neg (by decide), if_pos (by decide),
    if_neg (Nat.succ_ne_zero depth), Nat.add_sub_cancel, h fuel hfuel]
  rfl

theorem sign {sign : String} (hc : isSign c = true)
    (hsign : operator? (c :: rest) = some (sign, rest))
    (hplain : sign ∉ ["(", "[", "\x7b", ")", "]", "\x7d"]) (h : Scans depth rest tokens) :
    Scans depth (c :: rest) (.op sign :: tokens) := by
  refine of_succ fun fuel hfuel => ?_
  simp only [List.mem_cons, List.not_mem_nil, or_false, not_or] at hplain
  rw [scanFrom_sign hc hsign, if_neg (by simp [hplain]), if_neg (by simp [hplain]),
    h fuel hfuel]
  rfl

theorem comma (h : Scans depth rest tokens) : Scans depth (',' :: rest) (.op "," :: tokens) :=
  h.sign (by decide) rfl (by decide)

theorem equals (h : Scans depth (' ' :: rest) tokens) :
    Scans depth ('=' :: ' ' :: rest) (.op "=" :: tokens) :=
  h.sign (by decide) rfl (by decide)

end Scans

/-! ## Numbers -/

/-- What may follow a value inside a list, or at the end. -/
def Delimited (rest : List Char) : Prop :=
  ∀ c ∈ rest.head?, c = ',' ∨ c = ']'

theorem Delimited.not_isWordChar {rest : List Char} (h : Delimited rest) :
    ∀ c ∈ rest.head?, isWordChar c = false := by
  intro c hc
  rcases h c hc with rfl | rfl <;> decide

theorem alphanumValue?_digitChar {d : Nat} (hd : d < 16) :
    Text.alphanumValue? d.digitChar = some d := by
  have hall : ∀ d < 16, Text.alphanumValue? d.digitChar = some d := by decide
  exact hall d hd

/-- The digits of a number denote the number. -/
theorem valueOf_toDigits {base : Nat} (hlow : 1 < base) (hhigh : base ≤ 16) (n : Nat) :
    valueOf base (Nat.toDigits base n) = n := by
  induction n using Nat.strongRecOn with
  | ind n ih =>
      by_cases hsmall : n < base
      · simp [Nat.toDigits_of_lt_base hsmall, valueOf, alphanumValue?_digitChar (d := n) (by omega)]
      · have hmod := Nat.mod_lt n (Nat.zero_lt_of_lt hlow)
        have hdigits := ih (n / base) (Nat.div_lt_self (by omega) hlow)
        rw [Nat.toDigits_of_base_le hlow (Nat.le_of_not_lt hsmall)]
        simp only [valueOf, List.foldl_append, List.foldl_cons, List.foldl_nil] at hdigits ⊢
        rw [hdigits, alphanumValue?_digitChar (by omega), Option.getD_some, Nat.mul_comm]
        exact Nat.div_add_mod n base

theorem head?_toDigits_ne_zero {n : Nat} (hn : n ≠ 0) : (Nat.toDigits 10 n).head? ≠ some '0' := by
  induction n using Nat.strongRecOn with
  | ind n ih =>
      by_cases hsmall : n < 10
      · have hdigit : ∀ d < 10, d ≠ 0 → d.digitChar ≠ '0' := by decide
        rw [Nat.toDigits_of_lt_base hsmall]
        simpa using hdigit n hsmall hn
      · have hdigits := ih (n / 10) (Nat.div_lt_self (by omega) (by decide)) (by omega)
        rw [Nat.toDigits_of_base_le (by decide) (Nat.le_of_not_lt hsmall), List.head?_append]
        cases hhead : (Nat.toDigits 10 (n / 10)).head? with
        | none => exact absurd (List.head?_eq_none_iff.mp hhead) Nat.toDigits_ne_nil
        | some c =>
            rw [hhead] at hdigits
            exact hdigits

theorem digitRun_cons {isDigit : Char → Bool} {c : Char} {rest : List Char}
    (h : rest.head? ≠ some '_') :
    digitRun isDigit (c :: rest) =
      if isDigit c then (c :: (digitRun isDigit rest).1, (digitRun isDigit rest).2)
      else ([], c :: rest) := by
  rw [digitRun]
  rintro d after rfl
  exact h rfl

/-- A run of digits goes up to the first character that does not belong to it. -/
theorem digitRun_append {digits rest : List Char} (h : ∀ c ∈ digits, c.isDigit = true)
    (hrest : ∀ c ∈ rest.head?, isWordChar c = false) :
    digitRun Char.isDigit (digits ++ rest) = (digits, rest) := by
  have hsolid : ∀ c, isWordChar c = false → c.isDigit = false ∧ c ≠ '_' := by
    intro c hc
    refine ⟨Bool.eq_false_iff.mpr fun hdigit => ?_, ?_⟩
    · rw [isWordChar_of_isDigit hdigit] at hc
      cases hc
    · rintro rfl
      exact absurd hc (by decide)
  induction digits with
  | nil =>
      cases rest with
      | nil => rfl
      | cons c rest =>
          have hdigit := (hsolid c (hrest c rfl)).1
          rw [List.nil_append]
          unfold digitRun
          split
          · rename_i heq
            cases heq
            rw [if_neg (by simp [hdigit])]
          · rename_i heq
            cases heq
            rw [if_neg (by simp [hdigit])]
          · cases ‹c :: rest = []›
  | cons c digits ih =>
      rw [List.forall_mem_cons] at h
      have hunder : (digits ++ rest).head? ≠ some '_' := by
        cases digits with
        | nil => exact fun heq => (hsolid _ (hrest _ heq)).2 rfl
        | cons d digits =>
            intro heq
            cases heq
            exact absurd (h.2 '_' List.mem_cons_self) (by decide)
      rw [List.cons_append, digitRun_cons hunder, if_pos h.1, ih h.2]

theorem length_toDigits_le {base n width : Nat} (hbase : 1 < base) (hwidth : 0 < width)
    (h : n < Nat.pow base width) : (Nat.toDigits base n).length ≤ width :=
  (Nat.length_toDigits_le_iff hbase hwidth).mpr h

/-- A number that can be written is read as a decimal number. -/
theorem decimalNumber_toDigits {n : Int} (h : Text.isConvertible n = true) {rest : List Char}
    (hrest : Delimited rest) :
    decimalNumber (Nat.toDigits 10 n.natAbs ++ rest) = some (.int n.natAbs, rest) := by
  have hends : numberEnds rest = true := by
    cases rest with
    | nil => rfl
    | cons c rest => simp [numberEnds, hrest.not_isWordChar c rfl]
  have hpoint : fractionPart rest = (false, [], rest) := by
    cases rest with
    | nil => rfl
    | cons c rest => rcases hrest c rfl with rfl | rfl <;> rfl
  have hpower : exponentPart rest = none := by
    cases rest with
    | nil => rfl
    | cons c rest => rcases hrest c rfl with rfl | rfl <;> rfl
  have hzero : ¬ ((Nat.toDigits 10 n.natAbs).head? = some '0' ∧
      (!(Nat.toDigits 10 n.natAbs).all (· == '0')) = true) := by
    by_cases hn : n.natAbs = 0
    · rw [hn]
      decide
    · exact fun hhead => head?_toDigits_ne_zero hn hhead.1
  have hlength : (Nat.toDigits 10 n.natAbs).length ≤ Text.maxDigits := by
    have hwidth : 0 < Text.maxDigits := by decide
    rw [Text.isConvertible, decide_eq_true_eq] at h
    generalize Text.maxDigits = width at hwidth h ⊢
    exact length_toDigits_le (by decide) hwidth h
  unfold decimalNumber
  rw [digitRun_append (fun c => Text.isDigit_of_mem_toDigits) hrest.not_isWordChar]
  dsimp only
  rw [hpoint]
  dsimp only
  rw [hpower]
  dsimp only
  rw [hends, if_neg (by decide), if_neg Bool.false_ne_true, if_neg hzero,
    if_neg (Nat.not_lt.mpr hlength), valueOf_toDigits (by decide) (by decide)]

theorem number_toDigits {n : Int} (h : Text.isConvertible n = true) {rest : List Char}
    (hrest : Delimited rest) :
    number (Nat.toDigits 10 n.natAbs ++ rest) = some (.int n.natAbs, rest) := by
  have hdecimal := decimalNumber_toDigits h hrest
  unfold number
  split
  · rename_i c after heq
    rw [heq] at hdecimal
    -- Only zero begins with the digit zero, and it has no other digits.
    have hn : n.natAbs = 0 := by
      refine Decidable.byContradiction fun hn => head?_toDigits_ne_zero hn ?_
      cases hdigits : Nat.toDigits 10 n.natAbs with
      | nil => exact absurd hdigits Nat.toDigits_ne_nil
      | cons d digits =>
          rw [hdigits, List.cons_append, List.cons.injEq] at heq
          rw [heq.1, List.head?_cons]
    rw [hn] at heq
    cases heq
    rcases hrest c rfl with rfl | rfl <;> exact hdecimal
  · exact hdecimal

/-- The minus sign is an operator of its own, unless an arrow or an equals sign follows. -/
theorem operator?_minus {d : Char} {rest : List Char} (harrow : d ≠ '>') (hequals : d ≠ '=') :
    operator? ('-' :: d :: rest) = some ("-", d :: rest) := by
  have hfirst : Text.dropStart? ['-', '>'] ('-' :: d :: rest) = none := by
    simp [Text.dropStart?, harrow.symm]
  have hsecond : Text.dropStart? ['-', '='] ('-' :: d :: rest) = none := by
    simp [Text.dropStart?, hequals.symm]
  have hlists : "->".toList = ['-', '>'] ∧ "-=".toList = ['-', '='] := by decide
  simp only [operator?, operators, List.findSome?_cons, hlists.1, hlists.2, hfirst, hsecond,
    Option.map_none]
  rfl

/-- A number in front of what may follow it. -/
theorem Scans.toDigits {depth : Nat} {n : Int} (hn : Text.isConvertible n = true)
    {rest : List Char} (hrest : Delimited rest) {tokens : List Token}
    (h : Scans depth rest tokens) :
    Scans depth (Nat.toDigits 10 n.natAbs ++ rest) (.int n.natAbs :: tokens) := by
  have hnumber := number_toDigits hn hrest
  cases hdigits : Nat.toDigits 10 n.natAbs with
  | nil => exact absurd hdigits Nat.toDigits_ne_nil
  | cons c digits =>
      rw [hdigits] at hnumber
      have hc : c.isDigit = true :=
        Text.isDigit_of_mem_toDigits (hdigits ▸ List.mem_cons_self)
      exact Scans.number hc hnumber (by simp) h

theorem Scans.showInt {depth : Nat} {n : Int} (hn : Text.isConvertible n = true)
    {rest : List Char} (hrest : Delimited rest) {tokens : List Token}
    (h : Scans depth rest tokens) :
    Scans depth ((Text.showInt n).toList ++ rest)
      ((if n < 0 then [.op "-"] else []) ++ .int n.natAbs :: tokens) := by
  have hdigits := h.toDigits hn hrest
  rw [Text.toList_showInt]
  split
  · cases hlist : Nat.toDigits 10 n.natAbs with
    | nil => exact absurd hlist Nat.toDigits_ne_nil
    | cons d digits =>
        rw [hlist] at hdigits
        have hd : isWordChar d = true :=
          isWordChar_of_isDigit (Text.isDigit_of_mem_toDigits (hlist ▸ List.mem_cons_self))
        refine Scans.sign (by decide) (operator?_minus ?_ ?_) (by decide) hdigits
        · exact ne_of_isWordChar hd (by decide)
        · exact ne_of_isWordChar hd (by decide)
  · exact hdigits

/-! ## Words -/

theorem wordToken_append {word rest : List Char} (hword : ∀ c ∈ word, isWordChar c = true)
    (hrest : ∀ c ∈ rest.head?, isWordChar c = false ∧ isQuote c = false) :
    wordToken (word ++ rest) = wordToken.plain word rest := by
  have htake : (word ++ rest).takeWhile isWordChar = word := by
    rw [List.takeWhile_append_of_pos hword]
    cases rest with
    | nil => exact List.append_nil word
    | cons c rest => simp [(hrest c rfl).1]
  have hdrop : (word ++ rest).dropWhile isWordChar = rest := by
    rw [List.dropWhile_append_of_pos hword]
    cases rest with
    | nil => rfl
    | cons c rest => simp [(hrest c rfl).1]
  unfold wordToken
  rw [htake, hdrop]
  cases rest with
  | nil => rfl
  | cons c rest => simp [(hrest c rfl).2]

/-- A name in the form in which it is looked up. -/
def canonical (name : String) : String :=
  String.ofList (Text.fold name.toList)

/-- An identifier that can be assigned. -/
def isName (name : String) : Bool :=
  Text.isIdentifier name.toList && !reserved.contains name && decide (canonical name ≠ constant)

theorem isIdentifier_of_isName {name : String} (h : isName name = true) :
    Text.isIdentifier name.toList = true := by
  rw [isName, Bool.and_eq_true, Bool.and_eq_true] at h
  exact h.1.1

theorem isWordChar_of_isName {name : String} (h : isName name = true) :
    ∀ c ∈ name.toList, isWordChar c = true :=
  isWordChar_of_mem_identifier (isIdentifier_of_isName h)

theorem toList_ne_nil_of_isName {name : String} (h : isName name = true) : name.toList ≠ [] := by
  intro hnil
  have hident := isIdentifier_of_isName h
  rw [hnil] at hident
  cases hident

theorem isDigit_of_isIdentStart {c : Char} (h : Text.isIdentStart c = true) :
    c.isDigit = false := by
  refine Bool.eq_false_iff.mpr fun hdigit => ?_
  have hrange := Text.toNat_of_isDigit hdigit
  unfold Text.isIdentStart at h
  rw [if_pos (by omega)] at h
  rcases Bool.or_eq_true_iff.mp h with halpha | hunder
  · have := Text.toNat_of_isAlpha halpha
    omega
  · rw [beq_iff_eq.mp hunder] at hdigit
    exact absurd hdigit (by decide)

theorem Scans.name {depth : Nat} {name : String} (hname : isName name = true) {rest : List Char}
    (hrest : ∀ c ∈ rest.head?, isWordChar c = false ∧ isQuote c = false) {tokens : List Token}
    (h : Scans depth rest tokens) :
    Scans depth (name.toList ++ rest) (.name (canonical name) :: tokens) := by
  have hident := isIdentifier_of_isName hname
  have hword : wordToken (name.toList ++ rest) = some (.name (canonical name), rest) := by
    simp only [isName, Bool.and_eq_true, Bool.not_eq_true', decide_eq_true_eq] at hname
    obtain ⟨⟨_, hfree⟩, hconstant⟩ := hname
    have hspelled : reserved.contains (String.ofList name.toList) = false := by
      rw [String.ofList_toList]
      exact hfree
    rw [wordToken_append (isWordChar_of_mem_identifier hident) hrest, wordToken.plain, hspelled,
      if_neg Bool.false_ne_true, if_pos hident]
    exact congrArg (fun token => some (token, rest)) (if_neg hconstant)
  cases hlist : name.toList with
  | nil => exact absurd hlist (toList_ne_nil_of_isName hname)
  | cons c word =>
      rw [hlist] at hident hword
      rw [Text.isIdentifier, Bool.and_eq_true] at hident
      refine Scans.word ?_ (isDigit_of_isIdentStart hident.1) hword (by simp) h
      exact isWordChar_of_isIdentContinue (isIdentContinue_of_isIdentStart hident.1)

theorem Scans.bool {depth : Nat} (b : Bool) {rest : List Char} (hrest : Delimited rest)
    {tokens : List Token} (h : Scans depth rest tokens) :
    Scans depth ((if b then "True" else "False").toList ++ rest)
      (.word (if b then "True" else "False") :: tokens) := by
  have hends : ∀ c ∈ rest.head?, isWordChar c = false ∧ isQuote c = false := by
    intro c hc
    rcases hrest c hc with rfl | rfl <;> decide
  cases b with
  | true =>
      have hword : wordToken ("True".toList ++ rest) = some (.word "True", rest) :=
        wordToken_append (List.all_eq_true.mp (by decide)) hends
      exact Scans.word (by decide) (by decide) hword (Nat.le_add_right _ 3) h
  | false =>
      have hword : wordToken ("False".toList ++ rest) = some (.word "False", rest) :=
        wordToken_append (List.all_eq_true.mp (by decide)) hends
      exact Scans.word (by decide) (by decide) hword (Nat.le_add_right _ 4) h

/-! ## Texts -/

theorem isDigitOf_digitChar {d : Nat} (hd : d < 16) : isDigitOf 16 d.digitChar = true := by
  have hall : ∀ d < 16, isDigitOf 16 d.digitChar = true := by decide
  exact hall d hd

theorem isDigitOf_of_mem_toDigits {n : Nat} {c : Char} (h : c ∈ Nat.toDigits 16 n) :
    isDigitOf 16 c = true := by
  induction n using Nat.strongRecOn with
  | ind n ih =>
      by_cases hsmall : n < 16
      · rw [Nat.toDigits_of_lt_base hsmall, List.mem_singleton] at h
        exact h ▸ isDigitOf_digitChar hsmall
      · rw [Nat.toDigits_of_base_le (by decide) (Nat.le_of_not_lt hsmall), List.mem_append,
          List.mem_singleton] at h
        rcases h with hmem | rfl
        · exact ih (n / 16) (Nat.div_lt_self (by omega) (by decide)) hmem
        · exact isDigitOf_digitChar (Nat.mod_lt n (by decide))

theorem valueOf_replicate_append (count : Nat) (digits : List Char) :
    valueOf 16 (List.replicate count '0' ++ digits) = valueOf 16 digits := by
  induction count with
  | zero => rfl
  | succ count ih =>
      have hzero : (Text.alphanumValue? '0').getD 0 = 0 := by decide
      simpa [valueOf, List.replicate_succ, hzero] using ih

/-- The code of a character in hexadecimal is read back. -/
theorem hexEscape_hex {width n : Nat} (hwidth : 0 < width) (hn : n < Nat.pow 16 width)
    (hvalid : n.isValidChar) (rest : List Char) :
    hexEscape width (Text.hex width n ++ rest) = some (Char.ofNat n, rest) := by
  have hlength : (Text.hex width n).length = width := by
    have hdigits := length_toDigits_le (by decide) hwidth hn
    simp only [Text.hex, List.length_append, List.length_replicate]
    omega
  have hdigits : (Text.hex width n).all (isDigitOf 16) = true := by
    simp only [Text.hex, List.all_append, Bool.and_eq_true, List.all_eq_true]
    refine ⟨fun c hc => ?_, fun c => isDigitOf_of_mem_toDigits⟩
    rw [(List.mem_replicate.mp hc).2]
    decide
  have hvalue : valueOf 16 (Text.hex width n) = n := by
    rw [Text.hex, valueOf_replicate_append, valueOf_toDigits (by decide) (by decide)]
  have htake : (Text.hex width n ++ rest).take width = Text.hex width n := by
    exact List.take_left' hlength
  have hdrop : (Text.hex width n ++ rest).drop width = rest := by
    exact List.drop_left' hlength
  unfold hexEscape
  dsimp only
  rw [htake, hdrop, if_pos ⟨hlength, hdigits⟩, hvalue, if_pos hvalid]

theorem exists_escapeCode (c : Char) :
    ∃ code, Text.escapeCode c = '\\' :: code ∧
      ∀ rest, escape (code ++ rest) = some ([c], rest) := by
  have hvalid : c.toNat.isValidChar := c.valid
  have hread : ∀ width, 0 < width → c.toNat < Nat.pow 16 width → ∀ rest,
      hexEscape width (Text.hex width c.toNat ++ rest) = some (c, rest) := by
    intro width hwidth hc rest
    rw [hexEscape_hex hwidth hc hvalid, Char.ofNat_toNat]
  unfold Text.escapeCode
  split
  · rename_i hshort
    exact ⟨_, rfl, fun rest => congrArg (Option.map _) (hread 2 (by decide) hshort rest)⟩
  · split
    · rename_i hmiddle
      exact ⟨_, rfl, fun rest => congrArg (Option.map _) (hread 4 (by decide) hmiddle rest)⟩
    · have hlong : c.toNat < Nat.pow 16 8 := by
        have hbound : Nat.pow 16 8 = 4294967296 := by decide
        unfold Nat.isValidChar at hvalid
        omega
      exact ⟨_, rfl, fun rest => congrArg (Option.map _) (hread 8 (by decide) hlong rest)⟩

/-- A character between quotes stands for itself, or is read back from behind a backslash. -/
theorem quoteChar_cases {mark : Char} (hmark : isQuote mark = true) (c : Char) :
    (Text.quoteChar mark c = [c] ∧ c ≠ mark ∧ c ≠ '\\' ∧ c ≠ '\n') ∨
      ∃ code, Text.quoteChar mark c = '\\' :: code ∧
        ∀ rest, escape (code ++ rest) = some ([c], rest) := by
  unfold Text.quoteChar
  split
  · rename_i hescaped
    refine .inr ⟨[c], rfl, fun rest => ?_⟩
    rcases hescaped with rfl | rfl
    · rw [isQuote, Bool.or_eq_true, beq_iff_eq, beq_iff_eq] at hmark
      rcases hmark with rfl | rfl <;> rfl
    · rfl
  · rename_i hplain
    rw [not_or] at hplain
    split
    · rename_i hline
      exact .inr ⟨['n'], rfl, fun rest => hline ▸ rfl⟩
    · rename_i hline
      split
      · rename_i hreturn
        exact .inr ⟨['r'], rfl, fun rest => hreturn ▸ rfl⟩
      · split
        · rename_i htab
          exact .inr ⟨['t'], rfl, fun rest => htab ▸ rfl⟩
        · split
          · exact .inl ⟨rfl, hplain.1, hplain.2, hline⟩
          · exact .inr (exists_escapeCode c)

theorem quoted_quoteChar {mark : Char} (hmark : isQuote mark = true) (c : Char) {fuel : Nat}
    {text body rest : List Char} (h : quoted false false [mark] fuel text = some (body, rest)) :
    quoted false false [mark] (fuel + 1) (Text.quoteChar mark c ++ text) =
      some (c :: body, rest) := by
  rcases quoteChar_cases hmark c with ⟨heq, hother, hslash, hline⟩ | ⟨code, heq, hescape⟩
  · rw [heq, List.singleton_append, quoted]
    · simp [Text.dropStart?, Ne.symm hother, hline, h]
    · exact hslash
  · have hslash : mark ≠ '\\' := by
      rintro rfl
      exact absurd hmark (by decide)
    rw [heq, List.cons_append]
    unfold quoted
    simp [Text.dropStart?, hslash, hescape, h]

theorem quoted_flatMap {mark : Char} (hmark : isQuote mark = true) (rest : List Char) :
    ∀ (chars : List Char) (fuel : Nat), chars.length < fuel →
      quoted false false [mark] fuel (chars.flatMap (Text.quoteChar mark) ++ mark :: rest) =
        some (chars, rest) := by
  intro chars
  induction chars with
  | nil =>
      intro fuel hfuel
      obtain ⟨fuel, rfl⟩ := Nat.exists_eq_add_one.mpr hfuel
      simp [quoted, Text.dropStart?]
  | cons c chars ih =>
      intro fuel hfuel
      obtain ⟨fuel, rfl⟩ := Nat.exists_eq_add_one_of_ne_zero (Nat.ne_zero_of_lt hfuel)
      rw [List.flatMap_cons, List.append_assoc]
      exact quoted_quoteChar hmark c (ih fuel (Nat.lt_of_succ_lt_succ hfuel))

theorem length_le_flatMap_quoteChar {mark : Char} (hmark : isQuote mark = true)
    (chars : List Char) : chars.length ≤ (chars.flatMap (Text.quoteChar mark)).length := by
  induction chars with
  | nil => exact Nat.le_refl 0
  | cons c chars ih =>
      have hpiece : 0 < (Text.quoteChar mark c).length := by
        rcases quoteChar_cases hmark c with ⟨heq, _⟩ | ⟨code, heq, _⟩ <;> simp [heq]
      rw [List.flatMap_cons, List.length_append, List.length_cons]
      omega

/-- No character of a quoted text is the quote itself, so the text is not taken for a long one. -/
theorem dropStart?_long {mark : Char} (hmark : isQuote mark = true) (chars : List Char)
    {rest : List Char} (hrest : rest.head? ≠ some mark) :
    Text.dropStart? [mark, mark, mark]
      (mark :: (chars.flatMap (Text.quoteChar mark) ++ mark :: rest)) = none := by
  cases chars with
  | nil =>
      cases rest with
      | nil => simp [Text.dropStart?]
      | cons d rest =>
          have hd : mark ≠ d := fun heq => hrest (heq ▸ rfl)
          simp [Text.dropStart?, hd]
  | cons c chars =>
      rcases quoteChar_cases hmark c with ⟨heq, hother, _⟩ | ⟨code, heq, _⟩
      · simp [Text.dropStart?, heq, Ne.symm hother]
      · have hslash : mark ≠ '\\' := by
          rintro rfl
          exact absurd hmark (by decide)
        simp [Text.dropStart?, heq, hslash]

theorem isQuote_quoteFor (chars : List Char) : isQuote (Text.quoteFor chars) = true := by
  unfold Text.quoteFor
  split <;> decide

theorem Scans.quote {depth : Nat} (s : String) {rest : List Char} (hrest : Delimited rest)
    {tokens : List Token} (h : Scans depth rest tokens) :
    Scans depth ((Text.quote s).toList ++ rest) (.str s :: tokens) := by
  have hmark := isQuote_quoteFor s.toList
  have hends : rest.head? ≠ some (Text.quoteFor s.toList) := by
    intro heq
    rcases hrest _ heq with heq | heq <;> exact absurd (heq ▸ hmark) (by decide)
  have hlong := dropStart?_long hmark s.toList hends
  have hlength := length_le_flatMap_quoteChar hmark s.toList
  simp only [Text.quote, String.toList_ofList, List.cons_append, List.append_assoc,
    List.nil_append]
  generalize Text.quoteFor s.toList = mark at *
  refine Scans.quoted hmark ?_ (by simp only [List.length_append, List.length_cons]; omega) h
  unfold literal
  dsimp only
  rw [hlong]
  dsimp only
  rw [List.drop_succ_cons, List.drop_zero, quoted_flatMap hmark rest]
  · simp [String.ofList_toList]
  · simp only [List.length_append, List.length_cons]
    omega

/-! ## Lines -/

/-- A line that begins with a name is cut into tokens from its start. -/
theorem scan_name {name : String} (hname : isName name = true) {rest : List Char}
    (hbreak : '\r' ∉ rest) {tokens : List Token} (h : Scans 0 (name.toList ++ rest) tokens) :
    scan (name.toList ++ rest) = some tokens := by
  have hword := isWordChar_of_isName hname
  have hunbroken : '\r' ∉ name.toList ++ rest := by
    rw [List.mem_append, not_or]
    exact ⟨fun hmem => absurd (hword _ hmem) (by decide), hbreak⟩
  unfold scan
  dsimp only
  rw [Text.unifyBreaks_eq_self hunbroken]
  cases hlist : name.toList with
  | nil => exact absurd hlist (toList_ne_nil_of_isName hname)
  | cons c word =>
      have hc : isWordChar c = true := hword c (hlist ▸ List.mem_cons_self)
      have hspace := isSpace_of_isWordChar hc
      have hbegin : (c :: (word ++ rest)).dropWhile isSpace = c :: (word ++ rest) := by
        simp [hspace]
      have hends : lineEnds (c :: (word ++ rest)) = false := by
        have hline := ne_of_isWordChar hc (show isWordChar '\n' = false by decide)
        have hcomment := ne_of_isWordChar hc (show isWordChar '#' = false by decide)
        simp [lineEnds, hline, hcomment]
      rw [hlist] at h
      rw [List.cons_append, scanFrom, hbegin, hends, if_neg Bool.false_ne_true, hspace,
        if_neg Bool.false_ne_true]
      exact h _ (by rw [List.cons_append]; omega)

end QuantFamily.Expr.Token
