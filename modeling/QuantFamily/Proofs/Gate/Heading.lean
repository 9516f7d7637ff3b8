import QuantFamily.Proofs.Circuit.Reading
import QuantFamily.Proofs.Gate.Quantifier

/-!
# Headings read back

A circuit text begins with a comment, the quantifier lines and the output line. Each of these lines
is read as what it was written for, whatever numbers the lines have, and the gate lines are left
for later.
-/

namespace QuantFamily

open Circuit (Binder Document)
open Circuit.Reader

/-- How a quantifier binds. -/
def Quantifier.binder : Quantifier → Binder
  | .existential => .exists
  | .universal => .forall

theorem isName_showInt {n : Int} (h : 0 ≤ n) : isName (Text.showInt n).toList = true := by
  simp only [isName, Bool.and_eq_true, Bool.not_eq_true', List.isEmpty_eq_false_iff,
    List.all_eq_true]
  exact ⟨Text.showInt_ne_nil n, fun c hc =>
    Gate.isNameChar_of_isDigit (Text.isDigit_of_mem_showInt h hc)⟩

theorem isLiteral_showInt (n : Int) : isLiteral (Text.showInt n).toList = true := by
  by_cases hneg : n < 0
  · rw [Text.toList_showInt_of_neg hneg]
    exact isName_showInt (Int.natCast_nonneg _)
  · have hname := isName_showInt (Int.not_lt.mp hneg)
    unfold isLiteral
    split
    · rename_i hminus
      rw [hminus] at hname
      simp [isName, isNameChar] at hname
    · exact hname

/-! ## Lines with brackets -/

/-- Letters, at least one. -/
def IsWord (word : List Char) : Prop :=
  word ≠ [] ∧ ∀ c ∈ word, c.isAlpha = true

section Heading

variable {last number : Nat} {rest : List (Nat × List Char)}
  {before : List (Binder × List String)}

theorem trim_bracketed {word : List Char} (hword : IsWord word) (inner : List Char) :
    Text.trim (word ++ '(' :: (inner ++ [')'])) = word ++ '(' :: (inner ++ [')']) := by
  obtain ⟨first, others, rfl⟩ := List.exists_cons_of_ne_nil hword.1
  have hfirst := Text.isBlank_eq_false_of_isAlpha (hword.2 first List.mem_cons_self)
  have htrim := Text.trim_of_ends hfirst (show Text.isBlank ')' = false by decide)
    (others ++ '(' :: inner)
  simpa using htrim

theorem bracketed?_append {word : List Char} (hword : IsWord word) (inner : List Char) :
    bracketed? (word ++ '(' :: (inner ++ [')'])) = some ((String.ofList word).toLower, inner) := by
  unfold bracketed?
  rw [Gate.run?_append hword.1 hword.2 (by decide)]
  simp

theorem IsWord.first_ne {word : List Char} (hword : IsWord word) :
    ∃ first others, word = first :: others ∧ first ≠ '#' := by
  obtain ⟨first, others, rfl⟩ := List.exists_cons_of_ne_nil hword.1
  refine ⟨first, others, rfl, ?_⟩
  rintro rfl
  exact absurd (hword.2 '#' List.mem_cons_self) (by decide)

theorem not_comment {word : List Char} (hword : IsWord word) (text : List Char) :
    ((word ++ text).isEmpty || decide ((word ++ text).head? = some '#')) = false := by
  obtain ⟨first, others, rfl, hfirst⟩ := hword.first_ne
  simp [hfirst]

theorem heading_comment (text : List Char) :
    heading last ((number, '#' :: text) :: rest) before = heading last rest before := by
  rw [heading, Text.head?_trim (by decide)]
  simp

theorem toList_scopeLine {scope : Quantifier × List Int} (hne : scope.2 ≠ []) :
    (Formula.scopeLine scope).toList =
      scope.1.word.toList ++ '(' :: ((commaList scope.2).toList ++ [')']) := by
  rw [Formula.scopeLine, String.toList_ofList, markedText, if_neg hne]
  rfl

theorem Quantifier.isWord (q : Quantifier) : IsWord q.word.toList := by
  cases q <;> exact ⟨by decide, List.all_eq_true.mp (by decide)⟩

theorem isWord_output : IsWord "output".toList :=
  ⟨by decide, List.all_eq_true.mp (by decide)⟩

/-- A quantifier line over variables, which may be none. -/
def quantifierText (scope : Quantifier × List Int) : List Char :=
  scope.1.word.toList ++ '(' :: ((commaList scope.2).toList ++ [')'])

theorem heading_scope {scope : Quantifier × List Int} (hpos : ∀ n ∈ scope.2, 0 < n) :
    heading last ((number, quantifierText scope) :: rest) before =
      heading last rest (before ++ [(scope.1.binder, scope.2.map Text.showInt)]) := by
  obtain ⟨q, ns⟩ := scope
  have hnames : (items (commaList ns).toList).find? (fun name => !isName name) = none := by
    rw [items_commaList, List.find?_eq_none]
    intro name hname
    obtain ⟨n, hn, rfl⟩ := List.mem_map.mp hname
    simp [isName_showInt (Int.le_of_lt (hpos n hn))]
  have hstrings : (items (commaList ns).toList).map String.ofList = ns.map Text.showInt := by
    rw [items_commaList, List.map_map]
    exact List.map_congr_left fun n _ => String.ofList_toList
  have hlower : q.word.toLower = q.word := by cases q <;> decide +kernel
  rw [heading, quantifierText, trim_bracketed q.isWord, bracketed?_append q.isWord,
    not_comment q.isWord, String.ofList_toList, hlower]
  cases q <;> simp [hnames, hstrings, Quantifier.word, Quantifier.binder, Binder.ofWord]

theorem heading_output (matrix : Int) :
    heading last ((number, ("output(" ++ Text.showInt matrix ++ ")").toList) :: rest) before =
      .ok { scopes := before, output := (Text.showInt matrix).toList, rest := rest } := by
  have hlower : "output".toLower = "output" := by decide +kernel
  rw [heading, toList_outputLine, trim_bracketed isWord_output, bracketed?_append isWord_output,
    not_comment isWord_output, String.ofList_toList, hlower]
  simp [isLiteral_showInt]

/-- Quantifier lines and an output line are read as what they were written for. -/
theorem heading_lines {scopes : List (Quantifier × List Int)} {matrix : Int}
    {lines : List (Nat × List Char)} {others : List (List Char)} (last : Nat)
    (before : List (Binder × List String)) (positive : ∀ scope ∈ scopes, ∀ x ∈ scope.2, 0 < x)
    (h : lines.map Prod.snd = scopes.map quantifierText ++
      ("output(" ++ Text.showInt matrix ++ ")").toList :: others) :
    ∃ rest, rest.map Prod.snd = others ∧ heading last lines before = .ok
      { scopes := before ++ scopes.map fun scope => (scope.1.binder, scope.2.map Text.showInt)
        output := (Text.showInt matrix).toList
        rest := rest } := by
  induction scopes generalizing lines before with
  | nil =>
      obtain ⟨⟨number, line⟩, rest, rfl, hline, hrest⟩ := List.map_eq_cons_iff.mp h
      dsimp only at hline
      rw [hline, heading_output]
      exact ⟨rest, hrest, by simp⟩
  | cons scope scopes ih =>
      rw [List.forall_mem_cons] at positive
      rw [List.map_cons, List.cons_append] at h
      obtain ⟨⟨number, line⟩, lines, rfl, hline, hlines⟩ := List.map_eq_cons_iff.mp h
      dsimp only at hline
      rw [hline, heading_scope positive.1]
      obtain ⟨rest, hrest, hread⟩ := ih
        (before ++ [(scope.1.binder, scope.2.map Text.showInt)]) positive.2 hlines
      exact ⟨rest, hrest, by simpa using hread⟩

end Heading

/-! ## The lines of a text -/

section Texts

variable {scopes : List (Quantifier × List Int)} {matrix : Int} {gates : List Gate}

def circuitLines (scopes : List (Quantifier × List Int)) (matrix : Int) (gates : List Gate) :
    List String :=
  "#QCIR-G14" :: (scopes.map Formula.scopeLine ++
    ("output(" ++ Text.showInt matrix ++ ")") :: gates.map Gate.line)

theorem join_circuitLines :
    circuitHeader ++ Formula.renderScopes scopes ++ outputLine (Text.showInt matrix) ++
      renderGates gates = String.join ((circuitLines scopes matrix gates).map (· ++ "\n")) := by
  have hheader : circuitHeader = "#QCIR-G14" ++ "\n" := by decide
  simp [circuitLines, Formula.renderScopes, renderGates, outputLine_eq, hheader,
    String.append_assoc, Function.comp_def]

theorem unbroken_circuitLines (legible : ∀ g ∈ gates, g.Legible) :
    ∀ line ∈ circuitLines scopes matrix gates, Unbroken line.toList := by
  intro line hline
  simp only [circuitLines, List.mem_cons, List.mem_append, List.mem_map] at hline
  rcases hline with rfl | ⟨scope, -, rfl⟩ | rfl | ⟨g, hg, rfl⟩
  · exact unbroken_of_all (by decide)
  · rw [Formula.scopeLine, String.toList_ofList]
    exact unbroken_markedText _ _
  · exact unbroken_outputLine matrix
  · exact Gate.unbroken_line (legible g hg)

theorem numberedLines_join {parts : List String} (h : ∀ part ∈ parts, OneLine part.toList) :
    (Text.numberedLines (Text.unifyBreaks
      (String.join (parts.map (· ++ "\n"))).toList)).map Prod.snd = parts.map String.toList := by
  have hreturn : '\r' ∉ (String.join (parts.map (· ++ "\n"))).toList := by
    induction parts with
    | nil => simp
    | cons part parts ih =>
        rw [List.forall_mem_cons] at h
        have hpart : '\r' ∉ part.toList := fun hmem => (h.1 _ hmem).2 rfl
        simpa [hpart] using ih h.2
  rw [Text.unifyBreaks_eq_self hreturn, Text.map_snd_numberedLines,
    Text.lines_join fun part hpart hmem => (h part hpart _ hmem).1 rfl]

theorem givenNames_word {word inner : List Char} (hword : IsWord word) (number : Nat)
    (rest : List (Nat × List Char)) (names : Table Nat String) :
    givenNames ((number, word ++ '(' :: (inner ++ [')'])) :: rest) names =
      .ok (names, (number, word ++ '(' :: (inner ++ [')'])) :: rest) := by
  have hstart : Text.startsWith "#VarName ".toList (word ++ '(' :: (inner ++ [')'])) = false := by
    obtain ⟨first, others, rfl, hfirst⟩ := hword.first_ne
    simp [Text.startsWith, List.isPrefixOf, hfirst.symm]
  rw [givenNames, trim_bracketed hword, hstart, not_comment hword]
  simp

/-- The comments that give names end where the quantifier lines or the output line begin. -/
theorem givenNames_heading {lines : List (Nat × List Char)} {others : List (List Char)}
    (names : Table Nat String)
    (h : lines.map Prod.snd = scopes.map quantifierText ++
      ("output(" ++ Text.showInt matrix ++ ")").toList :: others) :
    givenNames lines names = .ok (names, lines) := by
  cases scopes with
  | nil =>
      obtain ⟨⟨number, line⟩, rest, rfl, hline, -⟩ := List.map_eq_cons_iff.mp h
      dsimp only at hline
      rw [hline, toList_outputLine]
      exact givenNames_word isWord_output number rest names
  | cons scope scopes =>
      rw [List.map_cons, List.cons_append] at h
      obtain ⟨⟨number, line⟩, rest, rfl, hline, -⟩ := List.map_eq_cons_iff.mp h
      dsimp only at hline
      rw [hline]
      exact givenNames_word scope.1.isWord number rest names

/-- The first line of a circuit text is a comment, and it gives no names. -/
theorem read_eq_readAfter (heedNames : Bool) (matrix : Int) (legible : ∀ g ∈ gates, g.Legible)
    (filled : ∀ scope ∈ scopes, scope.2 ≠ []) :
    ∃ last lines, lines.map Prod.snd = scopes.map quantifierText ++
        ("output(" ++ Text.showInt matrix ++ ")").toList :: gates.map (fun g => g.line.toList) ∧
      Document.read heedNames (circuitHeader ++ Formula.renderScopes scopes ++
        outputLine (Text.showInt matrix) ++ renderGates gates) =
          Document.readAfter last {} lines := by
  have honeLine : ∀ line ∈ circuitLines scopes matrix gates, OneLine line.toList :=
    fun line hline => (unbroken_circuitLines legible line hline).oneLine
  have hall := numberedLines_join honeLine
  have hscopes : scopes.map (String.toList ∘ Formula.scopeLine) = scopes.map quantifierText :=
    List.map_congr_left fun scope hscope => toList_scopeLine (filled scope hscope)
  rw [← join_circuitLines] at hall
  generalize circuitHeader ++ Formula.renderScopes scopes ++ outputLine (Text.showInt matrix) ++
    renderGates gates = text at hall ⊢
  rw [circuitLines, List.map_cons, List.map_append, List.map_cons, List.map_map, List.map_map,
    hscopes] at hall
  rw [Document.read_eq]
  generalize Text.numberedLines (Text.unifyBreaks text.toList) = all at hall ⊢
  obtain ⟨⟨number, line⟩, lines, rfl, hheader, hlines⟩ := List.map_eq_cons_iff.mp hall
  dsimp only at hheader
  subst hheader
  refine ⟨lines.length + 1 + 1, lines, hlines, ?_⟩
  cases heedNames with
  | false =>
      change Document.readAfter (lines.length + 1 + 1) {} ((number, "#QCIR-G14".toList) :: lines) = _
      have htext : "#QCIR-G14".toList = '#' :: "QCIR-G14".toList := by decide
      unfold Document.readAfter
      rw [htext, heading_comment]
  | true =>
      have hskip : givenNames ((number, "#QCIR-G14".toList) :: lines) {} = givenNames lines {} := by
        rw [givenNames]
        rfl
      rw [if_pos rfl, hskip, givenNames_heading {} hlines]
      rfl

end Texts

end QuantFamily
