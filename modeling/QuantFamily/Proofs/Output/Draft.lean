import Mathlib.Data.List.SplitBy
import QuantFamily.Output.Clauses
import QuantFamily.Proofs.Gate.Heading
import QuantFamily.Proofs.Session.Frame
import QuantFamily.Proofs.Text.Shown

/-!
# Clauses taken from circuit lines

A clause text is made from the lines of a circuit text in one pass. One line is open at any time,
first that of a run of quantifiers and then that of a clause, and it is closed when the next one
begins. What the pass has written at the end is one line for each maximal run of quantifier lines
with the same quantifier, and one for each gate line with `or` in its word; the clauses are counted
with them.
-/

namespace QuantFamily

/-! ## The literals of a line -/

theorem findIdx?_append_cons {c : Char} {before : List Char} (h : c ∉ before) (after : List Char) :
    (before ++ c :: after).findIdx? (· = c) = some before.length := by
  have hnone : before.findIdx? (· = c) = none := by
    rw [List.findIdx?_eq_none_iff]
    intro d hd
    exact decide_eq_false fun heq => h (heq ▸ hd)
  rw [List.findIdx?_append, hnone]
  simp [List.findIdx?_cons]

theorem betweenBrackets_append {word inner : List Char} (hopen : '(' ∉ word) (hword : ')' ∉ word)
    (hinner : ')' ∉ inner) : betweenBrackets (word ++ '(' :: (inner ++ [')'])) = inner := by
  have hstart := findIdx?_append_cons hopen (inner ++ [')'])
  have hclose : ')' ∉ word ++ '(' :: inner := by simp [hword, hinner]
  have hstop := findIdx?_append_cons hclose []
  rw [List.append_assoc, List.cons_append] at hstop
  have htake : (word ++ '(' :: (inner ++ [')'])).take (word ++ '(' :: inner).length =
      word ++ '(' :: inner := by
    rw [← List.cons_append, ← List.append_assoc, List.take_left]
  unfold betweenBrackets
  rw [hstart, hstop]
  dsimp only
  rw [htake, List.append_cons]
  exact List.drop_left' (by simp)

theorem splitCommas_of_not_mem {piece : List Char} (h : ',' ∉ piece) :
    splitCommas piece = [piece] := by
  induction piece with
  | nil => rfl
  | cons c piece ih =>
      rw [List.mem_cons, not_or] at h
      rw [splitCommas, ih h.2]
      rintro _ rfl
      exact absurd rfl h.1

theorem splitCommas_append {piece : List Char} (h : ',' ∉ piece) (rest : List Char) :
    splitCommas (piece ++ ',' :: ' ' :: rest) = piece :: splitCommas rest := by
  induction piece with
  | nil => rfl
  | cons c piece ih =>
      rw [List.mem_cons, not_or] at h
      rw [List.cons_append, splitCommas, ih h.2]
      rintro _ rfl
      exact absurd rfl h.1

/-- Numbers with commas between them fall into these numbers, and no numbers into an empty
piece. -/
theorem splitCommas_commaList (ns : List Int) :
    splitCommas (commaList ns).toList =
      if ns = [] then [[]] else ns.map fun n => (Text.showInt n).toList := by
  have hcomma : ∀ n, ',' ∉ (Text.showInt n).toList := Text.not_mem_showInt (by decide) (by decide)
  induction ns with
  | nil => rfl
  | cons n ns ih =>
      rw [if_neg (List.cons_ne_nil n ns)]
      cases ns with
      | nil =>
          have hone : commaList [n] = Text.showInt n := by simp [commaList, Text.showInts]
          rw [hone, splitCommas_of_not_mem (hcomma n)]
          rfl
      | cons m ns =>
          rw [toList_commaList_cons, splitCommas_append (hcomma n), ih,
            if_neg (List.cons_ne_nil m ns)]
          rfl

/-- A character that cannot stand in a list of numbers. -/
theorem not_mem_commaList {c : Char} (h : c ≠ ',' ∧ c ≠ ' ' ∧ c ≠ '-' ∧ c.isDigit = false)
    (ns : List Int) : c ∉ (commaList ns).toList := by
  intro hc
  rcases mem_commaList hc with rfl | rfl | rfl | hdigit
  · exact h.1 rfl
  · exact h.2.1 rfl
  · exact h.2.2.1 rfl
  · rw [h.2.2.2] at hdigit
    cases hdigit

theorem lineLiterals_append {word : List Char} (hopen : '(' ∉ word) (hclose : ')' ∉ word)
    (ns : List Int) :
    lineLiterals (String.ofList (word ++ '(' :: ((commaList ns).toList ++ [')']))) =
      if ns = [] then [""] else ns.map Text.showInt := by
  rw [lineLiterals, String.toList_ofList,
    betweenBrackets_append hopen hclose (not_mem_commaList (by decide) ns), splitCommas_commaList]
  split
  · rfl
  · rw [List.map_map]
    exact List.map_congr_left fun n _ => String.ofList_toList

/-! ## Lines with `or` in them -/

theorem occursIn_append_left {before : List Char} (h : 'o' ∉ before) (text : List Char) :
    Text.occursIn "or".toList (before ++ text) = Text.occursIn "or".toList text := by
  induction before with
  | nil => rfl
  | cons c before ih =>
      rw [List.mem_cons, not_or] at h
      have hstart : Text.startsWith "or".toList (c :: (before ++ text)) = false := by
        simp [Text.startsWith, List.isPrefixOf, h.1]
      rw [List.cons_append, Text.occursIn, hstart, Bool.false_or, ih h.2]

theorem occursIn_eq_false {text : List Char} (h : 'o' ∉ text) :
    Text.occursIn "or".toList text = false := by
  have hleft := occursIn_append_left h []
  rw [List.append_nil] at hleft
  exact hleft

theorem occursIn_append_right {c : Char} {after : List Char} (hc : c ≠ 'r') (h : 'o' ∉ c :: after)
    (text : List Char) :
    Text.occursIn "or".toList (text ++ c :: after) = Text.occursIn "or".toList text := by
  induction text with
  | nil => exact occursIn_eq_false h
  | cons d text ih =>
      have hstart : Text.startsWith "or".toList (d :: (text ++ c :: after)) =
          Text.startsWith "or".toList (d :: text) := by
        cases text with
        | nil => simp [Text.startsWith, List.isPrefixOf, hc.symm]
        | cons e text => simp [Text.startsWith, List.isPrefixOf]
      rw [List.cons_append, Text.occursIn, Text.occursIn, hstart, ih]

/-- Whether the line of a gate is taken for a clause. -/
def Gate.isDisjunction (g : Gate) : Bool :=
  Text.occursIn "or".toList g.word.toList

theorem Gate.occursIn_line (g : Gate) :
    Text.occursIn "or".toList g.line.toList = g.isDisjunction := by
  have hnumber : 'o' ∉ (Text.showInt g.id).toList := Text.not_mem_showInt (by decide) (by decide) _
  have hoperands : 'o' ∉ (commaList g.operands).toList := not_mem_commaList (by decide) _
  have hline : g.line.toList = ((Text.showInt g.id).toList ++ [' ', '=', ' ']) ++
      (g.word.toList ++ '(' :: ((commaList g.operands).toList ++ [')'])) := by
    simp [Gate.toList_line]
  rw [hline, occursIn_append_left (by simp [hnumber]),
    occursIn_append_right (by decide) (by simp [hoperands])]
  rfl

/-! ## Lines in the draft -/

/-- The letter of a quantifier in a clause text. -/
def Quantifier.sign : Quantifier → String
  | .existential => "e"
  | .universal => "a"

theorem Quantifier.sign_injective {q r : Quantifier} (h : q.sign = r.sign) : q = r := by
  cases q <;> cases r <;> first | rfl | exact absurd h (by decide)

theorem Quantifier.sign_ne_empty (q : Quantifier) : q.sign ≠ "" := by
  cases q <;> decide

/-- Numbers, each behind a space. -/
def spaced (ns : List Int) : String :=
  String.join (ns.map fun n => " " ++ Text.showInt n)

theorem spaced_append (ns ms : List Int) : spaced (ns ++ ms) = spaced ns ++ spaced ms := by
  simp [spaced]

theorem showInts_cons (n : Int) (ns : List Int) :
    Text.showInts " " (n :: ns) = Text.showInt n ++ spaced ns := by
  induction ns generalizing n with
  | nil => simp [spaced, Text.showInts]
  | cons m ns ih =>
      have hcons : Text.showInts " " (n :: m :: ns) =
          Text.showInt n ++ " " ++ Text.showInts " " (m :: ns) :=
        String.toList_injective (by simp [Text.toList_showInts_cons, String.toList_append])
      rw [hcons, ih]
      simp [spaced, String.append_assoc]

/-- The maximal runs of quantifiers of one kind. -/
def quantifierRuns (scopes : List (Quantifier × List Int)) : List (List (Quantifier × List Int)) :=
  scopes.splitBy fun a b => a.1 == b.1

/-- The line of a run of quantifiers, without the zero at its end. -/
def runLine : List (Quantifier × List Int) → String
  | [] => ""
  | scope :: scopes => scope.1.sign ++ spaced ((scope :: scopes).flatMap Prod.snd)

theorem quantifierRuns_of_same {run : List (Quantifier × List Int)} (hrun : run ≠ []) {q : Quantifier}
    (same : ∀ scope ∈ run, scope.1 = q) : quantifierRuns run = [run] := by
  refine List.splitBy_of_isChain hrun (List.Pairwise.isChain ?_)
  refine List.pairwise_of_forall_mem_list fun a ha b hb => ?_
  rw [same a ha, same b hb, beq_self_eq_true]

theorem runLine_append_singleton {run : List (Quantifier × List Int)} (hrun : run ≠ [])
    (scope : Quantifier × List Int) : runLine (run ++ [scope]) = runLine run ++ spaced scope.2 := by
  obtain ⟨first, others, rfl⟩ := List.exists_cons_of_ne_nil hrun
  rw [List.cons_append, runLine, runLine, ← List.cons_append, List.flatMap_append, spaced_append,
    List.flatMap_singleton, String.append_assoc]

theorem runLine_ne_empty {run : List (Quantifier × List Int)} (hrun : run ≠ []) :
    runLine run ≠ "" := by
  obtain ⟨⟨q, ns⟩, others, rfl⟩ := List.exists_cons_of_ne_nil hrun
  cases q <;> simp [runLine, Quantifier.sign]

/-- Lines, each with a zero at its end. -/
def zeroEnded (lines : List String) : String :=
  String.join (lines.map (· ++ " 0\n"))

@[simp] theorem zeroEnded_append (lines more : List String) :
    zeroEnded (lines ++ more) = zeroEnded lines ++ zeroEnded more := by
  simp [zeroEnded]

@[simp] theorem zeroEnded_cons (line : String) (lines : List String) :
    zeroEnded (line :: lines) = line ++ " 0\n" ++ zeroEnded lines := by
  simp [zeroEnded]

@[simp] theorem zeroEnded_nil : zeroEnded [] = "" :=
  rfl

namespace ClauseDraft

variable (d : ClauseDraft)

theorem foldl_spaced (ns : List Int) (line : String) :
    (ns.map Text.showInt).foldl (fun line l => line ++ " " ++ l) line = line ++ spaced ns := by
  induction ns generalizing line with
  | nil => simp [spaced]
  | cons n ns ih =>
      rw [List.map_cons, List.foldl_cons, ih]
      simp [spaced, String.append_assoc]

theorem extend_showInt (ns : List Int) :
    d.extend (ns.map Text.showInt) = { d with line := d.line ++ spaced ns } := by
  rw [extend, foldl_spaced]

/-- The open line of a clause. -/
theorem foldl_clause (ns : List Int) :
    (if ns = [] then [""] else ns.map Text.showInt).foldl
      (fun line l => if line.isEmpty then l else line ++ " " ++ l) "" = Text.showInts " " ns := by
  cases ns with
  | nil => rfl
  | cons n ns =>
      -- Behind the first number the line is not empty any more.
      have hrest : ∀ (ms : List Int) (line : String), line ≠ "" →
          (ms.map Text.showInt).foldl
            (fun line l => if line.isEmpty then l else line ++ " " ++ l) line =
              line ++ spaced ms := by
        intro ms
        induction ms with
        | nil => simp [spaced]
        | cons m ms ih =>
            intro line hline
            have hempty : line.isEmpty = false := by simpa using hline
            rw [List.map_cons, List.foldl_cons, hempty, if_neg Bool.false_ne_true, ih]
            · simp [spaced, String.append_assoc]
            · simp
      have hfirst : Text.showInt n ≠ "" := by
        simpa using Text.showInt_ne_nil n
      rw [if_neg (List.cons_ne_nil n ns), List.map_cons, List.foldl_cons, showInts_cons]
      exact hrest ns _ hfirst

theorem addLine_header : d.addLine "#QCIR-G14".toList = d :=
  rfl

theorem addLine_output (matrix : Int) :
    d.addLine ("output(" ++ Text.showInt matrix ++ ")").toList = d := by
  have hnumber : 'o' ∉ (Text.showInt matrix).toList :=
    Text.not_mem_showInt (by decide) (by decide) _
  have hor : Text.occursIn "or".toList ("output(" ++ Text.showInt matrix ++ ")").toList = false := by
    rw [toList_outputLine, occursIn_append_right (by decide) (by simp [hnumber])]
    rfl
  unfold addLine
  rw [hor, toList_outputLine]
  rfl

theorem addLine_scope {scope : Quantifier × List Int} (hne : scope.2 ≠ []) :
    d.addLine (Formula.scopeLine scope).toList =
      d.addQuantifier scope.1.sign (scope.2.map Text.showInt) := by
  have hword : '(' ∉ scope.1.word.toList ∧ ')' ∉ scope.1.word.toList := by
    cases scope.1 <;> decide
  have hliterals : lineLiterals (String.ofList (Formula.scopeLine scope).toList) =
      scope.2.map Text.showInt := by
    rw [toList_scopeLine hne, lineLiterals_append hword.1 hword.2, if_neg hne]
  have hexists : ∀ rest, Text.startsWith "exists".toList (scope.1.word.toList ++ rest) =
      decide (scope.1 = .existential) := by
    intro rest
    cases scope.1 <;> simp [Text.startsWith, List.isPrefixOf, Quantifier.word]
  have hforall : ∀ rest, Text.startsWith "forall".toList (scope.1.word.toList ++ rest) =
      decide (scope.1 = .universal) := by
    intro rest
    cases scope.1 <;> simp [Text.startsWith, List.isPrefixOf, Quantifier.word]
  unfold addLine
  rw [hliterals, toList_scopeLine hne, hexists, hforall]
  cases scope.1 <;> rfl

theorem addLine_gate {g : Gate} (h : g.Legible) :
    d.addLine g.line.toList = if g.isDisjunction then
      { d.close with line := Text.showInts " " g.operands, clauses := d.clauses + 1 } else d := by
  have hword : ∀ c : Char, c.isAlpha = false → c ∉ g.word.toList := by
    intro c hc hmem
    rw [h.letters c hmem] at hc
    cases hc
  have hbracket : ∀ c : Char, c.isAlpha = false → c ≠ ' ' → c ≠ '=' → c.isDigit = false → c ≠ '-' →
      c ∉ (Text.showInt g.id).toList ++ ' ' :: '=' :: ' ' :: g.word.toList := by
    intro c halpha hspace hequals hdigit hsign
    simp [hspace, hequals, hword c halpha, Text.not_mem_showInt hdigit hsign]
  have hline : g.line.toList = ((Text.showInt g.id).toList ++ ' ' :: '=' :: ' ' :: g.word.toList) ++
      '(' :: ((commaList g.operands).toList ++ [')']) := by
    simp [Gate.toList_line]
  have hliterals : lineLiterals (String.ofList g.line.toList) =
      if g.operands = [] then [""] else g.operands.map Text.showInt := by
    rw [hline]
    exact lineLiterals_append
      (hbracket _ (by decide) (by decide) (by decide) (by decide) (by decide))
      (hbracket _ (by decide) (by decide) (by decide) (by decide) (by decide)) g.operands
  -- The line begins with a digit.
  have hstart : ∀ first rest, first ∉ (Text.showInt g.id).toList →
      Text.startsWith (first :: rest) g.line.toList = false := by
    intro first rest hfirst
    obtain ⟨c, others, hdigits⟩ := List.exists_cons_of_ne_nil (Text.showInt_ne_nil g.id)
    have hne : first ≠ c := fun heq => hfirst (by rw [hdigits, heq]; exact List.mem_cons_self)
    rw [Gate.toList_line, hdigits]
    simp [Text.startsWith, List.isPrefixOf, hne]
  have hletter : ∀ c : Char, c.isDigit = false → c ≠ '-' → c ∉ (Text.showInt g.id).toList :=
    fun c hdigit hsign => Text.not_mem_showInt hdigit hsign _
  unfold addLine
  rw [hliterals, g.occursIn_line,
    show "exists".toList = 'e' :: "xists".toList from rfl,
    show "forall".toList = 'f' :: "orall".toList from rfl,
    hstart _ _ (hletter _ (by decide) (by decide)), hstart _ _ (hletter _ (by decide) (by decide))]
  simp only [Bool.false_eq_true, if_false, addClause, foldl_clause]
  rfl

/-! ## The whole pass -/

theorem close_foldl_gates {gates : List Gate} (legible : ∀ g ∈ gates, g.Legible) (d : ClauseDraft) :
    let disjunctions := gates.filter Gate.isDisjunction
    let last := (gates.map fun g => g.line.toList).foldl addLine d
    last.close.text = d.close.text ++
        zeroEnded (disjunctions.map fun g => Text.showInts " " g.operands) ∧
      last.clauses = d.clauses + disjunctions.length := by
  induction gates generalizing d with
  | nil => simp
  | cons g gates ih =>
      rw [List.forall_mem_cons] at legible
      dsimp only at ih ⊢
      rw [List.map_cons, List.foldl_cons, addLine_gate d legible.1, List.filter_cons]
      obtain ⟨htext, hcount⟩ := ih legible.2 (if g.isDisjunction then
        { d.close with line := Text.showInts " " g.operands, clauses := d.clauses + 1 } else d)
      rw [htext, hcount]
      cases g.isDisjunction with
      | false => simp
      | true =>
          simp only [if_true, List.map_cons, zeroEnded_cons, List.length_cons, close]
          exact ⟨by simp only [String.append_assoc], by omega⟩

/-- Quantifier lines behind a run that is still open: a line goes on with the run, or it closes
the run and opens another one. -/
theorem close_foldl_scopes {scopes : List (Quantifier × List Int)}
    (filled : ∀ scope ∈ scopes, scope.2 ≠ []) {q : Quantifier} {run : List (Quantifier × List Int)}
    (hrun : run ≠ []) (same : ∀ scope ∈ run, scope.1 = q) {d : ClauseDraft}
    (hsign : d.sign = q.sign) (hline : d.line = runLine run) :
    let last := (scopes.map fun scope => (Formula.scopeLine scope).toList).foldl addLine d
    last.close.text = d.text ++ zeroEnded ((quantifierRuns (run ++ scopes)).map runLine) ∧
      last.clauses = d.clauses := by
  induction scopes generalizing q run d with
  | nil =>
      rw [List.append_nil, quantifierRuns_of_same hrun same]
      simp [close, hline, String.append_assoc]
  | cons scope scopes ih =>
      rw [List.forall_mem_cons] at filled
      rw [List.map_cons, List.foldl_cons, addLine_scope d filled.1, addQuantifier]
      by_cases hsame : scope.1 = q
      · rw [hsign, hsame, if_pos rfl, extend_showInt, List.append_cons]
        refine ih filled.2 (by simp) ?_ hsign ?_
        · rw [List.forall_mem_append]
          exact ⟨same, by simpa using hsame⟩
        · rw [hline, runLine_append_singleton hrun]
      · have hother : d.sign ≠ scope.1.sign := fun heq =>
          hsame (Quantifier.sign_injective (hsign.symm.trans heq)).symm
        have hopen : d.line.isEmpty = false := by
          rw [hline]
          simpa using runLine_ne_empty hrun
        have hsplit : quantifierRuns (run ++ scope :: scopes) =
            run :: quantifierRuns (scope :: scopes) := by
          have hlast : ∀ x ∈ run.getLast?, (x.1 == scope.1) = false := by
            intro x hx
            rw [same x (List.mem_of_getLast? hx)]
            simpa using fun heq => hsame heq.symm
          have hrest := List.splitBy_append_cons (r := fun a b => a.1 == b.1) scopes hlast
          rw [show run.splitBy (fun a b => a.1 == b.1) = [run] from
            quantifierRuns_of_same hrun same] at hrest
          exact hrest
        rw [if_neg hother, hopen, if_neg Bool.false_ne_true, extend_showInt, hsplit, List.map_cons,
          zeroEnded_cons]
        have hrest := ih filled.2 (List.cons_ne_nil scope [])
          (show ∀ other ∈ [scope], other.1 = scope.1 by simp)
          (d := { d.close with sign := scope.1.sign, line := scope.1.sign ++ spaced scope.2 }) rfl
          (by simp [runLine])
        refine ⟨hrest.1.trans ?_, hrest.2⟩
        simp [close, hline, String.append_assoc]

/-- What becomes of a circuit text with at least one quantifier line, all of them with variables:
a line for each run of quantifiers, and a line for each gate that is taken for a clause. -/
theorem ofCircuit_join {scopes : List (Quantifier × List Int)} (quantified : scopes ≠ [])
    (filled : ∀ scope ∈ scopes, scope.2 ≠ []) (matrix : Int) {gates : List Gate}
    (legible : ∀ g ∈ gates, g.Legible) :
    let disjunctions := gates.filter Gate.isDisjunction
    let draft := ofCircuit (circuitHeader ++ Formula.renderScopes scopes ++
      outputLine (Text.showInt matrix) ++ renderGates gates)
    draft.text = zeroEnded ((quantifierRuns scopes).map runLine ++
        disjunctions.map fun g => Text.showInts " " g.operands) ∧
      draft.clauses = disjunctions.length := by
  have hlines := Text.lines_join fun line (hline : line ∈ circuitLines scopes matrix gates) =>
    (unbroken_circuitLines legible line hline).newline_not_mem
  rw [← join_circuitLines, circuitLines, List.map_cons, List.map_append, List.map_cons,
    List.map_map, List.map_map] at hlines
  obtain ⟨scope, others, rfl⟩ := List.exists_cons_of_ne_nil quantified
  rw [List.forall_mem_cons] at filled
  intro disjunctions draft
  -- The first quantifier line opens the first run.
  let start : ClauseDraft := { sign := scope.1.sign, line := scope.1.sign ++ spaced scope.2 }
  have hfirst : (({} : ClauseDraft).addLine "#QCIR-G14".toList).addLine
      (Formula.scopeLine scope).toList = start := by
    rw [addLine_header, addLine_scope _ filled.1, addQuantifier,
      if_neg scope.1.sign_ne_empty.symm, extend_showInt]
    rfl
  let prefixed := (others.map fun scope => (Formula.scopeLine scope).toList).foldl addLine start
  have hdraft : draft = ((gates.map fun g => g.line.toList).foldl addLine prefixed).close := by
    simp only [draft, ofCircuit, hlines]
    rw [List.foldl_cons, List.map_cons, List.cons_append, List.foldl_cons]
    simp only [Function.comp_apply]
    rw [hfirst, List.foldl_append, List.foldl_cons, addLine_output]
    rfl
  have hopening := close_foldl_scopes filled.2 (List.cons_ne_nil scope [])
    (show ∀ other ∈ [scope], other.1 = scope.1 by simp) (d := start) rfl (by simp [runLine, start])
  have hgates := close_foldl_gates legible prefixed
  rw [hdraft]
  constructor
  · rw [hgates.1, hopening.1]
    simp [disjunctions, start]
  · have hclauses := hgates.2
    rw [hopening.2, Nat.zero_add] at hclauses
    exact hclauses

end ClauseDraft

/-! ## The lines of a clause text -/

namespace Formula

variable {φ : Formula} {scopes : List (Quantifier × List Int)}

/-- The lines of a clause text: two comments, the counts, a line for each run of quantifiers, and a
line for each clause. -/
def clauseLines (φ : Formula) (scopes : List (Quantifier × List Int)) (clauses : List (List Int)) :
    List String :=
  ("c Formula Family: " ++ φ.name) ::
  ("c Values: " ++ (Expr.Value.record φ.values.keys φ.values.values).render) ::
  ("p cnf " ++ Nat.repr φ.vars.size ++ " " ++ Nat.repr clauses.length) ::
  ((quantifierRuns scopes).map (fun run => runLine run ++ " 0") ++
    clauses.map fun clause => Text.showInts " " clause ++ " 0")

theorem clausesOf_eq_join (quantified : scopes ≠ []) (filled : ∀ scope ∈ scopes, scope.2 ≠ [])
    (matrix : Int) {gates : List Gate} (legible : ∀ g ∈ gates, g.Legible) :
    φ.clausesOf (circuitHeader ++ renderScopes scopes ++ outputLine (Text.showInt matrix) ++
      renderGates gates) = String.join ((φ.clauseLines scopes
        ((gates.filter Gate.isDisjunction).map Gate.operands)).map (· ++ "\n")) := by
  obtain ⟨htext, hcount⟩ := ClauseDraft.ofCircuit_join quantified filled matrix legible
  have hlines : ∀ lines,
      zeroEnded lines = String.join ((lines.map (· ++ " 0")).map (· ++ "\n")) := by
    intro lines
    rw [zeroEnded, List.map_map]
    refine congrArg String.join (List.map_congr_left fun line _ => ?_)
    rw [Function.comp_apply, String.append_assoc]
    rfl
  unfold clausesOf
  dsimp only
  rw [htext, hcount, hlines]
  simp [clauseLines, String.append_assoc, Function.comp_def, -String.reduceAppend]

theorem newline_not_mem_spaced (ns : List Int) : '\n' ∉ (spaced ns).toList := by
  have hnumber := fun n => (unbroken_showInt n).newline_not_mem
  induction ns with
  | nil => decide
  | cons n ns ih =>
      have hcons : spaced (n :: ns) = " " ++ Text.showInt n ++ spaced ns := by simp [spaced]
      simp [hcons, hnumber, ih]

theorem newline_not_mem_runLine (run : List (Quantifier × List Int)) :
    '\n' ∉ (runLine run).toList := by
  cases run with
  | nil => decide
  | cons scope scopes =>
      have hsign : '\n' ∉ scope.1.sign.toList := by cases scope.1 <;> decide
      simp [runLine, hsign, newline_not_mem_spaced]

/-- A text with a name in one line falls into these lines. -/
theorem lines_clauseLines (named : '\n' ∉ φ.name.toList) (clauses : List (List Int)) :
    Text.lines (String.join ((φ.clauseLines scopes clauses).map (· ++ "\n"))).toList =
      (φ.clauseLines scopes clauses).map String.toList := by
  have hclause : ∀ clause : List Int, '\n' ∉ (Text.showInts " " clause).toList := fun clause =>
    (unbroken_showInts (unbroken_of_all (by decide)) clause).newline_not_mem
  refine Text.lines_join fun line hline => ?_
  simp only [clauseLines, List.mem_cons, List.mem_append, List.mem_map] at hline
  rcases hline with rfl | rfl | rfl | ⟨run, -, rfl⟩ | ⟨clause, -, rfl⟩
  · simp [named]
  · simp [Expr.Value.newline_not_mem_render]
  · simp [Text.newline_not_mem_toDigits]
  · simp [newline_not_mem_runLine]
  · simp [hclause]

end Formula

/-! ## Asking for a clause text -/

/-- Statements write no texts. -/
theorem Session.Built.unwritten {edition : Edition} {s : Session} (h : s.Built edition) :
    s.formula.circuitText = none ∧ s.formula.clauseText = none := by
  refine h.steps.invariant (I := fun φ => φ.circuitText = none ∧ φ.clauseText = none) ?_ ⟨rfl, rfl⟩
  intro φ ψ hstep hφ
  cases hstep <;> exact hφ

namespace Action

variable {edition : Edition} {s t : Session} {circuit : String}

theorem circuitText_of_generateCircuit (format : s.formula.format = some .cnf)
    (unwritten : s.formula.circuitText = none) :
    circuitText edition s = (generateCircuit edition >>= fun text => pure (some text)) s := by
  unfold circuitText
  rw [run_bind_of_ok (show formula s = .ok s.formula s from rfl), format]
  dsimp only
  rw [run_bind_of_ok (show formula s = .ok s.formula s from rfl), unwritten]

theorem generateCircuit_of_circuitText (format : s.formula.format = some .cnf)
    (unwritten : s.formula.circuitText = none)
    (run : circuitText edition s = .ok (some circuit) t) :
    generateCircuit edition s = .ok circuit t := by
  rw [circuitText_of_generateCircuit format unwritten] at run
  obtain ⟨_, _, hrun, hpure⟩ := exists_of_run_bind run
  cases hpure
  exact hrun

theorem clauseText_of_generateClauses (format : s.formula.format = some .cnf)
    (unwritten : s.formula.clauseText = none) :
    clauseText edition s = (generateClauses edition >>= fun text => pure (some text)) s := by
  unfold clauseText
  rw [run_bind_of_ok (show formula s = .ok s.formula s from rfl), format]
  dsimp only
  rw [run_bind_of_ok (show formula s = .ok s.formula s from rfl), unwritten]

/-- The clause text of a formula in clause form is made from its circuit text, whether that has been
kept or is written just now. -/
theorem clauseText_of_circuit (format : s.formula.format = some .cnf)
    (unwritten : s.formula.circuitText = none ∧ s.formula.clauseText = none)
    (run : generateCircuit edition s = .ok circuit t) :
    ∃ u, clauseText edition s = .ok (some (s.formula.clausesOf circuit)) u ∧
      clauseText edition t = .ok (some (s.formula.clausesOf circuit)) u := by
  have hformula := formula_of_generateCircuit run
  have htext : t.formula.clausesOf circuit = s.formula.clausesOf circuit := by
    rw [hformula]
    rfl
  let u := { t with
    formula := { t.formula with clauseText := some (s.formula.clausesOf circuit) } }
  have hwritten : generateClauses edition s = .ok (s.formula.clausesOf circuit) u := by
    unfold generateClauses
    rw [run_bind_of_ok (show formula s = .ok s.formula s from rfl), unwritten.1]
    dsimp only
    rw [run_bind_of_ok run]
    simp only [← htext, u]
    rfl
  have hkept : generateClauses edition t = .ok (s.formula.clausesOf circuit) u := by
    have hcircuit : t.formula.circuitText = some circuit := by rw [hformula]
    unfold generateClauses
    rw [run_bind_of_ok (show formula t = .ok t.formula t from rfl), hcircuit]
    simp only [← htext, u]
    rfl
  refine ⟨u, (clauseText_of_generateClauses format unwritten.2).trans (run_bind_of_ok hwritten),
    (clauseText_of_generateClauses ?_ ?_).trans (run_bind_of_ok hkept)⟩
  · rw [hformula]
    exact format
  · rw [hformula]
    exact unwritten.2

end Action

end QuantFamily
