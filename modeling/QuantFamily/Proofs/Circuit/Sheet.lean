import Mathlib.Data.List.Forall2
import QuantFamily.Circuit.Convert
import QuantFamily.Proofs.Gate.Text

/-!
# Clause texts

After its comments a text of clauses has a first line with two counts, lines of quantified
variables, and lines of clauses, all of which end with zero. It is written as it is read, and what
is written for a circuit is such a text.
-/

namespace QuantFamily

namespace Text

theorem words_append_spaces (text : List Char) (n : Nat) :
    words (text ++ List.replicate n ' ') = words text := by
  induction n with
  | zero => rw [List.replicate_zero, List.append_nil]
  | succ n ih =>
      have hspace : words (text ++ List.replicate n ' ' ++ ' ' :: []) = words text := by
        rw [words_append_cons (by decide), ih]
        exact List.append_nil _
      rwa [List.replicate_succ', ← List.append_assoc]

theorem words_showInt (n : Int) : words (showInt n).toList = [(showInt n).toList] := by
  rw [words, splitAt_of_not_mem fun c hc => isBlank_eq_false_of_mem_showInt hc]
  simp [showInt_ne_nil n]

theorem showInts_singleton (n : Int) : showInts " " [n] = showInt n := by
  simp [showInts]

theorem words_showInts (ns : List Int) :
    words (showInts " " ns).toList = ns.map fun n => (showInt n).toList := by
  induction ns with
  | nil => rfl
  | cons n ns ih =>
      cases ns with
      | nil =>
          rw [showInts_singleton, words_showInt]
          rfl
      | cons m ns =>
          have hcons : (showInts " " (n :: m :: ns)).toList =
              (showInt n).toList ++ ' ' :: (showInts " " (m :: ns)).toList := by
            simp [toList_showInts_cons]
          rw [hcons, words_append_cons (by decide), words_showInt, ih]
          rfl

theorem toList_pushn (text : String) (c : Char) (n : Nat) :
    (text.pushn c n).toList = text.toList ++ List.replicate n c := by
  induction n with
  | zero => simp [String.pushn, Nat.repeat]
  | succ n ih =>
      rw [List.replicate_succ', ← List.append_assoc, ← ih]
      simp [String.pushn, Nat.repeat]

end Text

/-! ## Reading clauses -/

namespace Circuit

/-- Numbers up to a zero at the end. -/
def zeroEnded? : List (List Char) → Option (List Int)
  | [] => none
  | word :: rest => do
      let n <- Text.readInt? word
      if n ≠ 0 then return n :: (<- zeroEnded? rest)
      if rest = [] then some [] else none

def scope? (line : List Char) : Option Scope :=
  match Text.words line with
  | ['e'] :: rest => do return ⟨.exists, <- zeroEnded? rest⟩
  | ['a'] :: rest => do return ⟨.forall, <- zeroEnded? rest⟩
  | _ => none

def clause? (line : List Char) : Option (List Int) :=
  zeroEnded? (Text.words line)

/-- Lines of quantified variables, and then lines with clauses. -/
def body? : List (List Char) → Option (List Scope × List (List Int))
  | [] => some ([], [])
  | line :: rest =>
      match scope? line with
      | some scope => do
          let (scopes, clauses) <- body? rest
          return (scope :: scopes, clauses)
      | none => do return ([], <- (line :: rest).mapM clause?)

def counts? (line : List Char) : Option (Int × Int) :=
  match Text.words line with
  | [['p'], ['c', 'n', 'f'], greatest, count] => do
      return (<- Text.readInt? greatest, <- Text.readInt? count)
  | _ => none

/-- What a text of clauses says: the greatest variable and the number of clauses that its first
line gives, quantifier blocks, and clauses. -/
structure Sheet where
  greatest : Int
  count : Int
  scopes : List Scope
  clauses : List (List Int)
deriving DecidableEq

namespace Sheet

def read? (text : String) : Option Sheet :=
  match Text.lines text.toList with
  | [] => none
  | first :: rest => do
      let (greatest, count) <- counts? first
      let (scopes, clauses) <- body? rest
      return { greatest, count, scopes, clauses }

end Sheet

/-! ## Writing clauses -/

def scopeText (scope : Scope) : String :=
  (if scope.binder = .exists then "e" else "a") ++ " " ++ Text.showInts " " scope.vars ++ "  0"

def clauseText (clause : List Int) : String :=
  Text.showInts " " clause ++ "  0"

theorem zeroEnded?_showInt {ns : List Int} (h : ∀ n ∈ ns, n ≠ 0) :
    zeroEnded? (ns.map (fun n => (Text.showInt n).toList) ++ [['0']]) = some ns := by
  induction ns with
  | nil => rfl
  | cons n ns ih =>
      rw [List.forall_mem_cons] at h
      simp [zeroEnded?, Text.readInt?_showInt, h.1, ih h.2]

theorem words_clauseText (clause : List Int) :
    Text.words (clauseText clause).toList =
      clause.map (fun n => (Text.showInt n).toList) ++ [['0']] := by
  have htext : (clauseText clause).toList =
      (Text.showInts " " clause).toList ++ ' ' :: [' ', '0'] := by
    simp [clauseText, String.toList_append]
  rw [htext, Text.words_append_cons (by decide), Text.words_showInts]
  rfl

theorem clause?_clauseText {clause : List Int} (h : ∀ n ∈ clause, n ≠ 0) :
    clause? (clauseText clause).toList = some clause := by
  rw [clause?, words_clauseText, zeroEnded?_showInt h]

theorem toList_scopeText (scope : Scope) :
    (scopeText scope).toList =
      [if scope.binder = .exists then 'e' else 'a'] ++ ' ' :: (clauseText scope.vars).toList := by
  unfold scopeText clauseText
  split <;> simp [String.toList_append]

theorem words_scopeText (scope : Scope) :
    Text.words (scopeText scope).toList =
      [if scope.binder = .exists then 'e' else 'a'] ::
        (scope.vars.map (fun n => (Text.showInt n).toList) ++ [['0']]) := by
  rw [toList_scopeText, Text.words_append_cons (by decide), words_clauseText]
  split <;> rfl

theorem scope?_scopeText {scope : Scope} (hbinder : scope.binder = .exists ∨ scope.binder = .forall)
    (h : ∀ n ∈ scope.vars, n ≠ 0) : scope? (scopeText scope).toList = some scope := by
  rw [scope?, words_scopeText]
  obtain ⟨binder, vars⟩ := scope
  rcases hbinder with rfl | rfl
  · simp [zeroEnded?_showInt h]
  · simp [zeroEnded?_showInt h]

theorem scope?_clauseText (clause : List Int) : scope? (clauseText clause).toList = none := by
  rw [scope?, words_clauseText]
  cases clause with
  | nil => rfl
  | cons n ns =>
      have hletter : ∀ c : Char, c.isDigit = false → c ≠ '-' → (Text.showInt n).toList ≠ [c] := by
        intro c hdigit hsign heq
        exact Text.not_mem_showInt hdigit hsign n (heq ▸ List.mem_cons_self)
      split
      · rename_i heq
        exact absurd (List.cons.inj heq).1 (hletter 'e' (by decide) (by decide))
      · rename_i heq
        exact absurd (List.cons.inj heq).1 (hletter 'a' (by decide) (by decide))
      · rfl

theorem mapM_clause? {clauses : List (List Int)} (h : ∀ clause ∈ clauses, ∀ n ∈ clause, n ≠ 0) :
    (clauses.map fun clause => (clauseText clause).toList).mapM clause? = some clauses := by
  induction clauses with
  | nil => rfl
  | cons clause clauses ih =>
      rw [List.forall_mem_cons] at h
      simp [List.mapM_cons, clause?_clauseText h.1, ih h.2]

theorem body?_texts {scopes : List Scope} {clauses : List (List Int)}
    (hbinder : ∀ s ∈ scopes, s.binder = .exists ∨ s.binder = .forall)
    (hvars : ∀ s ∈ scopes, ∀ n ∈ s.vars, n ≠ 0) (h : ∀ clause ∈ clauses, ∀ n ∈ clause, n ≠ 0) :
    body? (scopes.map (fun s => (scopeText s).toList) ++
      clauses.map fun clause => (clauseText clause).toList) = some (scopes, clauses) := by
  induction scopes with
  | nil =>
      cases clauses with
      | nil => rfl
      | cons clause clauses =>
          have hread := mapM_clause? h
          rw [List.map_cons] at hread
          simp [body?, scope?_clauseText, hread]
  | cons scope scopes ih =>
      rw [List.forall_mem_cons] at hbinder hvars
      simp [body?, scope?_scopeText hbinder.1 hvars.1, ih hbinder.2 hvars.2]

theorem unbroken_clauseText (clause : List Int) : Unbroken (clauseText clause).toList := by
  rw [clauseText, String.toList_append, unbroken_append]
  exact ⟨unbroken_showInts (unbroken_of_all (by decide)) clause, unbroken_of_all (by decide)⟩

theorem unbroken_scopeText (scope : Scope) : Unbroken (scopeText scope).toList := by
  rw [toList_scopeText]
  split <;> simp [unbroken_clauseText] <;> decide

theorem toList_firstLine (text : String) :
    (firstLine text).toList = text.toList ++ List.replicate (78 - text.length) ' ' ++ ['\n'] := by
  simp [firstLine, String.toList_append, Text.toList_pushn]

theorem counts?_spaces (greatest count : Int) (n : Nat) :
    counts? (("p cnf " ++ Text.showInt greatest ++ " " ++ Text.showInt count ++ " ").toList ++
      List.replicate n ' ') = some (greatest, count) := by
  have htext : ("p cnf " ++ Text.showInt greatest ++ " " ++ Text.showInt count ++ " ").toList =
      ['p'] ++ ' ' :: (['c', 'n', 'f'] ++ ' ' :: ((Text.showInt greatest).toList ++
        ' ' :: ((Text.showInt count).toList ++ ' ' :: []))) := by
    simp [String.toList_append]
  have hblank : Text.isBlank ' ' = true := by decide
  have hwords : Text.words (("p cnf " ++ Text.showInt greatest ++ " " ++ Text.showInt count ++
      " ").toList ++ List.replicate n ' ') =
        [['p'], ['c', 'n', 'f'], (Text.showInt greatest).toList, (Text.showInt count).toList] := by
    rw [Text.words_append_spaces, htext, Text.words_append_cons hblank,
      Text.words_append_cons hblank, Text.words_append_cons hblank, Text.words_append_cons hblank,
      Text.words_showInt, Text.words_showInt]
    rfl
  rw [counts?, hwords]
  simp [Text.readInt?_showInt]

namespace Sheet

def text (sheet : Sheet) : String :=
  firstLine ("p cnf " ++ Text.showInt sheet.greatest ++ " " ++ Text.showInt sheet.count ++ " ") ++
    String.join ((sheet.scopes.map scopeText ++ sheet.clauses.map clauseText).map (· ++ "\n"))

/-- What can be read back: known quantifiers, and zero only at the ends of the lines. -/
structure Legible (sheet : Sheet) : Prop where
  binder : ∀ s ∈ sheet.scopes, s.binder = .exists ∨ s.binder = .forall
  vars : ∀ s ∈ sheet.scopes, ∀ n ∈ s.vars, n ≠ 0
  literals : ∀ clause ∈ sheet.clauses, ∀ n ∈ clause, n ≠ 0

theorem read?_text {sheet : Sheet} (h : sheet.Legible) : read? sheet.text = some sheet := by
  have hparts : ∀ part ∈ sheet.scopes.map scopeText ++ sheet.clauses.map clauseText,
      '\n' ∉ part.toList := by
    intro part hpart
    rcases List.mem_append.mp hpart with hpart | hpart
    · obtain ⟨scope, -, rfl⟩ := List.mem_map.mp hpart
      exact (unbroken_scopeText scope).newline_not_mem
    · obtain ⟨clause, -, rfl⟩ := List.mem_map.mp hpart
      exact (unbroken_clauseText clause).newline_not_mem
  have hbody : body? ((sheet.scopes.map scopeText ++ sheet.clauses.map clauseText).map
      String.toList) = some (sheet.scopes, sheet.clauses) := by
    rw [List.map_append, List.map_map, List.map_map]
    exact body?_texts h.binder h.vars h.literals
  unfold read? text
  generalize hfirst : "p cnf " ++ Text.showInt sheet.greatest ++ " " ++
    Text.showInt sheet.count ++ " " = first
  have hline : '\n' ∉ first.toList ++ List.replicate (78 - first.length) ' ' := by
    have hnumber := fun n => (unbroken_showInt n).newline_not_mem
    rw [← hfirst]
    simp [String.toList_append, hnumber]
  have hcounts := counts?_spaces sheet.greatest sheet.count (78 - first.length)
  rw [hfirst] at hcounts
  rw [String.toList_append, toList_firstLine, List.append_assoc, List.singleton_append,
    Text.lines_append_newline hline, Text.lines_join hparts]
  simp only [hcounts, hbody]
  rfl

end Sheet

/-! ## What is written for a circuit -/

theorem lift_run {α : Type} {s t : String} {outcome : Except Fault α} {a : α}
    (run : Writing.lift outcome s = .ok a t) :
    outcome = .ok a ∧ t = s := by
  cases outcome <;> cases run
  exact ⟨rfl, rfl⟩

def Lists (numbers : Table Circuit Int) (clause : List Circuit) (literals : List Int) : Prop :=
  clause.mapM (Numbering.number numbers) = .ok literals

/-- The clauses of a gate, none if it has no clauses. -/
def clausesOf (gate : Circuit) : List (List Circuit) :=
  (gateClauses? gate).getD []

section Writing

variable {numbers : Table Circuit Int} {l : Layout} {c : Circuit} {s t : String}

theorem writeClause_run {clause : List Circuit} (run : writeClause numbers clause s = .ok () t) :
    ∃ literals, Lists numbers clause literals ∧ t = s ++ (clauseText literals ++ "\n") := by
  unfold writeClause at run
  obtain ⟨literals, u, hnumbers, hrest⟩ := exists_of_run_bind run
  obtain ⟨hlists, rfl⟩ := lift_run hnumbers
  obtain ⟨_, v, hcheck, hemit⟩ := exists_of_run_bind hrest
  obtain ⟨-, rfl⟩ := lift_run hcheck
  cases hemit
  refine ⟨literals, hlists, ?_⟩
  rw [clauseText, String.append_assoc]
  rfl

theorem scopeClauseLine_run {scope : Scope} (run : scopeClauseLine scope s = .ok () t) :
    (scope.binder = .exists ∨ scope.binder = .forall) ∧ t = s ++ (scopeText scope ++ "\n") := by
  obtain ⟨binder, vars⟩ := scope
  have hline : ∀ sign : String, (sign ++ " " ++ Text.showInts " " vars ++ "  0") ++ "\n" =
      sign ++ " " ++ Text.showInts " " vars ++ "  0\n" := fun sign => by
    rw [String.append_assoc]
    rfl
  cases binder with
  | «exists» =>
      cases run
      exact ⟨Or.inl rfl, by rw [scopeText, if_pos rfl, hline]⟩
  | «forall» =>
      cases run
      exact ⟨Or.inr rfl, by rw [scopeText, if_neg (by simp), hline]⟩
  | free => cases run
  | unknown word => cases run

theorem scopes_run {scopes : List Scope} (run : scopes.forM scopeClauseLine s = .ok () t) :
    (∀ scope ∈ scopes, scope.binder = .exists ∨ scope.binder = .forall) ∧
      t = s ++ String.join (scopes.map fun scope => scopeText scope ++ "\n") := by
  induction scopes generalizing s with
  | nil =>
      cases run
      exact ⟨by simp, by simp⟩
  | cons scope scopes ih =>
      change (scopeClauseLine scope >>= fun _ => scopes.forM scopeClauseLine) s = .ok () t at run
      obtain ⟨_, u, hfirst, hrest⟩ := exists_of_run_bind run
      obtain ⟨hbinder, rfl⟩ := scopeClauseLine_run hfirst
      obtain ⟨hbinders, rfl⟩ := ih hrest
      refine ⟨List.forall_mem_cons.mpr ⟨hbinder, hbinders⟩, ?_⟩
      rw [List.map_cons, String.join_cons, String.append_assoc]

theorem clauses_run {clauses : List (List Circuit)}
    (run : clauses.forM (writeClause numbers) s = .ok () t) :
    ∃ written, List.Forall₂ (Lists numbers) clauses written ∧
      t = s ++ String.join (written.map fun literals => clauseText literals ++ "\n") := by
  induction clauses generalizing s with
  | nil =>
      cases run
      exact ⟨[], .nil, by simp⟩
  | cons clause clauses ih =>
      change (writeClause numbers clause >>= fun _ => clauses.forM (writeClause numbers)) s =
        .ok () t at run
      obtain ⟨_, u, hfirst, hrest⟩ := exists_of_run_bind run
      obtain ⟨literals, hliterals, rfl⟩ := writeClause_run hfirst
      obtain ⟨written, hwritten, rfl⟩ := ih hrest
      refine ⟨literals :: written, .cons hliterals hwritten, ?_⟩
      rw [List.map_cons, String.join_cons, String.append_assoc]

theorem gates_run {gates : List (Circuit × Place)} {counts : List Nat}
    (run : (gates.mapM fun entry => (do
      match gateClauses? entry.1 with
      | some clauses => do
          clauses.forM (writeClause numbers)
          return clauses.length
      | none => throw (.unwritableOperator c.text) : Writing Nat)) s = .ok counts t) :
    ∃ clauses, List.Forall₂ (Lists numbers) (gates.flatMap fun entry => clausesOf entry.1) clauses ∧
      counts.foldr (· + ·) 0 = clauses.length ∧
      t = s ++ String.join (clauses.map fun literals => clauseText literals ++ "\n") := by
  induction gates generalizing s counts with
  | nil =>
      cases run
      exact ⟨[], .nil, rfl, by simp⟩
  | cons entry gates ih =>
      rw [List.mapM_cons] at run
      obtain ⟨count, u, hfirst, hrest⟩ := exists_of_run_bind run
      obtain ⟨counts, v, hcounts, hlast⟩ := exists_of_run_bind hrest
      cases hlast
      obtain ⟨others, hothers, hcount, rfl⟩ := ih hcounts
      cases hgate : gateClauses? entry.1 with
      | none =>
          rw [hgate] at hfirst
          cases hfirst
      | some own =>
          rw [hgate] at hfirst
          obtain ⟨_, w, hown, hlength⟩ := exists_of_run_bind hfirst
          cases hlength
          obtain ⟨clauses, hclauses, rfl⟩ := clauses_run hown
          refine ⟨clauses ++ others, ?_, ?_, ?_⟩
          · rw [List.flatMap_cons, clausesOf, hgate]
            exact List.rel_append hclauses hothers
          · rw [List.foldr_cons, hcount, hclauses.length_eq, List.length_append]
          · rw [List.map_append, String.join_append, String.append_assoc]

/-- What is written for a circuit: the gates are added to the quantified variables, the circuit
itself is a clause, and the clauses of its gates follow. -/
structure Sheet.Describes (sheet : Sheet) (l : Layout) (scopes : List Scope) (c : Circuit) :
    Prop where
  greatest : sheet.greatest = Numbering.largest l.numbers
  count : sheet.count = sheet.clauses.length
  scopes : ∃ gates, l.gates.mapM (fun entry => Numbering.number l.numbers entry.1) = .ok gates ∧
    withGates gates scopes = .ok sheet.scopes
  binder : ∀ s ∈ sheet.scopes, s.binder = .exists ∨ s.binder = .forall
  clauses : List.Forall₂ (Lists l.numbers)
    ([c] :: l.gates.flatMap fun entry => clausesOf entry.1) sheet.clauses

theorem clauseLines_run {scopes : List Scope} {count : Nat}
    (run : clauseLines l scopes c s = .ok count t) :
    ∃ sheet : Sheet, sheet.Describes l scopes c ∧ sheet.count = count ∧
      t = s ++ String.join ((sheet.scopes.map scopeText ++ sheet.clauses.map clauseText).map
        (· ++ "\n")) := by
  unfold clauseLines at run
  obtain ⟨gates, u, hlift, run₁⟩ := exists_of_run_bind run
  obtain ⟨hgates, rfl⟩ := lift_run hlift
  obtain ⟨written, v, hlift, run₂⟩ := exists_of_run_bind run₁
  obtain ⟨hwritten, rfl⟩ := lift_run hlift
  obtain ⟨_, w, hscopes, run₃⟩ := exists_of_run_bind run₂
  obtain ⟨hbinder, rfl⟩ := scopes_run hscopes
  obtain ⟨_, x, hunit, run₄⟩ := exists_of_run_bind run₃
  obtain ⟨unit, hlists, rfl⟩ := writeClause_run hunit
  obtain ⟨counts, y, hcounts, run₅⟩ := exists_of_run_bind run₄
  cases run₅
  obtain ⟨clauses, hclauses, hcount, rfl⟩ := gates_run hcounts
  refine ⟨⟨Numbering.largest l.numbers, (unit :: clauses).length, written, unit :: clauses⟩,
    ⟨rfl, rfl, ⟨gates, hgates, hwritten⟩, hbinder, .cons hlists hclauses⟩, ?_, ?_⟩
  · rw [hcount, List.length_cons, Nat.add_comm]
  · simp [String.join_append, String.append_assoc, Function.comp_def]

theorem run_of_outcome {writing : Writing Unit} {text : String}
    (h : writing.outcome = { text := some text }) : writing "" = .ok () text := by
  unfold Writing.outcome at h
  change EStateM.run writing "" = .ok () text
  cases hrun : EStateM.run writing "" <;> rw [hrun] at h <;> cases h
  rfl

theorem outcome_of_text {outcome : Outcome} {text : String} (htext : outcome.text = some text)
    (hfault : outcome.fault.isNone = true) : outcome = { text := some text } := by
  obtain ⟨_, _ | fault⟩ := outcome
  · cases htext
    rfl
  · cases hfault

/-- Names of variables that are not kept make no difference. -/
theorem writeClauses_unnamed (setting : Setting) (h : setting.keepVariableNames = false)
    (names : Table Nat String) (scopes : List Scope) (c : Circuit) :
    writeClauses { setting with variableNames := names } scopes c =
      writeClauses setting scopes c := by
  have hnames : nameLines "c " { setting with variableNames := names } =
      nameLines "c " setting := by
    simp [nameLines, h]
  unfold writeClauses
  rw [hnames]

/-- A completed text of clauses is the text of a sheet that describes the circuit. -/
theorem sheet_of_writeClauses {setting : Setting} {scopes : List Scope} {text : String}
    (hc : ∀ b, c ≠ .const b) (h : (writeClauses setting scopes c).outcome = { text := some text }) :
    ∃ l sheet, layout setting.gateNames c = .ok l ∧ Sheet.Describes sheet l scopes c ∧
      text = nameLines "c " setting ++ sheet.text := by
  have run := run_of_outcome h
  rw [writeClauses.eq_def] at run
  split at run
  · exact absurd rfl (hc true)
  · exact absurd rfl (hc false)
  obtain ⟨l, u, hlift, run₁⟩ := exists_of_run_bind run
  obtain ⟨hlayout, rfl⟩ := lift_run hlift
  cases hlines : (clauseLines l scopes c).run "" with
  | error fault body =>
      rw [hlines] at run₁
      obtain ⟨_, v, -, hthrow⟩ := exists_of_run_bind run₁
      cases hthrow
  | ok count body =>
      rw [hlines] at run₁
      cases run₁
      obtain ⟨sheet, hsheet, hcount, rfl⟩ := clauseLines_run hlines
      refine ⟨l, sheet, hlayout, hsheet, ?_⟩
      beta_reduce
      rw [Sheet.text, hsheet.greatest, hcount, String.empty_append, String.empty_append,
        String.append_assoc]
      rfl

end Writing

/-- What is known when a document that was read is written again. -/
def Conversion.setting (conversion : Conversion) (document : Document) : Setting where
  keepVariableNames := conversion.keepVariableNames
  keepGateNames := conversion.keepGateNames
  variableNames := document.variableNames
  gateNames := document.gateNames

/-- Whether a text is prepared as the given document and circuit, names of variables apart. -/
def Conversion.prepares (conversion : Conversion) (text : String) (document : Document)
    (c : Circuit) : Bool :=
  match conversion.prepare text with
  | .ok (found, d) => decide (found.scopes = document.scopes ∧ found.output = document.output ∧
      found.gateNames.entries = document.gateNames.entries ∧ d = c)
  | .error _ => false

theorem prepare_of_prepares {conversion : Conversion} {text : String} {document : Document}
    {c : Circuit} (h : conversion.prepares text document c = true) :
    ∃ names, conversion.prepare text = .ok ({ document with variableNames := names }, c) := by
  unfold Conversion.prepares at h
  split at h
  · rename_i found d hprepare
    obtain ⟨hscopes, houtput, hgates, rfl⟩ := of_decide_eq_true h
    refine ⟨found.variableNames, ?_⟩
    rw [hprepare]
    obtain ⟨_, _, _, ⟨_⟩⟩ := found
    obtain ⟨_, _, _, ⟨_⟩⟩ := document
    simp_all
  · cases h

theorem run_of_prepare {conversion : Conversion} {text : String} {document : Document} {c : Circuit}
    (hformat : conversion.format = "qdimacs")
    (h : conversion.prepare text = .ok (document, c)) :
    conversion.run text =
      (writeClauses (conversion.setting document) document.scopes c).outcome := by
  rw [Conversion.run, h]
  simp only [hformat]
  rfl

end Circuit

end QuantFamily
