import QuantFamily.Proofs.Visit.Queue

/-!
# Quantified gates from a queue

A circuit that is not prenex has quantified gates among the others. Such a gate lists variables, and
after a semicolon it names the gate that they are bound in. The gates are visited breadth first from
the output block and written in reverse, as in the texts of the queue, and their lines are in order
under the same condition.
-/

namespace QuantFamily

open Circuit.Reader (isNameChar items gateParts?)

/-! ## Lines of quantified gates -/

/-- A gate that may bind variables. A gate that does has one operand. -/
structure NestedGate where
  gate : Gate
  bound : Option (List Int)
deriving DecidableEq

namespace NestedGate

/-- What stands between the brackets. -/
def inner (g : NestedGate) : String :=
  match g.bound with
  | none => commaList g.gate.operands
  | some vars => commaList vars ++ "; " ++ commaList g.gate.operands

def line (g : NestedGate) : String :=
  Text.showInt g.gate.id ++ " = " ++ g.gate.word ++ "(" ++ g.inner ++ ")"

/-- Read the line of a gate that may bind variables. -/
def read? (line : List Char) : Option NestedGate := do
  let (name, word, inner) <- gateParts? line
  let id <- Text.readInt? name.toList
  let first <- (items (inner.takeWhile (· ≠ ';'))).mapM Text.readInt?
  match inner.dropWhile (· ≠ ';') with
  | [] => return ⟨⟨id, word, first⟩, none⟩
  | _ :: rest => return ⟨⟨id, word, (<- (items rest).mapM Text.readInt?)⟩, some first⟩

theorem toList_line (g : NestedGate) :
    g.line.toList = (Text.showInt g.gate.id).toList ++ ' ' :: '=' :: ' ' ::
      (g.gate.word.toList ++ '(' :: (g.inner.toList ++ [')'])) := by
  simp [line, String.toList_append]

theorem semicolon_not_mem_commaList (ns : List Int) :
    ∀ c ∈ (commaList ns).toList, decide (c ≠ ';') = true := by
  intro c hc
  apply decide_eq_true
  rintro rfl
  rcases mem_commaList hc with h | h | h | h <;> exact absurd h (by decide)

theorem items_space (rest : List Char) : items (' ' :: rest) = items rest := by
  have hblank : Text.isBlank ' ' = true := by decide
  rw [items, List.map_cons, if_neg (by decide), ← List.nil_append (' ' :: _),
    Text.words_append_cons hblank]
  rfl

/-- The line of a gate is read as the gate, with what it binds. -/
theorem read?_line {g : NestedGate} (h : g.gate.Legible) : read? g.line.toList = some g := by
  obtain ⟨gate, bound⟩ := g
  rw [toList_line, read?, Gate.gateParts?_bracketed h]
  cases bound with
  | none =>
      have hinner : (inner ⟨gate, none⟩).toList = (commaList gate.operands).toList ++ [] :=
        (List.append_nil _).symm
      have hsolid := semicolon_not_mem_commaList gate.operands
      simp only [hinner, Option.bind_eq_bind, Option.bind_some, Text.readInt?_showInt,
        List.takeWhile_append_of_pos hsolid, List.dropWhile_append_of_pos hsolid]
      simp [mapM_readInt?_items]
  | some vars =>
      have hsolid := semicolon_not_mem_commaList vars
      have hinner : (inner ⟨gate, some vars⟩).toList =
          (commaList vars).toList ++ ';' :: ' ' :: (commaList gate.operands).toList := by
        simp [inner, String.toList_append]
      simp only [hinner, Option.bind_eq_bind, Option.bind_some, Text.readInt?_showInt,
        List.takeWhile_append_of_pos hsolid, List.dropWhile_append_of_pos hsolid]
      simp [items_space, mapM_readInt?_items]

theorem unbroken_line {g : NestedGate} (h : g.gate.Legible) : Unbroken g.line.toList := by
  have hinner : Unbroken g.inner.toList := by
    unfold inner
    split
    · exact unbroken_commaList _
    · simp only [String.toList_append, unbroken_append, unbroken_commaList]
      exact ⟨⟨trivial, unbroken_of_all (by decide)⟩, trivial⟩
  rw [toList_line]
  simp only [unbroken_append, unbroken_showInt, unbroken_cons, unbroken_of_letters h.letters,
    hinner, unbroken_nil]
  decide

end NestedGate

/-- The gates that a text with quantified gates defines, in the order of their lines. -/
def nestedGatesIn (text : String) : List NestedGate :=
  linesRead NestedGate.read? text

def renderNested (gates : List NestedGate) : String :=
  String.join (gates.map fun g => g.line ++ "\n")

/-- A text with quantified gates says what was put into it. -/
theorem nested_text_read (output : Id) {gates : List NestedGate}
    (h : ∀ g ∈ gates, g.gate.Legible) :
    nestedGatesIn (circuitHeader ++ outputLine (Text.showInt output) ++ renderNested gates) =
      gates := by
  have houtput : ∀ c ∈ "output".toList, isNameChar c = true := List.all_eq_true.mp (by decide)
  have hread : NestedGate.read?
      ("output".toList ++ '(' :: ((Text.showInt output).toList ++ [')'])) = none := by
    rw [NestedGate.read?, gateParts?_eq_none houtput (by decide) (by decide)]
    rfl
  rw [outputLine_eq, String.append_assoc, nestedGatesIn, silent_circuitHeader rfl,
    linesRead_line_append (unbroken_outputLine output).newline_not_mem, toList_outputLine, hread]
  exact linesRead_join fun g hg =>
    ⟨(NestedGate.unbroken_line (h g hg)).newline_not_mem, NestedGate.read?_line (h g hg)⟩

/-! ## The gate of a block -/

namespace Formula

variable {φ : Formula} {b c : Block}

/-- The gate of a block, which is quantified if the first of two bricks is a quantified block. -/
def nestedGate (φ : Formula) (b : Block) : NestedGate :=
  match φ.quantifiedPair b.body with
  | some (q, first, second) =>
      ⟨⟨b.id, q.word, [second]⟩, some ((φ.literals φ.nestingBound [first]).toOption.getD [])⟩
  | none => ⟨b.listGate, none⟩

/-- The blocks that the gate of a block refers to. -/
def nestedOperands (φ : Formula) (b : Block) : List Block :=
  match φ.quantifiedPair b.body with
  | some (_, _, second) => (φ.contents.get? second).toList
  | none => φ.operandsOf b

theorem dropTwo_literals (ns : List Int) :
    dropTwo (literalList ns) = commaList ns := by
  apply String.toList_injective
  by_cases hns : ns = []
  · subst hns
    rfl
  · exact toList_dropTwo (toList_join_literals hns)

/-- A quantified gate is written if its variables and its matrix are found. -/
theorem WellFormed.nestedLine_quantified (hφ : φ.WellFormed)
    (held : φ.contents.get? b.id = some b) {q : Quantifier} {first second : Id}
    (hpair : φ.quantifiedPair b.body = some (q, first, second)) {result : String × List Block}
    (h : φ.nestedLine b = .ok result) :
    ∃ ns matrix, φ.literals φ.nestingBound [first] = .ok ns ∧
      φ.contents.get? second = some matrix ∧
      result = ((⟨⟨b.id, q.word, [second]⟩, some ns⟩ : NestedGate).line ++ "\n", [matrix]) := by
  have hname := (hφ.filed b.id b (Table.mem_entries_of_get? held)).2
  unfold nestedLine at h
  simp only [hpair, hname] at h
  obtain ⟨vars, hvars, h⟩ := exists_ok_of_bind h
  obtain ⟨matrix, hmatrix, h⟩ := exists_ok_of_bind h
  obtain ⟨ns, hns, rfl⟩ := literalText_eq_ok_iff.mp hvars
  cases h
  refine ⟨ns, matrix, hns, Action.get?_of_contentsOf hmatrix, ?_⟩
  have hend : ")\n" = ")" ++ "\n" := by decide
  have hone : commaList [second] = Text.showInt second := by simp [commaList, Text.showInts]
  rw [dropTwo_literals, NestedGate.line, NestedGate.inner, hone, hend]
  simp only [String.append_assoc]

theorem WellFormed.nestedLine_eq (hφ : φ.WellFormed) (held : φ.contents.get? b.id = some b)
    {result : String × List Block} (h : φ.nestedLine b = .ok result) :
    result = ((φ.nestedGate b).line ++ "\n", φ.nestedOperands b) := by
  cases hpair : φ.quantifiedPair b.body with
  | some pair =>
      obtain ⟨q, first, second⟩ := pair
      obtain ⟨ns, matrix, hns, hmatrix, rfl⟩ := hφ.nestedLine_quantified held hpair h
      simp only [nestedGate, nestedOperands, hpair, hns, hmatrix]
      rfl
  | none =>
      unfold nestedLine at h
      simp only [hpair] at h
      cases h
      simp only [nestedGate, nestedOperands, hpair, listLine_eq]
      rfl

theorem WellFormed.legible_nestedGate (hφ : φ.WellFormed) (held : φ.contents.get? b.id = some b) :
    (φ.nestedGate b).gate.Legible := by
  unfold nestedGate
  split
  · rename_i q first second hpair
    have hword := (Attribute.quantifier q).word_letters
    exact ⟨(hφ.legible_listGate held).nonneg, hword.1, hword.2⟩
  · exact hφ.legible_listGate held

theorem WellFormed.held_of_mem_nestedOperands (hφ : φ.WellFormed) (hc : c ∈ φ.nestedOperands b) :
    φ.contents.get? c.id = some c := by
  unfold nestedOperands at hc
  split at hc
  · have hget := Option.mem_toList.mp hc
    exact (hφ.held hget).1 ▸ hget
  · exact (hφ.mem_operandsOf.mp hc).1

/-- A gate that is written refers to the blocks that are visited after it, and else to variables. -/
theorem WellFormed.renders_nestedGate (hφ : φ.WellFormed) (hfull : φ.Complete)
    (held : φ.contents.get? b.id = some b) {result : String × List Block}
    (h : φ.nestedLine b = .ok result) :
    φ.Renders φ.nestedOperands (fun b => (φ.nestedGate b).gate) b := by
  cases hpair : φ.quantifiedPair b.body with
  | none =>
      have hplain := hφ.renders_listGate hfull held
      have hnext : φ.nestedOperands b = φ.operandsOf b := by simp only [nestedOperands, hpair]
      have hgate : (φ.nestedGate b).gate = b.listGate := by simp only [nestedGate, hpair]
      exact ⟨by rw [hgate]; exact hplain.id, by rw [hnext]; exact hplain.held,
        by rw [hnext, hgate]; exact hplain.operand, by rw [hnext, hgate]; exact hplain.used⟩
  | some pair =>
      obtain ⟨q, first, second⟩ := pair
      obtain ⟨ns, matrix, -, hmatrix, -⟩ := hφ.nestedLine_quantified held hpair h
      have hid : matrix.id = second := (hφ.held hmatrix).1
      have hsecond : (second.natAbs : Int) = second :=
        Int.natAbs_of_nonneg (Int.le_trans (by decide) (hφ.held_range hmatrix).1)
      have hnext : φ.nestedOperands b = [matrix] := by
        simp only [nestedOperands, hpair, hmatrix, Option.toList_some]
      have hgate : (φ.nestedGate b).gate = ⟨b.id, q.word, [second]⟩ := by
        simp only [nestedGate, hpair]
      exact {
        id := by rw [hgate]
        held := fun c => hφ.held_of_mem_nestedOperands
        operand := by
          rw [hnext, hgate]
          intro e he
          rw [List.mem_singleton.mp he]
          exact Or.inr ⟨matrix, List.mem_singleton_self matrix, hid.trans hsecond.symm⟩
        used := by
          rw [hnext, hgate]
          intro c hc
          rw [List.mem_singleton.mp hc]
          exact ⟨second, List.mem_singleton_self second, hsecond.trans hid.symm⟩ }

/-! ## The run of the queue -/

/-- A visit that does not stop at a block writes one line for each block it meets. -/
theorem WellFormed.visitNested_record (hφ : φ.WellFormed) {fuel : Nat} {met queue : List Block}
    {lines result : List String} (hmet : ∀ b ∈ met, φ.contents.get? b.id = some b)
    (hqueue : ∀ b ∈ queue, φ.contents.get? b.id = some b)
    (h : φ.visitNested fuel queue (met.reverse.map Block.name) lines = .ok result) :
    ∃ record, BreadthFirst φ.nestedOperands met queue record ∧
      (∀ b ∈ record, φ.contents.get? b.id = some b ∧ ∃ written, φ.nestedLine b = .ok written) ∧
      result = (record.reverse.map fun b => (φ.nestedGate b).line ++ "\n") ++ lines := by
  induction fuel generalizing met queue lines with
  | zero => cases h
  | succ fuel ih =>
      cases queue with
      | nil =>
          cases h
          exact ⟨[], .nil met, by simp, rfl⟩
      | cons b queue =>
          rw [List.forall_mem_cons] at hqueue
          -- The names of what was met tell whether `b` was met.
          rw [visitNested, hφ.contains_names hmet hqueue.1] at h
          by_cases hb : b ∈ met
          · rw [decide_eq_true hb, if_pos rfl] at h
            obtain ⟨record, hrecord, hwritten, hresult⟩ := ih hmet hqueue.2 h
            exact ⟨record, .skip hb hrecord, hwritten, hresult⟩
          · rw [decide_eq_false hb, if_neg Bool.false_ne_true] at h
            obtain ⟨written, hline, h⟩ := exists_ok_of_bind h
            rw [hφ.nestedLine_eq hqueue.1 hline] at h
            have hnames : b.name :: met.reverse.map Block.name =
                (met ++ [b]).reverse.map Block.name := by simp
            rw [hnames] at h
            obtain ⟨record, hrecord, hwritten, hresult⟩ :=
              ih (List.forall_mem_append.mpr ⟨hmet, by simpa using hqueue.1⟩)
                (List.forall_mem_append.mpr ⟨hqueue.2, fun c => hφ.held_of_mem_nestedOperands⟩) h
            refine ⟨b :: record, .visit hb hrecord, ?_, by simpa using hresult⟩
            exact List.forall_mem_cons.mpr ⟨⟨hqueue.1, written, hline⟩, hwritten⟩

/-- What a text with quantified gates is made of, and how it is read. -/
theorem WellFormed.nestedCircuit_visit (hφ : φ.WellFormed) (hfull : φ.Complete) {text : String}
    (h : φ.nestedCircuit = .ok text) :
    ∃ output root record, φ.output = some output ∧ φ.contents.get? output = some root ∧
      φ.Visit φ.nestedOperands (fun b => (φ.nestedGate b).gate) root record ∧
      nestedGatesIn text = record.reverse.map φ.nestedGate ∧
      text = circuitHeader ++ outputLine (Text.showInt output) ++
        renderNested (nestedGatesIn text) := by
  unfold nestedCircuit at h
  split at h
  · cases h
  · rename_i output houtput
    obtain ⟨root, hroot, h⟩ := exists_ok_of_bind h
    obtain ⟨lines, hlines, h⟩ := exists_ok_of_bind h
    cases h
    have hget := Action.get?_of_contentsOf hroot
    have held : φ.contents.get? root.id = some root := (hφ.held hget).1 ▸ hget
    have hstart : φ.visitNested (φ.queueBound [root]) [root]
        (([] : List Block).reverse.map Block.name) [] = .ok lines := hlines
    obtain ⟨record, hrecord, hwritten, hresult⟩ :=
      hφ.visitNested_record (by simp) (by simpa using held) hstart
    have hrender : String.join lines = renderNested (record.reverse.map φ.nestedGate) := by
      rw [hresult, List.append_nil, renderNested, List.map_map]
      rfl
    have hlegible : ∀ g ∈ record.reverse.map φ.nestedGate, g.gate.Legible := by
      intro g hg
      obtain ⟨b, hb, rfl⟩ := List.mem_map.mp hg
      exact hφ.legible_nestedGate (hwritten b (List.mem_reverse.mp hb)).1
    have hread := nested_text_read output hlegible
    refine ⟨output, root, record, houtput, hget, ⟨hrecord, held, fun b hb => ?_⟩, ?_, ?_⟩
    · obtain ⟨hb, written, hline⟩ := hwritten b hb
      exact hφ.renders_nestedGate hfull hb hline
    · rw [hrender, hread]
    · rw [hrender, hread]

end Formula

namespace Action

variable {edition : Edition} {s t : Session} {text : String}

/-- A gate line of a text with quantified gates comes after the lines of all gates it refers to
exactly if, breadth first from the output block, each block comes up before the blocks it refers to.
The matrix of a quantified gate is what it refers to. -/
theorem nested_lines_in_order_iff (built : s.Built edition)
    (run : generateNested s = .ok text t) :
    ∃ (output : Id) (root : Block),
      s.formula.output = some output ∧ s.formula.contents.get? output = some root ∧
      text = circuitHeader ++ outputLine (Text.showInt output) ++
        renderNested (nestedGatesIn text) ∧
      (∀ g, g ∈ nestedGatesIn text ↔
        ∃ b, Reaches s.formula.nestedOperands root b ∧ s.formula.nestedGate b = g) ∧
      (Sequential s.formula.vars.values ((nestedGatesIn text).map NestedGate.gate) ↔
        ∀ b c, Reaches s.formula.nestedOperands root b → c ∈ s.formula.nestedOperands b →
          ComesBefore s.formula.nestedOperands root b c) := by
  have hφ := built.wellFormed
  have hcircuit : s.formula.nestedCircuit = .ok text := ok_of_run_lift run
  obtain ⟨output, root, record, houtput, hroot, hvisit, hread, htext⟩ :=
    hφ.nestedCircuit_visit built.complete hcircuit
  refine ⟨output, root, houtput, hroot, htext, ?_, ?_⟩
  · intro g
    rw [hread]
    simp only [List.mem_map, List.mem_reverse, hvisit.breadth.mem_iff]
  · rw [hread, List.map_map]
    exact hvisit.sequential_iff hφ

/-- Quantified gates `G2` and `G5`, and a gate `G3` over a variable and one other gate. -/
def nestedStatements (other : Brick) : List Language.Statement :=
  [.format "circuit-nonprenex", .vars "x" [] [], .vars "z" [] [],
   .blocks [⟨"G1", [], [.ref false "x" [], .ref false "z" []]⟩] [] none,
   .blocks [⟨"XQ", [], [.ref false "x" []]⟩] [] none,
   .blocks [⟨"ZQ", [], [.ref false "z" []]⟩] [] none,
   .blocks [⟨"G2", [], [.ref false "XQ" [], .ref false "G1" []]⟩] [] none,
   .blocks [⟨"G3", [], [.ref false "z" [], other]⟩] [] none,
   .blocks [⟨"G4", [], [.ref false "G2" [], .ref false "G3" []]⟩] [] none,
   .blocks [⟨"G5", [], [.ref false "ZQ" [], .ref false "G4" []]⟩] [] none,
   .mark [("G1", [])] "XOR", .mark [("XQ", [])] "E", .mark [("ZQ", [])] "A",
   .mark [("G3", [])] "XOR", .mark [("G4", [])] "AND", .output "G5" []]

def nestedSession (other : Brick) : Session :=
  (perform ((nestedStatements other).forM (Language.Statement.perform .full false)) {}).2

/-- Gates `G2` and `G3` share `G1`, both at the same depth. -/
def balancedSession : Session :=
  nestedSession (.ref true "G1" [])

def balancedText : String :=
  "#QCIR-G14\noutput(9)\n3 = xor(1, 2)\n7 = xor(2, -3)\n6 = exists(1; 3)\n8 = and(6, 7)\n" ++
    "9 = forall(2; 8)\n"

def balancedRoot : Block where
  name := "G5( )"
  id := 9
  body := [5, 8]

theorem balancedSession_built :
    balancedSession.Built .full ∧ ∃ t, generateNested balancedSession = .ok balancedText t :=
  ⟨⟨false, nestedStatements (.ref true "G1" []), {}, ok_of_perform (by decide +kernel)⟩,
    _, ok_of_perform (by decide +kernel)⟩

theorem nested_lines_in_order_iff_balanced :
    balancedSession.Built .full ∧ (∃ t, generateNested balancedSession = .ok balancedText t) ∧
      Sequential balancedSession.formula.vars.values
        ((nestedGatesIn balancedText).map NestedGate.gate) := by
  obtain ⟨built, t, run⟩ := balancedSession_built
  obtain ⟨output, root, houtput, hroot, -, -, hiff⟩ := nested_lines_in_order_iff built run
  have hnine : balancedSession.formula.output = some 9 := by decide +kernel
  cases houtput.symm.trans hnine
  have hheld : balancedSession.formula.contents.get? 9 = some balancedRoot := by decide +kernel
  cases hroot.symm.trans hheld
  refine ⟨built, ⟨t, run⟩, hiff.mpr fun b c hb hc => ?_⟩
  exact comesBefore_of_closed (n := 3) (by decide +kernel) (by decide +kernel) hb hc

/-- Gate `G4` uses `G2` and `G3`, which uses `G2` too. -/
def shortcutSession : Session :=
  nestedSession (.ref false "G2" [])

/-- Gate 7 refers to gate 6, which is defined on the next line. -/
def shortcutText : String :=
  "#QCIR-G14\noutput(9)\n3 = xor(1, 2)\n7 = xor(2, 6)\n6 = exists(1; 3)\n8 = and(6, 7)\n" ++
    "9 = forall(2; 8)\n"

theorem nested_line_before_operand :
    shortcutSession.Built .full ∧ shortcutSession.formula.format = some .circuit ∧
      shortcutSession.formula.Acyclic ∧
      (∃ t, generateNested shortcutSession = .ok shortcutText t) ∧
      ¬ Sequential shortcutSession.formula.vars.values
        ((nestedGatesIn shortcutText).map NestedGate.gate) := by
  have built : shortcutSession.Built .full :=
    ⟨false, nestedStatements (.ref false "G2" []), {}, ok_of_perform (by decide +kernel)⟩
  refine ⟨built, by decide +kernel, built.wellFormed.acyclic (by decide +kernel),
    ⟨_, ok_of_perform (by decide +kernel)⟩, ?_⟩
  intro hsequential
  have hgates : (nestedGatesIn shortcutText).map NestedGate.gate =
      [⟨3, "xor", [1, 2]⟩] ++ ⟨7, "xor", [2, 6]⟩ ::
        [⟨6, "exists", [3]⟩, ⟨8, "and", [6, 7]⟩, ⟨9, "forall", [8]⟩] := by decide +kernel
  exact absurd (hsequential.earlier _ _ _ hgates 6 (by decide)) (by decide +kernel)

end Action

end QuantFamily
