import QuantFamily.Proofs.Circuit.Complete
import QuantFamily.Proofs.Visit.Order

/-!
# Gates from a queue

All editions but the full one take the gates below the matrix from a queue and write their lines in
reverse. Every block that can be reached gets one line, and no block is visited twice, so the queue
runs empty within its bound and the text is always written. Whether its lines are in an order in
which they can be read is another matter: that depends on the lengths of the ways to shared blocks.
-/

namespace QuantFamily

/-! ## Lines that list operands -/

/-- The gate that lists the bricks of a block. -/
def Block.listGate (b : Block) : Gate :=
  ⟨b.id, b.gateWord, b.body⟩

theorem listLine_eq (id : Id) (word : String) (body : List Id) :
    listLine id word body = gateLine id word body ++ "\n" := by
  apply String.toList_injective
  by_cases hbody : body = []
  · subst hbody
    simp [listLine, closeLine, gateLine, commaList, Text.showInts, String.toList_append]
  · have hnonempty : body.isEmpty = false := by simpa using hbody
    have htext : (Text.showInt id ++ " = " ++ word ++ "(" ++
        String.join (body.map fun n => Text.showInt n ++ ", ")).toList =
        ((Text.showInt id).toList ++ " = ".toList ++ word.toList ++ "(".toList ++
          (commaList body).toList) ++ [',', ' '] := by
      simp only [String.toList_append, toList_join_literals hbody, List.append_assoc]
    rw [listLine, closeLine, hnonempty, if_neg Bool.false_ne_true, String.toList_append,
      toList_dropTwo htext]
    simp [gateLine, String.toList_append]

theorem Block.gateWord_letters (b : Block) :
    b.gateWord ≠ "" ∧ ∀ c ∈ b.gateWord.toList, c.isAlpha = true := by
  unfold Block.gateWord
  split
  · exact (Attribute.operator .or).word_letters
  · rename_i a _
    exact a.word_letters

theorem renderGates_eq_join_listLine (blocks : List Block) :
    String.join (blocks.map fun b => listLine b.id b.gateWord b.body) =
      renderGates (blocks.map Block.listGate) := by
  rw [renderGates, List.map_map]
  exact congrArg String.join (List.map_congr_left fun b _ => listLine_eq b.id b.gateWord b.body)

theorem GatesOf.eq_listGate {c : Id} {b : Block} {gates : List Gate} (h : GatesOf c b gates)
    (mark : b.mark ≠ some (.operator .implies) ∧ b.mark ≠ some (.operator .iff)) :
    gates = [b.listGate] := by
  cases h with
  | implies himplies body => exact absurd himplies mark.1
  | iff hiff body => exact absurd hiff mark.2
  | bare hmark short => simp [Block.listGate, Block.gateWord, hmark]
  | marked hmark notImplies notIff parity choice => simp [Block.listGate, Block.gateWord, hmark]

/-- Without implications the board has one gate for each block, which lists its bricks. -/
theorem Written.gates_eq {φ : Formula} {log : Log} {c : Id} (h : Written φ log c)
    (marks : ∀ b ∈ φ.contents.values,
      b.mark ≠ some (.operator .implies) ∧ b.mark ≠ some (.operator .iff)) :
    log.gates = (log.map Prod.fst).map Block.listGate := by
  have hentry : ∀ entry ∈ log, entry.2 = [entry.1.listGate] := by
    intro entry hentry
    obtain ⟨c', -, hgates⟩ := h.gatesOf hentry
    exact hgates.eq_listGate (marks entry.1 (Table.mem_values_of_get? (h.held hentry)))
  rw [Log.gates, List.flatMap_def, List.map_congr_left hentry, ← List.flatMap_def, List.map_map]
  exact List.flatMap_pure_eq_map _ _

namespace Formula

variable {φ : Formula}

/-- The blocks that a block refers to. -/
def operandsOf (φ : Formula) (b : Block) : List Block :=
  φ.operandBlocks b.body

theorem WellFormed.mem_operandsOf (hφ : φ.WellFormed) {b c : Block} :
    c ∈ φ.operandsOf b ↔ φ.contents.get? c.id = some c ∧ ∃ e ∈ b.body, (e.natAbs : Int) = c.id := by
  rw [operandsOf, operandBlocks, List.mem_filterMap]
  constructor
  · rintro ⟨e, he, hc⟩
    have hid : c.id = (e.natAbs : Int) := (hφ.held hc).1
    exact ⟨hid ▸ hc, e, he, hid.symm⟩
  · rintro ⟨hc, e, he, hid⟩
    exact ⟨e, he, by rw [← hid] at hc; exact hc⟩

theorem WellFormed.legible_listGate (hφ : φ.WellFormed) {b : Block}
    (held : φ.contents.get? b.id = some b) : b.listGate.Legible :=
  ⟨Int.le_trans (by decide) (hφ.held_range held).1, b.gateWord_letters.1, b.gateWord_letters.2⟩

theorem WellFormed.renders_listGate (hφ : φ.WellFormed) (hfull : φ.Complete) {b : Block}
    (held : φ.contents.get? b.id = some b) : φ.Renders φ.operandsOf Block.listGate b where
  id := rfl
  held c hc := (hφ.mem_operandsOf.mp hc).1
  operand e he := by
    cases hget : φ.contents.get? (e.natAbs : Int) with
    | none =>
        have hbrick := hφ.bricks b.id b (Table.mem_entries_of_get? held) e he
        exact Or.inl (hfull.variable hbrick.2.2 hget)
    | some c =>
        have hid : c.id = (e.natAbs : Int) := (hφ.held hget).1
        exact Or.inr ⟨c, hφ.mem_operandsOf.mpr ⟨hid ▸ hget, e, he, hid.symm⟩, hid⟩
  used c hc := (hφ.mem_operandsOf.mp hc).2

/-- What is visited from a block are the blocks that references lead to. -/
theorem WellFormed.reaches_iff_reachable (hφ : φ.WellFormed) {root b : Block}
    (held : φ.contents.get? root.id = some root) :
    Reaches φ.operandsOf root b ↔ φ.Reachable root.id b := by
  constructor
  · intro hreaches
    induction hreaches with
    | refl => exact ⟨held, .refl⟩
    | @tail c b _ hstep ih =>
        obtain ⟨hb, e, he, hid⟩ := hφ.mem_operandsOf.mp hstep
        exact ⟨hb, ih.2.tail ⟨c, ih.1, e, he, hid⟩⟩
  · rintro ⟨hb, hreaches⟩
    -- Every block on the way has contents, and only the last one might not.
    have hall : ∀ id, Relation.ReflTransGen φ.Refers root.id id →
        ∀ c, c.id = id → φ.contents.get? c.id = some c → Reaches φ.operandsOf root c := by
      intro id hid
      induction hid with
      | refl =>
          intro c hc hget
          rw [eq_of_id_eq hget held hc]
          exact .refl
      | @tail middle last _ hstep ih =>
          intro c hc hget
          obtain ⟨d, hd, e, he, hlast⟩ := hstep
          have hdid : d.id = middle := (hφ.held hd).1
          refine (ih d hdid (hdid ▸ hd)).tail (hφ.mem_operandsOf.mpr ⟨hget, e, he, ?_⟩)
          rw [hc, hlast]
    exact hall b.id hreaches b rfl hb

/-! ## The bound of the queue -/

/-- The number of bricks of those blocks that have not been met. -/
def bricksLeft (met blocks : List Block) : Nat :=
  blocks.foldr (fun b n => if b ∈ met then n else b.body.length + n) 0

theorem bricksLeft_visit {met : List Block} {b : Block} (fresh : b ∉ met) (blocks : List Block) :
    bricksLeft (met ++ [b]) blocks + (if b ∈ blocks then b.body.length else 0) ≤
      bricksLeft met blocks := by
  induction blocks with
  | nil => exact Nat.le_refl 0
  | cons c blocks ih =>
      simp only [bricksLeft, List.foldr_cons, List.mem_append, List.mem_cons, List.not_mem_nil,
        or_false] at ih ⊢
      by_cases hcb : c = b
      · subst hcb
        simp only [fresh, or_true, true_or, if_true, if_false]
        omega
      · by_cases hc : c ∈ met
        · simpa only [hc, hcb, Ne.symm hcb, false_or, true_or, if_true] using ih
        · simp only [hc, hcb, Ne.symm hcb, false_or, if_false]
          omega

theorem length_operandsOf_le (φ : Formula) (b : Block) :
    (φ.operandsOf b).length ≤ b.body.length :=
  List.length_filterMap_le _ _

theorem lt_queueBound (φ : Formula) (b : Block) :
    [b].length + bricksLeft [] φ.contents.values < φ.queueBound [b] := by
  simp only [bricksLeft, queueBound, List.length_singleton, List.not_mem_nil, if_false]
  omega

end Formula

/-! ## The run of the queue -/

namespace Action

variable {edition : Edition} {s t : Session} {text : String}

theorem queueLines_run (hedition : edition.isExtended = false) (b : Block) (s : Session) :
    queueLines edition b s =
      .ok ([listLine b.id b.gateWord b.body], s.formula.operandsOf b) s := by
  have hlines : queueLines edition b = formula >>= fun φ =>
      pure ([listLine b.id b.gateWord b.body], φ.operandsOf b) := by
    unfold queueLines
    simp only [hedition]
    rfl
  rw [hlines]
  rfl

/-- One visit writes one line, so the queue runs empty as long as there is a step left for each
member of the queue and for each brick of the blocks that have not been met. -/
theorem visitQueue_run (hedition : edition.isExtended = false) (hφ : s.formula.WellFormed)
    (fuel : Nat) (met queue : List Block) (lines : List String)
    (hmet : ∀ b ∈ met, s.formula.contents.get? b.id = some b)
    (hqueue : ∀ b ∈ queue, s.formula.contents.get? b.id = some b)
    (enough : queue.length + Formula.bricksLeft met s.formula.contents.values < fuel) :
    ∃ record, BreadthFirst s.formula.operandsOf met queue record ∧
      visitQueue edition fuel queue (met.reverse.map Block.name) lines s =
        .ok ((record.reverse.map fun b => listLine b.id b.gateWord b.body) ++ lines) s := by
  induction fuel generalizing met queue lines with
  | zero => omega
  | succ fuel ih =>
      cases queue with
      | nil => exact ⟨[], .nil met, rfl⟩
      | cons b queue =>
          rw [List.forall_mem_cons] at hqueue
          rw [visitQueue, hφ.contains_names hmet hqueue.1]
          rw [List.length_cons] at enough
          by_cases hb : b ∈ met
          · obtain ⟨record, hrecord, hrun⟩ := ih met queue lines hmet hqueue.2 (by omega)
            exact ⟨record, .skip hb hrecord, by rw [decide_eq_true hb, if_pos rfl, hrun]⟩
          · have hvisit := Formula.bricksLeft_visit hb s.formula.contents.values
            rw [if_pos (Table.mem_values_of_get? hqueue.1)] at hvisit
            have hlength := s.formula.length_operandsOf_le b
            have hqueue' : ∀ c ∈ queue ++ s.formula.operandsOf b,
                s.formula.contents.get? c.id = some c :=
              List.forall_mem_append.mpr ⟨hqueue.2, fun c hc => (hφ.mem_operandsOf.mp hc).1⟩
            obtain ⟨record, hrecord, hrun⟩ := ih (met ++ [b]) (queue ++ s.formula.operandsOf b)
              (listLine b.id b.gateWord b.body :: lines)
              (List.forall_mem_append.mpr ⟨hmet, by simpa using hqueue.1⟩) hqueue' (by
                rw [List.length_append]
                omega)
            refine ⟨b :: record, .visit hb hrecord, ?_⟩
            rw [decide_eq_false hb, if_neg Bool.false_ne_true,
              run_bind_of_ok (queueLines_run hedition b s)]
            simpa using hrun

/-- The gates below a block are always written, in the reverse order of the visit. -/
theorem gatesBelow_queue (hedition : edition.isExtended = false) (hφ : s.formula.WellFormed)
    {root : Block} (held : s.formula.contents.get? root.id = some root) :
    ∃ record, BreadthFirst s.formula.operandsOf [] [root] record ∧
      gatesBelow edition root s = .ok (renderGates (record.reverse.map Block.listGate)) s := by
  obtain ⟨record, hrecord, hrun⟩ := visitQueue_run hedition hφ (s.formula.queueBound [root]) []
    [root] [] (by simp) (by simpa using held) (s.formula.lt_queueBound root)
  refine ⟨record, hrecord, ?_⟩
  rw [List.append_nil] at hrun
  have hbelow : gatesBelow edition root = queueText edition [root] := by
    unfold gatesBelow
    simp only [hedition]
    rfl
  rw [hbelow, ← renderGates_eq_join_listLine]
  exact run_bind_of_ok hrun

/-- What the queue writes below a heading, and how it is read. -/
theorem generateCircuit_queue (hedition : edition.isExtended = false) (hφ : s.formula.WellFormed)
    (hfull : s.formula.Complete) {lines : String} {matrix : Id} {root : Block}
    (h : Headed s.formula lines matrix root) :
    ∃ record t text, s.formula.Visit s.formula.operandsOf Block.listGate root record ∧
      generateCircuit edition s = .ok text t ∧ gatesIn text = record.reverse.map Block.listGate ∧
      text = circuitHeader ++ lines ++ outputLine (Text.showInt matrix) ++
        renderGates (gatesIn text) := by
  have hroot : s.formula.contents.get? root.id = some root := (hφ.held h.held).1 ▸ h.held
  obtain ⟨record, hrecord, hgates⟩ := gatesBelow_queue hedition hφ hroot
  obtain ⟨t, hrun⟩ := generateCircuit_of_headed h hgates
  have hheld : ∀ b ∈ record, s.formula.contents.get? b.id = some b := fun b hb =>
    ((hφ.reaches_iff_reachable hroot).mp (hrecord.mem_iff.mp hb)).1
  have hlegible : ∀ g ∈ record.reverse.map Block.listGate, g.Legible := by
    intro g hg
    obtain ⟨b, hb, rfl⟩ := List.mem_map.mp hg
    exact hφ.legible_listGate (hheld b (List.mem_reverse.mp hb))
  obtain ⟨_, _, _, _, hlines⟩ := h.lines
  obtain ⟨hread, -⟩ := circuit_text_read hlines matrix hlegible
  have hvisit : s.formula.Visit s.formula.operandsOf Block.listGate root record :=
    ⟨hrecord, hroot, fun b hb => hφ.renders_listGate hfull (hheld b hb)⟩
  exact ⟨record, t, _, hvisit, hrun, hread, by rw [hread]⟩

/-- A gate line of a text from the queue comes after the lines of all gates it refers to exactly if,
breadth first from the matrix, each block comes up before the blocks it refers to. -/
theorem queued_lines_in_order_iff (hedition : edition.isExtended = false) (built : s.Built edition)
    (run : generateCircuit edition s = .ok text t) :
    ∃ (matrix : Id) (root : Block) (heading : String),
      s.formula.outputPart 1 = .ok matrix ∧ s.formula.contents.get? matrix = some root ∧
      text = heading ++ outputLine (Text.showInt matrix) ++ renderGates (gatesIn text) ∧
      gatesIn heading = [] ∧
      (∀ g, g ∈ gatesIn text ↔ ∃ b, Reaches s.formula.operandsOf root b ∧ b.listGate = g) ∧
      (Sequential s.formula.vars.values (gatesIn text) ↔
        ∀ b c, Reaches s.formula.operandsOf root b → c ∈ s.formula.operandsOf b →
          ComesBefore s.formula.operandsOf root b c) := by
  obtain ⟨lines, matrix, root, -, -, hheaded, -, -⟩ := headed_of_generateCircuit run
  obtain ⟨record, t', text', hvisit, hrun, hread, htext⟩ :=
    generateCircuit_queue hedition built.wellFormed built.complete hheaded
  rw [run] at hrun
  cases hrun
  obtain ⟨_, _, _, _, hlines⟩ := hheaded.lines
  refine ⟨matrix, root, circuitHeader ++ lines, hheaded.second, hheaded.held, htext,
    gatesIn_heading hlines, ?_, ?_⟩
  · intro g
    rw [hread]
    exact hvisit.mem_gates_iff
  · rw [hread]
    exact hvisit.sequential_iff built.wellFormed

def classicSession (matrix : List Language.Statement) : Session :=
  (perform ((prenexStatements matrix).forM (Language.Statement.perform .classic false)) {}).2

/-- A matrix over two blocks that share a third one, both at the same depth. -/
def levelMatrix : List Language.Statement :=
  [.blocks [⟨"E", [], [.ref false "x" [], .ref false "y" []]⟩] [] none,
   .blocks [⟨"D", [], [.ref true "E" [], .ref false "y" []]⟩] [] none,
   .blocks [⟨"C", [], [.ref false "E" [], .ref false "x" []]⟩] [] none,
   .blocks [⟨"M", [], [.ref false "C" [], .ref false "D" []]⟩] [] none,
   .mark [("E", [])] "AND", .mark [("D", [])] "OR", .mark [("C", [])] "OR", .mark [("M", [])] "AND"]

def levelText : String :=
  "#QCIR-G14\nexists(1, 2)\noutput(6)\n3 = and(1, 2)\n4 = or(-3, 2)\n5 = or(3, 1)\n6 = and(5, 4)\n"

theorem classicSession_level :
    (classicSession levelMatrix).Built .classic ∧
      ∃ t, generateCircuit .classic (classicSession levelMatrix) = .ok levelText t :=
  ⟨⟨false, prenexStatements levelMatrix, {}, ok_of_perform (by decide +kernel)⟩,
    _, ok_of_perform (by decide +kernel)⟩

def levelRoot : Block where
  name := "M( )"
  id := 6
  body := [5, 4]
  mark := some (.operator .and)

theorem queued_lines_in_order_iff_level :
    Edition.classic.isExtended = false ∧ (classicSession levelMatrix).Built .classic ∧
      (∃ t, generateCircuit .classic (classicSession levelMatrix) = .ok levelText t) ∧
      Sequential (classicSession levelMatrix).formula.vars.values (gatesIn levelText) := by
  obtain ⟨built, t, run⟩ := classicSession_level
  obtain ⟨matrix, root, heading, hmatrix, hroot, -, -, -, hiff⟩ :=
    queued_lines_in_order_iff rfl built run
  have hsecond : (classicSession levelMatrix).formula.outputPart 1 = .ok 6 :=
    ok_of_toOption (by decide +kernel)
  cases hmatrix.symm.trans hsecond
  have hheld : (classicSession levelMatrix).formula.contents.get? 6 = some levelRoot := by
    decide +kernel
  cases hroot.symm.trans hheld
  refine ⟨rfl, built, ⟨t, run⟩, hiff.mpr fun b c hb hc => ?_⟩
  exact comesBefore_of_closed (n := 2) (by decide +kernel) (by decide +kernel) hb hc

/-- A matrix over a block and another one that also refers to it. -/
def crossedMatrix : List Language.Statement :=
  [.blocks [⟨"C", [], [.ref false "x" [], .ref false "y" []]⟩] [] none,
   .blocks [⟨"D", [], [.ref false "C" [], .ref false "x" []]⟩] [] none,
   .blocks [⟨"M", [], [.ref false "C" [], .ref false "D" []]⟩] [] none,
   .mark [("C", [])] "AND", .mark [("D", [])] "OR", .mark [("M", [])] "AND"]

/-- Gate 4 refers to gate 3, which is defined on the next line. -/
def crossedText : String :=
  "#QCIR-G14\nexists(1, 2)\noutput(5)\n4 = or(3, 1)\n3 = and(1, 2)\n5 = and(3, 4)\n"

theorem classicSession_crossed :
    (classicSession crossedMatrix).Built .classic ∧
      ∃ t, generateCircuit .classic (classicSession crossedMatrix) = .ok crossedText t :=
  ⟨⟨false, prenexStatements crossedMatrix, {}, ok_of_perform (by decide +kernel)⟩,
    _, ok_of_perform (by decide +kernel)⟩

/-- The lines of a formula in which no block contains itself are not in order, and the converter
does not accept them. -/
theorem queued_line_before_operand :
    (classicSession crossedMatrix).Built .classic ∧
      (classicSession crossedMatrix).formula.format = some .prenexCircuit ∧
      (classicSession crossedMatrix).formula.Acyclic ∧
      (∃ t, generateCircuit .classic (classicSession crossedMatrix) = .ok crossedText t) ∧
      ¬ Sequential (classicSession crossedMatrix).formula.vars.values (gatesIn crossedText) ∧
      (Circuit.Conversion.run {} crossedText).fault.bind Circuit.Fault.message? =
        some ("Error on line 4 of input.qcir. Variable '3' was not quantified and was not " ++
          "defined as a gate variable.\n") := by
  obtain ⟨built, run⟩ := classicSession_crossed
  refine ⟨built, by decide +kernel, built.wellFormed.acyclic (by decide +kernel), run, ?_,
    by decide +kernel⟩
  intro hsequential
  have hgates : gatesIn crossedText =
      [⟨4, "or", [3, 1]⟩, ⟨3, "and", [1, 2]⟩, ⟨5, "and", [3, 4]⟩] := by decide +kernel
  rw [hgates] at hsequential
  exact absurd (hsequential.earlier [] _ _ rfl 3 (by decide)) (by decide +kernel)

/-! ## The queue and the board -/

/-- Where no operator has to be expressed by others, the queue writes whenever the board does: with
the same heading and the same gates, though not in the same order. -/
theorem queued_gates_perm {queued : Edition} (hqueued : queued.isExtended = false)
    (built : s.Built edition)
    (marks : ∀ b ∈ s.formula.contents.values,
      b.mark ≠ some (.operator .implies) ∧ b.mark ≠ some (.operator .iff))
    (run : generateCircuit .full s = .ok text t) :
    ∃ (lines : String) (matrix : Id) (root : Block) (text' : String) (t' : Session),
      Headed s.formula lines matrix root ∧ generateCircuit queued s = .ok text' t' ∧
      text = circuitHeader ++ lines ++ outputLine (Text.showInt matrix) ++
        renderGates (gatesIn text) ∧
      text' = circuitHeader ++ lines ++ outputLine (Text.showInt matrix) ++
        renderGates (gatesIn text') ∧
      (gatesIn text').Perm (gatesIn text) := by
  have hφ := built.wellFormed
  obtain ⟨matrix, log, hdraws⟩ :=
    (generateCircuit_log hφ built.complete built.blank).of_ok rfl run
  obtain ⟨c, hwritten⟩ := hdraws.written
  obtain ⟨hread, -⟩ := hdraws.read hφ
  obtain ⟨lines, root, hheaded, htext⟩ := hdraws.headed
  obtain ⟨record, t', text', hvisit, hrun, hread', htext'⟩ :=
    generateCircuit_queue hqueued hφ built.complete hheaded
  have hblocks : record.reverse.Perm (log.map Prod.fst) := by
    apply (List.perm_ext_iff_of_nodup (List.nodup_reverse.mpr hvisit.nodup)
      hwritten.nodup_blocks).mpr
    intro b
    rw [List.mem_reverse, hvisit.breadth.mem_iff, hφ.reaches_iff_reachable hvisit.root,
      (hφ.held hheaded.held).1, hdraws.mem_log_iff hφ]
  refine ⟨lines, matrix, root, text', t', hheaded, hrun, by rw [hread]; exact htext, htext', ?_⟩
  rw [hread', hread, hwritten.gates_eq marks]
  exact hblocks.map Block.listGate

/-- The same gates from the board. -/
def uncrossedText : String :=
  "#QCIR-G14\nexists(1, 2)\noutput(5)\n3 = and(1, 2)\n4 = or(3, 1)\n5 = and(3, 4)\n"

theorem queued_gates_perm_crossed :
    Edition.classic.isExtended = false ∧ (classicSession crossedMatrix).Built .classic ∧
      (∃ t, generateCircuit .full (classicSession crossedMatrix) = .ok uncrossedText t) ∧
      (∃ t, generateCircuit .classic (classicSession crossedMatrix) = .ok crossedText t) ∧
      (gatesIn crossedText).Perm (gatesIn uncrossedText) := by
  obtain ⟨built, t, run⟩ := classicSession_crossed
  have full : ∃ t, generateCircuit .full (classicSession crossedMatrix) = .ok uncrossedText t :=
    ⟨_, ok_of_perform (by decide +kernel)⟩
  obtain ⟨u, hfull⟩ := full
  obtain ⟨lines, matrix, root, text', t', -, run', -, -, hperm⟩ :=
    queued_gates_perm (show Edition.classic.isExtended = false from rfl) built (by decide +kernel)
      hfull
  cases run.symm.trans run'
  exact ⟨rfl, built, ⟨u, hfull⟩, ⟨t, run⟩, hperm⟩

end Action

end QuantFamily
