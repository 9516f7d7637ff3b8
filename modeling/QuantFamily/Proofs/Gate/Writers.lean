import QuantFamily.Proofs.Gate.Meaning
import QuantFamily.Proofs.Visit.Nested

/-!
# Two writers of one block

A block is written as a gate in two places. The board, for texts with the quantifiers in front,
refuses a block whose number of bricks does not suit its operator and expresses implications by
other gates. The writer of quantified gates prints whatever word the block has and refuses nothing
but quantified gates whose parts cannot be found. Here the two are compared block by block.
-/

namespace QuantFamily

/-! ## What a text makes of a block -/

/-- The kinds of gates that circuit texts have. -/
def standardWords : List String :=
  ["and", "or", "xor", "ite"]

/-- The text consists of standard gates, and whatever the values of the bricks are, the gate of the
block has the given value. -/
structure Realizes (b : Block) (text : String) (value : List Bool → Bool) : Prop where
  lines : text = renderGates (gatesIn text)
  standard : ∀ g ∈ gatesIn text, g.word ∈ standardWords
  defined : b.id ∈ (gatesIn text).map Gate.id
  valued : ∀ env, ∃ env', evaluate? (gatesIn text) env = some env' ∧
    env' b.id = value (b.body.map (literalValue env))

/-- Two ways of writing a block agree: neither writes it, or both write the same function of its
bricks. -/
def Agree (b : Block) (first second : Except Fault String) : Prop :=
  (∃ fault fault', first = .error fault ∧ second = .error fault') ∨
    ∃ text text' value, first = .ok text ∧ second = .ok text' ∧
      Realizes b text value ∧ Realizes b text' value

/-- The block on the board. -/
def Session.boardText (s : Session) (b : Block) : Except Fault String :=
  (Action.perform (Action.gateLines b) s).1.map fun lines =>
    String.join (lines.map fun line => line ++ "\n")

/-- The block among quantified gates. -/
def Session.nestedText (s : Session) (b : Block) : Except Fault String :=
  (s.formula.nestedLine b).map Prod.fst

/-! ## The board -/

/-- The number of bricks suits the operator. -/
def Block.Suits (b : Block) : Prop :=
  match b.mark with
  | none => b.body.length ≤ 1
  | some (.quantifier _) | some (.operator .and) | some (.operator .or) => True
  | some (.operator .ite) => b.body.length = 3
  | some (.operator _) => b.body.length = 2

theorem GatesOf.suits {c : Id} {b : Block} {gates : List Gate} (h : GatesOf c b gates) :
    b.Suits := by
  unfold Block.Suits
  cases h with
  | implies mark body => simp [mark, body]
  | iff mark body => simp [mark, body]
  | bare mark short => simpa [mark] using short
  | @marked a mark notImplies notIff parity choice =>
      rw [mark]
      rcases a with (_ | _) | (_ | _ | _ | _ | _ | _) <;> simp_all

theorem GatesOf.standard {c : Id} {b : Block} {gates : List Gate} (h : GatesOf c b gates)
    (operators : ∀ q, b.mark ≠ some (.quantifier q)) : ∀ g ∈ gates, g.word ∈ standardWords := by
  cases h with
  | implies mark body => simp [standardWords]
  | iff mark body => simp [standardWords]
  | bare mark short => simp [standardWords]
  | @marked a mark notImplies notIff parity choice =>
      cases a with
      | quantifier q => exact absurd mark (operators q)
      | operator o =>
          cases o with
          | implies => exact absurd rfl notImplies
          | iff => exact absurd rfl notIff
          | and => simp [standardWords, Attribute.word, Operator.word]
          | or => simp [standardWords, Attribute.word, Operator.word]
          | xor => simp [standardWords, Attribute.word, Operator.word]
          | ite => simp [standardWords, Attribute.word, Operator.word]

theorem Action.gateLines_of_suits {b : Block} (h : b.Suits) (s : Session) :
    ∃ lines t, gateLines b s = .ok lines t := by
  unfold Block.Suits at h
  unfold gateLines
  cases hmark : b.mark with
  | none =>
      simp only [hmark] at h
      simp only [Nat.not_le.mpr (Nat.lt_succ_of_le h), if_false]
      exact ⟨_, _, rfl⟩
  | some a =>
      simp only [hmark] at h
      cases a with
      | quantifier q => exact ⟨_, _, rfl⟩
      | operator o =>
          cases o with
          | and => exact ⟨_, _, rfl⟩
          | or => exact ⟨_, _, rfl⟩
          | xor =>
              rw [h]
              exact ⟨_, _, rfl⟩
          | ite =>
              rw [h]
              exact ⟨_, _, rfl⟩
          | implies =>
              obtain ⟨x, y, hbody⟩ := List.length_eq_two.mp h
              rw [hbody]
              exact ⟨_, _, rfl⟩
          | iff =>
              obtain ⟨x, y, hbody⟩ := List.length_eq_two.mp h
              rw [hbody]
              exact ⟨_, _, rfl⟩

namespace Session

variable {s : Session} {b : Block} {text : String}

/-- The board takes the blocks whose number of bricks suits their operator. -/
theorem boardText_of_suits (h : b.Suits) (s : Session) :
    ∃ gates, GatesOf s.formula.counter b gates ∧ s.boardText b = .ok (renderGates gates) := by
  obtain ⟨lines, t, run⟩ := Action.gateLines_of_suits h s
  obtain ⟨gates, hgates, rfl, -⟩ := (Action.gateLines_leads b).of_ok rfl run
  have hperform : Action.perform (Action.gateLines b) s = (.ok (gates.map Gate.line), t) := by
    unfold Action.perform
    rw [EStateM.run, run]
  refine ⟨gates, hgates, ?_⟩
  rw [boardText, hperform, renderGates]
  simp [Except.map, Function.comp_def]

theorem suits_of_boardText (h : s.boardText b = .ok text) : b.Suits := by
  unfold boardText at h
  cases hlines : (Action.perform (Action.gateLines b) s).1 with
  | error fault =>
      rw [hlines] at h
      cases h
  | ok lines =>
      have run := Action.ok_of_perform (show _ = some lines by rw [hlines]; rfl)
      obtain ⟨gates, hgates, -, -⟩ := (Action.gateLines_leads b).of_ok rfl run
      exact hgates.suits

/-- What the board makes of a block is what the block means. -/
theorem realizes_renderGates (hφ : s.formula.WellFormed)
    (held : s.formula.contents.get? b.id = some b)
    (operators : ∀ q, b.mark ≠ some (.quantifier q)) {gates : List Gate}
    (h : GatesOf s.formula.counter b gates) :
    Realizes b (renderGates gates) fun values => (b.value? values).getD false := by
  have hid := (hφ.held_range held).1
  have hread : gatesIn (renderGates gates) = gates := gatesIn_renderGates fun g hg =>
    h.legible (Int.le_trans (by decide) hid) hφ.nonneg hg
  have hbricks : ∀ e ∈ b.body, (1 : Int) ≤ e.natAbs ∧ (e.natAbs : Int) ≤ s.formula.counter := by
    intro e he
    have hbrick := hφ.bricks b.id b (Table.mem_entries_of_get? held) e he
    exact ⟨hbrick.1, (hφ.inRange _ hbrick.2.2).2⟩
  constructor
  · rw [hread]
  · rw [hread]
    exact h.standard operators
  · rw [hread, h.map_id]
    exact List.mem_append_right _ List.mem_cons_self
  · intro env
    obtain ⟨env', heval, -, hvalue⟩ := h.evaluate operators hbricks env
    rw [hread]
    exact ⟨env', heval, by rw [hvalue]; rfl⟩

/-! ## Quantified gates -/

theorem nestedText_of_plain (h : s.formula.quantifiedPair b.body = none) :
    s.nestedText b = .ok (renderGates [b.listGate]) := by
  have hline : s.formula.nestedLine b =
      .ok (listLine b.id b.gateWord b.body, s.formula.operandBlocks b.body) := by
    rw [Formula.nestedLine, h]
    rfl
  rw [nestedText, hline, listLine_eq, renderGates_cons, show renderGates [] = "" from rfl,
    String.append_empty]
  rfl

/-- An implication that lists its bricks is no standard gate. -/
theorem not_implication_of_realizes (hφ : s.formula.WellFormed)
    (held : s.formula.contents.get? b.id = some b) {value : List Bool → Bool}
    (h : Realizes b (renderGates [b.listGate]) value) :
    b.mark ≠ some (.operator .implies) ∧ b.mark ≠ some (.operator .iff) := by
  have hread : gatesIn (renderGates [b.listGate]) = [b.listGate] :=
    gatesIn_renderGates (by simpa using hφ.legible_listGate held)
  have hword : b.gateWord ∈ standardWords :=
    h.standard b.listGate (by rw [hread]; exact List.mem_singleton_self b.listGate)
  unfold Block.gateWord at hword
  constructor
  · intro hmark
    rw [hmark] at hword
    exact absurd hword (by decide)
  · intro hmark
    rw [hmark] at hword
    exact absurd hword (by decide)

/-- A line with bound variables keeps its word, whatever else is read. -/
theorem word_of_mem_gatesIn {g : NestedGate} (h : g.gate.Legible) {other : Gate}
    (hother : other ∈ gatesIn (g.line ++ "\n")) : other.word = g.gate.word := by
  have hlines : gatesIn (g.line ++ "\n") = (Gate.read? g.line.toList).toList := by
    rw [gatesIn, ← String.append_empty (s := g.line ++ "\n"),
      linesRead_line_append (NestedGate.unbroken_line h).newline_not_mem]
    exact List.append_nil _
  rw [hlines, Option.mem_toList, NestedGate.toList_line, Gate.read?,
    Gate.gateParts?_bracketed h] at hother
  simp only [Option.bind_eq_bind, Option.bind_some, Text.readInt?_showInt] at hother
  obtain ⟨operands, -, hother⟩ := Option.bind_eq_some_iff.mp hother
  cases hother
  rfl

/-- A quantified gate is no standard gate. -/
theorem not_realizes_of_quantified (hφ : s.formula.WellFormed)
    (held : s.formula.contents.get? b.id = some b)
    (hpair : s.formula.quantifiedPair b.body ≠ none) (h : s.nestedText b = .ok text)
    (value : List Bool → Bool) : ¬ Realizes b text value := by
  intro hrealizes
  obtain ⟨⟨q, first, second⟩, hpair⟩ := Option.ne_none_iff_exists'.mp hpair
  unfold nestedText at h
  cases hline : s.formula.nestedLine b with
  | error fault =>
      rw [hline] at h
      cases h
  | ok written =>
      rw [hline, hφ.nestedLine_eq held hline] at h
      cases h
      obtain ⟨g, hg, -⟩ := List.mem_map.mp hrealizes.defined
      have hword : g.word = q.word := by
        rw [word_of_mem_gatesIn (hφ.legible_nestedGate held) hg]
        simp only [Formula.nestedGate, hpair]
      have hstandard := hrealizes.standard g hg
      rw [hword] at hstandard
      cases q <;> revert hstandard <;> decide

/-! ## Agreement -/

theorem agree_iff_of_plain (hφ : s.formula.WellFormed) (held : s.formula.contents.get? b.id = some b)
    (operators : ∀ q, b.mark ≠ some (.quantifier q))
    (hpair : s.formula.quantifiedPair b.body = none) :
    Agree b (s.boardText b) (s.nestedText b) ↔
      b.Suits ∧ b.mark ≠ some (.operator .implies) ∧ b.mark ≠ some (.operator .iff) := by
  have hnested := nestedText_of_plain hpair
  constructor
  · rintro (⟨fault, fault', -, hfault⟩ | ⟨text, text', value, hboard, hok, -, hrealizes⟩)
    · cases hnested.symm.trans hfault
    · cases hnested.symm.trans hok
      exact ⟨suits_of_boardText hboard, not_implication_of_realizes hφ held hrealizes⟩
  · rintro ⟨hsuits, hmark⟩
    obtain ⟨gates, hgates, hboard⟩ := boardText_of_suits hsuits s
    have hrealizes := realizes_renderGates hφ held operators hgates
    -- Without an implication both writers list the bricks.
    rw [hgates.eq_listGate hmark] at hboard hrealizes
    exact Or.inr ⟨_, _, _, hboard, hnested, hrealizes, hrealizes⟩

theorem agree_iff_of_quantified (hφ : s.formula.WellFormed)
    (held : s.formula.contents.get? b.id = some b)
    (hpair : s.formula.quantifiedPair b.body ≠ none) :
    Agree b (s.boardText b) (s.nestedText b) ↔
      ¬ b.Suits ∧ ∃ fault, s.nestedText b = .error fault := by
  constructor
  · rintro (⟨fault, fault', hboard, hfault⟩ | ⟨text, text', value, -, hok, -, hrealizes⟩)
    · refine ⟨fun hsuits => ?_, fault', hfault⟩
      obtain ⟨gates, -, hok⟩ := boardText_of_suits hsuits s
      cases hboard.symm.trans hok
    · exact absurd hrealizes (not_realizes_of_quantified hφ held hpair hok value)
  · rintro ⟨hsuits, fault', hfault⟩
    cases hboard : s.boardText b with
    | error fault => exact Or.inl ⟨fault, fault', rfl, hfault⟩
    | ok text => exact absurd (suits_of_boardText hboard) hsuits

/-- The two writers agree on a block that is no quantified gate exactly if the number of its bricks
suits its operator and it is no implication. On a quantified gate they agree only if both refuse
it. -/
theorem writers_agree_iff (hφ : s.formula.WellFormed) (held : s.formula.contents.get? b.id = some b)
    (operators : ∀ q, b.mark ≠ some (.quantifier q)) :
    Agree b (s.boardText b) (s.nestedText b) ↔
      s.formula.quantifiedPair b.body = none ∧ b.Suits ∧ b.mark ≠ some (.operator .implies) ∧
        b.mark ≠ some (.operator .iff) ∨
      s.formula.quantifiedPair b.body ≠ none ∧ ¬ b.Suits ∧
        ∃ fault, s.nestedText b = .error fault := by
  by_cases hpair : s.formula.quantifiedPair b.body = none
  · rw [agree_iff_of_plain hφ held operators hpair]
    simp [hpair]
  · rw [agree_iff_of_quantified hφ held hpair]
    simp [hpair]

/-- A parity gate of the balanced formula, over a variable and a negated gate. -/
def parityBlock : Block where
  name := "G3( )"
  id := 7
  body := [2, -3]
  mark := some (.operator .xor)

theorem writers_agree_iff_parity :
    Action.balancedSession.formula.WellFormed ∧
      Action.balancedSession.formula.contents.get? parityBlock.id = some parityBlock ∧
      Agree parityBlock (Action.balancedSession.boardText parityBlock)
        (Action.balancedSession.nestedText parityBlock) := by
  have hφ := Action.balancedSession_built.1.wellFormed
  have held : Action.balancedSession.formula.contents.get? parityBlock.id = some parityBlock := by
    decide +kernel
  refine ⟨hφ, held, (writers_agree_iff hφ held ?_).mpr (Or.inl ⟨by decide +kernel, rfl, ?_, ?_⟩)⟩
  · intro q
    simp [parityBlock]
  · simp [parityBlock]
  · simp [parityBlock]

/-- An implication of two variables. -/
def implicationStatements : List Language.Statement :=
  [.format "circuit-nonprenex", .vars "x" [] [], .vars "y" [] [],
   .blocks [⟨"B", [], [.ref false "x" [], .ref false "y" []]⟩] [] none, .mark [("B", [])] "=>",
   .output "B" []]

def implicationSession : Session :=
  (Action.perform (implicationStatements.forM (Language.Statement.perform .full false)) {}).2

def implicationBlock : Block where
  name := "B( )"
  id := 3
  body := [1, 2]
  mark := some (.operator .implies)

theorem implication_written_as_unknown_gate :
    implicationSession.Built .full ∧
      implicationSession.formula.contents.get? implicationBlock.id = some implicationBlock ∧
      implicationSession.boardText implicationBlock = .ok "3 = or(-1, 2)\n" ∧
      implicationSession.nestedText implicationBlock = .ok "3 = imp(1, 2)\n" ∧
      ¬ Agree implicationBlock (implicationSession.boardText implicationBlock)
        (implicationSession.nestedText implicationBlock) := by
  have hboard : implicationSession.boardText implicationBlock = .ok "3 = or(-1, 2)\n" :=
    ok_of_toOption (by decide +kernel)
  have hnested : implicationSession.nestedText implicationBlock = .ok "3 = imp(1, 2)\n" :=
    ok_of_toOption (by decide +kernel)
  refine ⟨⟨false, implicationStatements, {}, Action.ok_of_perform (by decide +kernel)⟩,
    by decide +kernel, hboard, hnested, ?_⟩
  rintro (⟨fault, fault', -, hfault⟩ | ⟨text, text', value, -, hok, -, hrealizes⟩)
  · cases hnested.symm.trans hfault
  · cases hnested.symm.trans hok
    have hgates : gatesIn "3 = imp(1, 2)\n" = [⟨3, "imp", [1, 2]⟩] := by decide +kernel
    exact absurd (hrealizes.standard ⟨3, "imp", [1, 2]⟩ (by rw [hgates]; simp)) (by decide)

end Session

end QuantFamily
