import QuantFamily.Proofs.Block.Batch
import QuantFamily.Proofs.Gate.Board
import QuantFamily.Proofs.Gate.Writers
import QuantFamily.Proofs.State.Grouping

/-!
# Written operands

A definition without conditions lists its operands one by one, and an operator is given to the block
later on. In between, the body of the block has lost the operands that were written before. For a
conjunction this makes no difference, but an operator with a fixed number of operands then finds too
few of them. So the gates of such a block have the written operands exactly if these are distinct,
and otherwise the block has no gates and no circuit text can be written that needs it.
-/

namespace QuantFamily

/-- The brick is a variable or a block, negated or not. -/
def Brick.isLiteral : Brick → Bool
  | .ref _ _ _ => true
  | .all _ => false

/-- The number of operands, for an operator that does not take any number of them. -/
def Operator.arity? : Operator → Option Nat
  | .or | .and => none
  | .xor | .implies | .iff => some 2
  | .ite => some 3

namespace Formula

variable {φ ψ : Formula}

/-! ## Definitions of literals -/

theorem valuations_nil (pinned : Valuation) : φ.valuations [] pinned = .ok [{}] :=
  valuations_eq_foldlM φ [] pinned

theorem StandsFor.mono {left w : Valuation} {brick : Brick} {e : Id}
    (h : φ.StandsFor left w brick e) (values : ψ.values = φ.values)
    (ids : ∀ name id, φ.idOf? name = some id → ψ.idOf? name = some id) :
    ψ.StandsFor left w brick e := by
  cases h with
  | ref substituted named found signs =>
      exact .ref ((substitute_congr values ..).trans substituted) named (ids _ _ found) signs

/-- A body of literals is what they stand for, without repetitions. -/
theorem Laid.literals {left : Valuation} {used : List Id} {bricks : List Brick}
    {parts : List (List Id)} (h : φ.Laid [] left used bricks parts)
    (literals : ∀ brick ∈ bricks, brick.isLiteral = true) (hused : used.Nodup) :
    ∃ operands, List.Forall₂ (φ.StandsFor left {}) bricks operands ∧
      used ++ parts.flatten = (used ++ operands).eraseDups := by
  induction h with
  | nil => exact ⟨[], .nil, by simpa using (eraseDups_of_nodup hused).symm⟩
  | all _ _ _ => exact absurd (literals _ List.mem_cons_self) Bool.false_ne_true
  | @ref used ids _ _ _ found rest parts searched stands behind ih =>
      rw [List.forall_mem_cons] at literals
      rw [valuations_nil] at searched
      cases searched
      obtain ⟨e, hstands, rfl⟩ : ∃ e, φ.StandsFor left {} _ e ∧ ids = [e] := by
        cases stands with
        | cons hstands hnil =>
            cases hnil
            exact ⟨_, hstands, rfl⟩
      have hunused := unused_append_singleton used [] e
      rw [show unused used [] = [] from rfl, List.nil_append, List.append_nil] at hunused
      by_cases he : e ∈ used
      · rw [hunused, if_pos he, List.append_nil] at ih
        obtain ⟨operands, hoperands, hflat⟩ := ih literals.2 hused
        refine ⟨e :: operands, .cons hstands hoperands, ?_⟩
        rw [hunused, if_pos he, List.flatten_cons, List.nil_append, hflat,
          eraseDups_append_cons_of_mem he]
      · rw [hunused, if_neg he] at ih
        have hnodup : (used ++ [e]).Nodup := by
          rw [List.nodup_append]
          refine ⟨hused, List.nodup_singleton e, fun a ha b hb hab => he ?_⟩
          rwa [← List.mem_singleton.mp hb, ← hab]
        obtain ⟨operands, hoperands, hflat⟩ := ih literals.2 hnodup
        refine ⟨e :: operands, .cons hstands hoperands, ?_⟩
        rw [hunused, if_neg he, List.flatten_cons, ← List.append_assoc, hflat, List.append_assoc,
          List.singleton_append]

theorem idOf?_withBlocks_append {name : String} {id : Id} {news : List Block}
    (h : (φ.withBlocks news).idOf? name = some id) (more : List Block) :
    (φ.withBlocks (news ++ more)).idOf? name = some id := by
  have hblocks : (φ.withBlocks (news ++ more)).blocks =
      ((φ.withBlocks news).withBlocks more).blocks := by
    simp [withBlocks]
  have hmore := idOf?_withBlocks h more
  unfold idOf? at hmore ⊢
  rw [hblocks]
  exact hmore

/-- The first place where a free name comes up is where its block is built. -/
theorem Batch.exists_builds {conditions : List Condition} {grouping : Option String}
    {seen front back : List (Definition × Valuation)} {news : List Block}
    {place : Definition × Valuation} {name : String} (h : φ.Batch conditions grouping seen news)
    (hplace : seen = front ++ place :: back) (headed : φ.headOf place.1 place.2 = .ok name)
    (hfirst : ∀ other ∈ front, φ.headOf other.1 other.2 ≠ .ok name)
    (free : φ.isDefined name = false) :
    ∃ before b after, news = before ++ b :: after ∧ b.name = name ∧
      Action.Builds (φ.withBlocks before) place.1 conditions grouping place.2 b := by
  have hmem : name ∈ news.map Block.name := by
    have hdefined : (φ.withBlocks news).isDefined name = true := by
      rw [← Bool.not_eq_false]
      intro hfree
      exact h.headOf_ne hfree place (hplace ▸ List.mem_append_right _ List.mem_cons_self) headed
    rw [isDefined_withBlocks, free] at hdefined
    simpa using hdefined
  obtain ⟨b, hb, rfl⟩ := List.mem_map.mp hmem
  obtain ⟨before, after, hsplit⟩ := List.append_of_mem hb
  obtain ⟨earlier, definition, v, later, hseen, hearlier, hbuilds⟩ := h.built before b after hsplit
  have hheaded : φ.headOf definition v = .ok b.name := hbuilds.headed
  have hsame : place = (definition, v) :=
    eq_of_first (P := fun place => φ.headOf place.1 place.2 = .ok b.name) (hplace.symm.trans hseen)
      headed hheaded hfirst hearlier
  subst hsame
  exact ⟨before, b, after, hsplit, rfl, hbuilds⟩

/-! ## Contents that stay -/

/-- A step may mark a block; nothing else of it changes. -/
theorem Step.keeps_block (h : Step φ ψ) (hφ : φ.WellFormed) {id : Id} {b : Block}
    (held : φ.contents.get? id = some b) :
    ∃ mark, ψ.contents.get? id = some { b with mark := mark } := by
  cases h with
  | setting | «variable» | grouping | output => exact ⟨b.mark, held⟩
  | block other defines =>
      have hfresh : other.id ∉ φ.contents.keys := defines.id_eq ▸ hφ.next_not_mem_keys
      exact ⟨b.mark, Table.get?_put_of_get? other hfresh held⟩
  | mark id' b' a held' _ =>
      by_cases hid : id = id'
      · subst hid
        cases held.symm.trans held'
        exact ⟨some a, Table.get?_put_self _ _ _⟩
      · exact ⟨b.mark, (Table.get?_put_of_ne _ _ hid).trans held⟩

theorem Steps.keeps_block (h : Steps φ ψ) (hφ : φ.WellFormed) {id : Id} {b : Block}
    (held : φ.contents.get? id = some b) :
    ∃ mark, ψ.contents.get? id = some { b with mark := mark } := by
  induction h with
  | refl => exact ⟨b.mark, held⟩
  | tail first last ih =>
      obtain ⟨mark, hmark⟩ := ih
      obtain ⟨mark', hmark'⟩ := last.keeps_block (hφ.steps first) hmark
      exact ⟨mark', hmark'⟩

end Formula

/-! ## Gates -/

theorem suits_iff_length {b : Block} {o : Operator} {n : Nat}
    (mark : b.mark = some (.operator o)) (arity : o.arity? = some n) :
    b.Suits ↔ b.body.length = n := by
  unfold Block.Suits
  cases o with
  | or | and => cases arity
  | xor | implies | iff | ite =>
      cases arity
      simp [mark]

namespace Action

theorem gateLines_of_not_suits {b : Block} (marked : b.mark ≠ none) (h : ¬ b.Suits) (v : Session) :
    ∃ operator w, gateLines b v = .error (.wrongBrickCount operator b.name) w := by
  cases run : gateLines b v with
  | ok lines w =>
      obtain ⟨gates, hgates, -⟩ := (gateLines_leads b).of_ok rfl run
      exact absurd hgates.suits h
  | error fault w =>
      have hkeeps : Keeps (fun _ => True)
          (fun fault => ∃ operator, fault = .wrongBrickCount operator b.name) (gateLines b) :=
        gateLines_keeps (fun _ _ => trivial) (fun operator => ⟨operator, rfl⟩)
          fun hnone => absurd hnone marked
      obtain ⟨operator, rfl⟩ := hkeeps.of_error trivial run
      exact ⟨operator, w, rfl⟩

/-- A body that has lost the repeated operands has the right length exactly if there were none, and
then it has lost nothing. -/
theorem suits_iff_nodup {b : Block} {o : Operator} {n : Nat} {operands : List Id}
    (mark : b.mark = some (.operator o)) (arity : o.arity? = some n) (hlength : operands.length = n)
    (hbody : b.body = operands.eraseDups) :
    (b.Suits ↔ operands.Nodup) ∧ (operands.Nodup → { b with body := operands } = b) := by
  constructor
  · rw [suits_iff_length mark arity, hbody, ← hlength]
    exact ⟨nodup_of_length_eraseDups, fun h => by rw [eraseDups_of_nodup h]⟩
  · intro h
    rw [← eraseDups_of_nodup h, ← hbody]

/-! ## Statements -/

/-- What one statement without conditions makes of a definition by literals. -/
theorem exists_block_of_literals {u t : Session} {front back : List Definition}
    {definition : Definition} {grouping : Option String} {name : String}
    (run : addBlocks (front ++ definition :: back) [] grouping u = .ok () t)
    (headed : u.formula.headOf definition {} = .ok name)
    (free : u.formula.isDefined name = false)
    (hfirst : ∀ other ∈ front, u.formula.headOf other {} ≠ .ok name)
    (literals : ∀ brick ∈ definition.bricks, brick.isLiteral = true) :
    ∃ b operands, t.formula.contents.get? b.id = some b ∧ b.name = name ∧
      List.Forall₂ (t.formula.StandsFor {} {}) definition.bricks operands ∧
      b.body = operands.eraseDups := by
  obtain ⟨all, news, hall, hbatch, ht⟩ := (addBlocks_leads _).of_ok rfl run
  have hone : all = [{}] := by
    have hnil := hall (by simp)
    rw [Formula.valuations_nil] at hnil
    exact (Except.ok.inj hnil).symm
  subst hone
  have hplaces : places (front ++ definition :: back) [{}] =
      places front [{}] ++ (definition, {}) :: places back [{}] := by
    simp [places]
  have hearlier : ∀ other ∈ places front [{}], u.formula.headOf other.1 other.2 ≠ .ok name := by
    intro other hother
    simp only [places, List.map_cons, List.map_nil, List.mem_flatMap, List.mem_singleton] at hother
    obtain ⟨d, hd, rfl⟩ := hother
    exact hfirst d hd
  obtain ⟨before, b, after, hnews, hname, hbuilds⟩ :=
    hbatch.exists_builds hplaces headed hearlier free
  obtain ⟨parts, hbody, hlaid⟩ := hbuilds.laid
  obtain ⟨operands, hoperands, hflat⟩ := hlaid.literals literals List.nodup_nil
  refine ⟨b, operands, ?_, hname, ?_, by simpa [hbody] using hflat⟩
  · rw [ht]
    exact hbatch.get?_contents (hnews ▸ List.mem_append_right _ List.mem_cons_self)
  · -- What the bricks stand for while the block is built, they stand for after the statement.
    refine hoperands.imp fun brick e hstands => hstands.mono (by rw [ht]; rfl) fun n id hid => ?_
    have hat : (u.formula.withBlocks (before ++ [b])).idOf? n = some id := by
      rw [Formula.withBlocks_append_singleton hbuilds.fresh hbuilds.id_eq]
      exact hid
    have hall := Formula.idOf?_withBlocks_append hat after
    rw [List.append_assoc, List.singleton_append, ← hnews] at hall
    rw [ht]
    exact hall

/-- The gates of a block below the matrix stand together in a circuit text. -/
theorem exists_gates_of_reachable {s v : Session} {text : String} {matrix : Id} {b : Block}
    (built : s.Built .full) (run : generateCircuit .full s = .ok text v)
    (second : s.formula.outputPart 1 = .ok matrix) (reachable : s.formula.Reachable matrix b) :
    ∃ gates c, GatesOf c b gates ∧ gates <:+: gatesIn text := by
  have hφ := built.wellFormed
  obtain ⟨root, log, hdraws⟩ :=
    (generateCircuit_log hφ built.complete built.blank).of_ok rfl run
  cases second.symm.trans hdraws.second
  obtain ⟨entry, hentry, rfl⟩ := List.mem_map.mp ((hdraws.mem_log_iff hφ b).mpr reachable)
  obtain ⟨c, hwritten⟩ := hdraws.written
  obtain ⟨c', -, hgates⟩ := hwritten.gatesOf hentry
  obtain ⟨earlier, later, rfl⟩ := List.append_of_mem hentry
  refine ⟨entry.2, c', hgates, Log.gates earlier, Log.gates later, ?_⟩
  rw [(hdraws.read hφ).1, Log.gates_append, List.append_assoc]
  rfl

/-- A definition without conditions lists literals, and an operator that takes as many operands is
given to its block. The body of the block has the literals without repetitions, so the gates of the
block take exactly the written operands in the written order if these are distinct. If they are not,
the block has no gates, and no circuit text with the block below its matrix is ever written. -/
theorem operator_takes_written_operands {earlier later : List Language.Statement}
    {front back : List Definition} {definition : Definition} {grouping : Option String}
    {name : String} {verbose : Bool} {before u t s : Session}
    (first : earlier.forM (Language.Statement.perform .full verbose)
      { before with formula := {} } = .ok () u)
    (run : (Language.Statement.blocks (front ++ definition :: back) [] grouping).perform .full verbose
      u = .ok () t)
    (rest : later.forM (Language.Statement.perform .full verbose) t = .ok () s)
    (headed : u.formula.headOf definition {} = .ok name)
    (free : u.formula.isDefined name = false)
    (unique : ∀ other ∈ front, u.formula.headOf other {} ≠ .ok name)
    (literals : ∀ brick ∈ definition.bricks, brick.isLiteral = true) :
    ∃ b operands, s.formula.contents.get? b.id = some b ∧ b.name = name ∧
      List.Forall₂ (t.formula.StandsFor {} {}) definition.bricks operands ∧
      b.body = operands.eraseDups ∧
      ∀ o, b.mark = some (.operator o) → o.arity? = some definition.bricks.length →
        (operands.Nodup → ∀ v, ∃ gates w,
          GatesOf v.formula.counter { b with body := operands } gates ∧
          gateLines b v = .ok (gates.map Gate.line) w) ∧
        (¬ operands.Nodup → ∀ v, ∃ operator w,
          gateLines b v = .error (.wrongBrickCount operator b.name) w) ∧
        ∀ text v matrix, generateCircuit .full s = .ok text v →
          s.formula.outputPart 1 = .ok matrix → s.formula.Reachable matrix b →
          operands.Nodup ∧ ∃ gates c, GatesOf c { b with body := operands } gates ∧
            gates <:+: gatesIn text := by
  have hu : u.formula.WellFormed := Formula.wellFormed_empty.steps (steps_of_statements first)
  have ht : t.formula.WellFormed := hu.steps ((perform_moves .full verbose _ u.formula).of_ok rfl run)
  have built : s.Built .full := by
    refine ⟨verbose, earlier ++ .blocks (front ++ definition :: back) [] grouping :: later, before, ?_⟩
    rw [forM_append, run_bind_of_ok first]
    exact (run_bind_of_ok run).trans rest
  -- The announcement comes before the definitions and leaves the formula alone.
  obtain ⟨_, u', hannounce, hadd⟩ := exists_of_run_bind run
  have hsame : u.formula = u'.formula :=
    (announceBlocks_moves (R := Eq) (B := Eq) _ _ _ _ u.formula).of_ok rfl hannounce
  rw [hsame] at headed free unique
  obtain ⟨made, operands, hheld, hname, hoperands, hbody⟩ :=
    exists_block_of_literals hadd headed free unique literals
  obtain ⟨mark, hmarked⟩ := (steps_of_statements rest).keeps_block ht hheld
  refine ⟨{ made with mark := mark }, operands, hmarked, hname, hoperands, hbody, ?_⟩
  intro o hmark arity
  obtain ⟨hsuits, hback⟩ := suits_iff_nodup hmark arity hoperands.length_eq.symm hbody
  refine ⟨fun hnodup v => ?_, fun hrepeated => ?_, fun text v matrix hrun hsecond hreachable => ?_⟩
  · obtain ⟨lines, w, hlines⟩ := gateLines_of_suits (hsuits.mpr hnodup) v
    obtain ⟨gates, hgates, rfl, -⟩ := (gateLines_leads _).of_ok rfl hlines
    exact ⟨gates, w, (hback hnodup).symm ▸ hgates, hlines⟩
  · exact gateLines_of_not_suits (hmark ▸ Option.some_ne_none _) (mt hsuits.mp hrepeated)
  · obtain ⟨gates, c, hgates, hinfix⟩ := exists_gates_of_reachable built hrun hsecond hreachable
    have hnodup := hsuits.mp hgates.suits
    exact ⟨hnodup, gates, c, (hback hnodup).symm ▸ hgates, hinfix⟩

/-- A block `M` with `x` and another brick. -/
def withSecond (second : Brick) : Definition :=
  ⟨"M", [], [.ref false "x" [], second]⟩

/-- What follows the definition of `M`: quantifiers, the output block, and `XOR` for `M`. -/
def parityStatements : List Language.Statement :=
  [.blocks [⟨"Q", [], [.ref false "x" [], .ref false "y" []]⟩] [] none,
   .blocks [⟨"P", [], [.ref false "Q" [], .ref false "M" []]⟩] [] none,
   .mark [("M", [])] "XOR", .mark [("Q", [])] "E", .output "P" []]

/-- The session after the definition of `M`. -/
def definedSession (second : Brick) : Session :=
  (perform ((Language.Statement.blocks [withSecond second] [] none).perform .full false)
    sessionXY).2

/-- The session after all statements. -/
def paritySession (second : Brick) : Session :=
  (perform (parityStatements.forM (Language.Statement.perform .full false))
    (definedSession second)).2

/-- The circuit text for `x` and the negation of `y`. -/
def parityText : String :=
  "#QCIR-G14\nexists(1, 2)\noutput(3)\n3 = xor(1, -2)\n"

theorem operator_takes_written_operands_parity :
    ∃ operands, operands.Nodup ∧ [1, -2] = operands.eraseDups ∧
      (∃ v, generateCircuit .full (paritySession (.ref true "y" [])) = .ok parityText v) ∧
      ∃ gates c, GatesOf c ⟨"M( )", 3, operands, none, some (.operator .xor)⟩ gates ∧
        gates <:+: gatesIn parityText := by
  have first : variablesXY.forM (Language.Statement.perform .full false)
      { ({} : Session) with formula := {} } = .ok () sessionXY := ok_of_perform (by decide +kernel)
  have run : (Language.Statement.blocks ([] ++ withSecond (.ref true "y" []) :: []) []
      none).perform .full false sessionXY = .ok () (definedSession (.ref true "y" [])) :=
    ok_of_perform (by decide +kernel)
  have rest : parityStatements.forM (Language.Statement.perform .full false)
      (definedSession (.ref true "y" [])) = .ok () (paritySession (.ref true "y" [])) :=
    ok_of_perform (by decide +kernel)
  obtain ⟨b, operands, hheld, hname, -, hbody, htext⟩ := operator_takes_written_operands first run
    rest (show sessionXY.formula.headOf (withSecond _) {} = .ok "M( )" from rfl)
    (by decide +kernel) (by simp) (by decide)
  generalize hs : paritySession (.ref true "y" []) = s at rest hheld htext
  have hwrite : ∃ v, generateCircuit .full s = .ok parityText v := by
    rw [← hs]
    exact ⟨_, ok_of_perform (by decide +kernel)⟩
  have hsecond : s.formula.outputPart 1 = .ok 3 := by
    rw [← hs]
    exact ok_of_toOption (by decide +kernel)
  have hblock : s.formula.blocks.get? "M( )" = some 3 := by
    rw [← hs]
    decide +kernel
  have hcontents : s.formula.contents.get? 3 =
      some ⟨"M( )", 3, [1, -2], none, some (.operator .xor)⟩ := by
    rw [← hs]
    decide +kernel
  have hφ : s.formula.WellFormed := by
    refine Formula.wellFormed_empty.steps ((steps_of_statements first).trans ?_)
    exact ((perform_moves .full false _ _).of_ok rfl run).trans (steps_of_statements rest)
  have hfiled := (hφ.filed b.id b (Table.mem_entries_of_get? hheld)).2
  rw [hname, hblock, Option.some.injEq] at hfiled
  rw [← hfiled, hcontents, Option.some.injEq] at hheld
  subst hheld
  obtain ⟨v, hv⟩ := hwrite
  obtain ⟨-, -, hgates⟩ := htext .xor rfl rfl
  obtain ⟨hnodup, hinfix⟩ := hgates parityText v 3 hv hsecond ⟨hcontents, .refl⟩
  exact ⟨operands, hnodup, hbody, ⟨v, hv⟩, hinfix⟩

/-- An operand that is written twice: the block has the operator and as many bricks as it takes, and
no circuit text is written. -/
theorem repeated_operand_has_no_circuit :
    ((paritySession (.ref false "x" [])).formula.contents.get? 3 =
        some ⟨"M( )", 3, [1], none, some (.operator .xor)⟩) ∧
      Operator.arity? .xor = some (withSecond (.ref false "x" [])).bricks.length ∧
      (∀ brick ∈ (withSecond (.ref false "x" [])).bricks, brick.isLiteral = true) ∧
      ∀ text v, generateCircuit .full (paritySession (.ref false "x" [])) ≠ .ok text v := by
  have hnone : (perform (generateCircuit .full)
      (paritySession (.ref false "x" []))).1.toOption.isNone = true := by
    decide +kernel
  refine ⟨by decide +kernel, rfl, by decide, fun text v run => ?_⟩
  have hsome : (perform (generateCircuit .full) (paritySession (.ref false "x" []))).1 =
      .ok text := by
    unfold perform
    rw [EStateM.run, run]
  rw [hsome] at hnone
  cases hnone

end Action

end QuantFamily
