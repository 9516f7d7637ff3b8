import QuantFamily.Proofs.Gate.Quantifier
import QuantFamily.Proofs.Visit.Nested

/-!
# Closed texts of quantified gates

A quantified gate spells out the variables that it binds, so its text has no use for the block that
lists them: from such a gate only the matrix is visited. The gates of the text are the blocks that
remain within reach of the output block, and all that their lines mention are these and variables.
-/

namespace QuantFamily

namespace Formula

variable {φ : Formula} {b c : Block}

/-! ## Ways that leave out quantifiers -/

/-- The body of a quantified gate: two bricks, of which the first is a quantified block. -/
def QuantifiedBody (φ : Formula) (body : List Id) : Prop :=
  ∃ (first second : Id) (b : Block) (q : Quantifier),
    body = [first, second] ∧ φ.contents.get? first = some b ∧ b.mark = some (.quantifier q)

/-- A gate leads to what it lists, but a quantified gate does not lead to its quantifier. -/
inductive Enters (φ : Formula) (id : Id) : Id → Prop
  | operand {b : Block} {e : Id} (held : φ.contents.get? id = some b)
      (plain : ¬ φ.QuantifiedBody b.body) (brick : e ∈ b.body) : Enters φ id e.natAbs
  | matrix {b : Block} {first second : Id} (held : φ.contents.get? id = some b)
      (quantified : φ.QuantifiedBody b.body) (body : b.body = [first, second]) :
      Enters φ id second.natAbs

theorem quantifiedPair_eq_some_iff {body : List Id} {q : Quantifier} {first second : Id} :
    φ.quantifiedPair body = some (q, first, second) ↔
      body = [first, second] ∧ ∃ b, φ.contents.get? first = some b ∧
        b.mark = some (.quantifier q) := by
  rw [← Option.bind_eq_some_iff]
  constructor
  · intro h
    unfold quantifiedPair at h
    split at h
    · split at h
      · rename_i hmark
        cases h
        exact ⟨rfl, hmark⟩
      · cases h
    · cases h
  · rintro ⟨rfl, hmark⟩
    simp only [quantifiedPair, hmark]

theorem quantifiedPair_eq_none_iff {body : List Id} :
    φ.quantifiedPair body = none ↔ ¬ φ.QuantifiedBody body := by
  constructor
  · rintro h ⟨first, second, b, q, hbody, hfirst, hmark⟩
    rw [quantifiedPair_eq_some_iff.mpr ⟨hbody, b, hfirst, hmark⟩] at h
    cases h
  · intro h
    cases hpair : φ.quantifiedPair body with
    | none => rfl
    | some pair =>
        obtain ⟨hbody, c, hfirst, hmark⟩ := quantifiedPair_eq_some_iff.mp hpair
        exact absurd ⟨_, _, c, _, hbody, hfirst, hmark⟩ h

/-- What a gate leads to is what stands behind its quantifier, or else in its list. -/
theorem enters_iff (held : φ.contents.get? b.id = some b) {target : Id} :
    φ.Enters b.id target ↔ ∃ e ∈ (φ.nestedGate b).gate.operands, (e.natAbs : Int) = target := by
  cases hpair : φ.quantifiedPair b.body with
  | none =>
      have hplain := quantifiedPair_eq_none_iff.mp hpair
      have hgate : (φ.nestedGate b).gate.operands = b.body := by
        simp only [nestedGate, hpair, Block.listGate]
      rw [hgate]
      constructor
      · intro henters
        cases henters with
        | operand hb _ brick =>
            cases hb.symm.trans held
            exact ⟨_, brick, rfl⟩
        | matrix hb quantified _ =>
            cases hb.symm.trans held
            exact absurd quantified hplain
      · rintro ⟨e, he, rfl⟩
        exact .operand held hplain he
  | some pair =>
      obtain ⟨q, first, second⟩ := pair
      obtain ⟨hbody, c, hfirst, hmark⟩ := quantifiedPair_eq_some_iff.mp hpair
      have hquantified : φ.QuantifiedBody b.body := ⟨first, second, c, q, hbody, hfirst, hmark⟩
      have hgate : (φ.nestedGate b).gate.operands = [second] := by
        simp only [nestedGate, hpair]
      rw [hgate]
      constructor
      · intro henters
        cases henters with
        | operand hb plain _ =>
            cases hb.symm.trans held
            exact absurd hquantified plain
        | matrix hb _ body =>
            cases hb.symm.trans held
            cases body.symm.trans hbody
            exact ⟨second, List.mem_singleton_self second, rfl⟩
      · rintro ⟨e, he, rfl⟩
        rw [List.mem_singleton.mp he]
        exact .matrix held hquantified hbody

/-- A quantified gate binds variables only. -/
theorem bound_mem_vars {n : Int} (hn : n ∈ (φ.nestedGate b).bound.getD []) :
    (n.natAbs : Int) ∈ φ.vars.values := by
  unfold nestedGate at hn
  split at hn
  · rename_i q first second hpair
    cases hliterals : φ.literals φ.nestingBound [first] with
    | error fault => simp [hliterals, Except.toOption] at hn
    | ok ns =>
        obtain ⟨parts, hparts, rfl⟩ := flattens_of_literals hliterals
        have hmem : n ∈ parts first := by simpa [hliterals, Except.toOption] using hn
        exact (hparts first (List.mem_singleton_self first)).mem_vars hmem
  · simp at hn

/-! ## What a visit finds -/

/-- The blocks that are visited after a gate are those among its operands. -/
theorem Renders.mem_iff {next : Block → List Block} {gate : Block → Gate}
    (h : φ.Renders next gate b) (hφ : φ.WellFormed) :
    c ∈ next b ↔ φ.contents.get? c.id = some c ∧
      ∃ e ∈ (gate b).operands, (e.natAbs : Int) = c.id := by
  constructor
  · intro hc
    exact ⟨h.held c hc, h.used c hc⟩
  · rintro ⟨held, e, he, hid⟩
    rcases h.operand e he with hvar | ⟨d, hd, hdid⟩
    · exact absurd (hid ▸ hvar) (hφ.not_variable held)
    · exact eq_of_id_eq (h.held d hd) held (hdid.trans hid) ▸ hd

theorem Visit.mem_iff_enters {root : Block} {record : List Block}
    (h : φ.Visit φ.nestedOperands (fun b => (φ.nestedGate b).gate) root record)
    (hφ : φ.WellFormed) :
    b ∈ record ↔ φ.contents.get? b.id = some b ∧
      Relation.ReflTransGen φ.Enters root.id b.id := by
  have hnext : ∀ d ∈ record, ∀ c, c ∈ φ.nestedOperands d ↔
      φ.contents.get? c.id = some c ∧ φ.Enters d.id c.id := fun d hd c => by
    rw [(h.renders d hd).mem_iff hφ, enters_iff (h.held hd)]
  constructor
  · intro hb
    refine ⟨h.held hb, ?_⟩
    rw [h.breadth.mem_iff] at hb
    induction hb with
    | refl => exact .refl
    | @tail d c hd hstep ih =>
        exact ih.tail ((hnext d (h.breadth.mem_iff.mpr hd) c).mp hstep).2
  · rintro ⟨held, hreaches⟩
    have hall : ∀ id, Relation.ReflTransGen φ.Enters root.id id →
        ∀ c, c.id = id → φ.contents.get? c.id = some c → c ∈ record := by
      intro id hid
      induction hid with
      | refl =>
          intro c hc hget
          rw [eq_of_id_eq hget h.root hc]
          exact h.breadth.mem_iff.mpr .refl
      | @tail middle last _ hstep ih =>
          intro c hc hget
          -- Only blocks with contents lead on, so the one before was visited.
          obtain ⟨d, hd⟩ : ∃ d, φ.contents.get? middle = some d := by
            cases hstep with
            | operand hd => exact ⟨_, hd⟩
            | matrix hd => exact ⟨_, hd⟩
          have hdid : d.id = middle := (hφ.held hd).1
          have hdmem : d ∈ record := ih d hdid (hdid ▸ hd)
          exact h.closed hdmem ((hnext d hdmem c).mpr ⟨hget, by rw [hdid, hc]; exact hstep⟩)
    exact hall b.id hreaches b rfl held

end Formula

namespace Action

variable {edition : Edition} {s t : Session} {text : String}

/-- A text of quantified gates defines no gate twice. Its gates are the blocks that the output block
leads to without following quantifiers, the output block among them. A line binds variables, and its
operands are variables and gates of the text. Nothing else is in the text but its first line and the
one that names the output block. -/
theorem nested_text_closed (built : s.Built edition) (run : generateNested s = .ok text t) :
    ∃ output, s.formula.output = some output ∧
      text = circuitHeader ++ outputLine (Text.showInt output) ++
        renderNested (nestedGatesIn text) ∧
      ((nestedGatesIn text).map fun g => g.gate.id).Nodup ∧
      (∀ id, id ∈ (nestedGatesIn text).map (fun g => g.gate.id) ↔
        (∃ b, s.formula.contents.get? id = some b) ∧
          Relation.ReflTransGen s.formula.Enters output id) ∧
      output ∈ (nestedGatesIn text).map (fun g => g.gate.id) ∧
      ∀ g ∈ nestedGatesIn text,
        (∀ n ∈ g.bound.getD [], (n.natAbs : Int) ∈ s.formula.vars.values) ∧
        ∀ n ∈ g.gate.operands, (n.natAbs : Int) ∈ s.formula.vars.values ∨
          (n.natAbs : Int) ∈ (nestedGatesIn text).map fun g => g.gate.id := by
  have hφ := built.wellFormed
  obtain ⟨output, root, record, houtput, hroot, hvisit, hread, htext⟩ :=
    hφ.nestedCircuit_visit built.complete (ok_of_run_lift run)
  have hrootId : root.id = output := (hφ.held hroot).1
  have hids : (nestedGatesIn text).map (fun g => g.gate.id) = record.reverse.map Block.id := by
    rw [hread, List.map_map, ← hvisit.map_id, List.map_map]
    rfl
  have hmem : ∀ id, id ∈ record.reverse.map Block.id ↔
      (∃ b, s.formula.contents.get? id = some b) ∧
        Relation.ReflTransGen s.formula.Enters output id := by
    intro id
    simp only [List.mem_map, List.mem_reverse, hvisit.mem_iff_enters hφ, hrootId]
    constructor
    · rintro ⟨b, ⟨held, hreaches⟩, rfl⟩
      exact ⟨⟨b, held⟩, hreaches⟩
    · rintro ⟨⟨b, held⟩, hreaches⟩
      have hid : b.id = id := (hφ.held held).1
      exact ⟨b, by rw [hid]; exact ⟨held, hreaches⟩, hid⟩
  refine ⟨output, houtput, htext, ?_, ?_, ?_, ?_⟩
  · rw [hids]
    exact hvisit.nodup_ids
  · rw [hids]
    exact hmem
  · rw [hids, hmem]
    exact ⟨⟨root, hroot⟩, .refl⟩
  · intro g hg
    rw [hread] at hg
    obtain ⟨b, hb, rfl⟩ := List.mem_map.mp hg
    rw [List.mem_reverse] at hb
    refine ⟨fun n => Formula.bound_mem_vars, fun n hn => ?_⟩
    rcases (hvisit.renders b hb).operand n hn with hvar | ⟨c, hc, hid⟩
    · exact Or.inl hvar
    · rw [hids, ← hid]
      exact Or.inr (List.mem_map_of_mem (List.mem_reverse.mpr (hvisit.closed hb hc)))

/-- The gates 6 and 9 are quantified, and the blocks 4 and 5 of their quantifiers are no gates. -/
theorem nested_text_closed_balanced :
    balancedSession.Built .full ∧ (∃ t, generateNested balancedSession = .ok balancedText t) ∧
      ((nestedGatesIn balancedText).map fun g => g.gate.id) = [3, 7, 6, 8, 9] ∧
      (∀ id ∈ [3, 7, 6, 8, 9], Relation.ReflTransGen balancedSession.formula.Enters 9 id) ∧
      ∀ id ∈ [4, 5], ¬ Relation.ReflTransGen balancedSession.formula.Enters 9 id := by
  obtain ⟨built, t, run⟩ := balancedSession_built
  obtain ⟨output, houtput, -, -, hiff, -, -⟩ := nested_text_closed built run
  have hnine : balancedSession.formula.output = some 9 := by decide +kernel
  cases houtput.symm.trans hnine
  have hids : (nestedGatesIn balancedText).map (fun g => g.gate.id) = [3, 7, 6, 8, 9] := by
    decide +kernel
  rw [hids] at hiff
  refine ⟨built, ⟨t, run⟩, hids, fun id hid => ((hiff id).mp hid).2, fun id hid hreaches => ?_⟩
  have hheld : ∀ id ∈ [(4 : Id), 5],
      (balancedSession.formula.contents.get? id).isSome = true ∧ id ∉ [(3 : Id), 7, 6, 8, 9] := by
    decide +kernel
  obtain ⟨hsome, hnot⟩ := hheld id hid
  exact hnot ((hiff id).mpr ⟨Option.isSome_iff_exists.mp hsome, hreaches⟩)

end Action

end QuantFamily
