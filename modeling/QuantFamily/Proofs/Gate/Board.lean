import QuantFamily.Proofs.Gate.Log
import QuantFamily.Proofs.Session.Faults

/-!
# What is written on the board

The board gets the gates of a block after those of the blocks it refers to, each block once.
Writing a block is followed step by step down to its lines, and the walk over its bricks is
shown to keep a log, for every depth of nesting. A walk that comes to an end has met no block
that lists itself.
-/

namespace QuantFamily

/-! ## Writing one block -/

namespace Action

variable {φ : Formula}

theorem twoFresh_leads {E : Session → Prop} :
    Leads (fun s => s.formula = φ) twoFresh
      (fun pair s => pair = (φ.counter + 1, φ.counter + 2) ∧
        s.formula = { φ with counter := φ.counter + 2 }) E := by
  refine Leads.bind_known (Leads.bind (Leads.update (Q := fun _ s =>
    s.formula = { φ with counter := φ.counter + 2 }) fun s hs => by rw [hs]) fun _ => ?_)
  exact Leads.pure fun s hs => ⟨rfl, hs⟩

/-- The lines of a block are those of its gates. -/
theorem gateLines_leads (b : Block) :
    Leads (fun s => s.formula = φ) (gateLines b)
      (fun lines s => ∃ gates, GatesOf φ.counter b gates ∧ lines = gates.map Gate.line ∧
        s.formula = { φ with counter := φ.counter + b.extra }) (fun _ => True) := by
  have hfault : ∀ s : Session, s.formula = φ → True := fun _ _ => trivial
  have hsame : b.mark ≠ some (.operator .iff) →
      φ = { φ with counter := φ.counter + b.extra } := by
    intro hne
    rw [Block.extra, if_neg hne, Int.add_zero]
  unfold gateLines
  split
  · rename_i hmark
    split
    · rename_i x y hbody
      refine Leads.pure fun s hs => ⟨_, .implies hmark hbody, rfl, ?_⟩
      rw [hs]
      exact hsame (by simp [hmark])
    · exact Leads.throw hfault
  · rename_i hmark
    refine Leads.bind twoFresh_leads ?_
    rintro ⟨left, right⟩
    dsimp only
    split
    · rename_i x y hbody
      refine Leads.pure fun s hs => ?_
      obtain ⟨hpair, hs⟩ := hs
      cases hpair
      refine ⟨_, .iff hmark hbody, rfl, ?_⟩
      rw [hs, Block.extra, if_pos hmark]
    · exact Leads.throw fun _ _ => trivial
  · rename_i hmark
    split
    · exact Leads.throw hfault
    · rename_i hshort
      refine Leads.pure fun s hs => ⟨_, .bare hmark (by omega), rfl, ?_⟩
      rw [hs]
      exact hsame (by simp [hmark])
  · rename_i a hnotImplies hnotIff hmark
    split
    · exact Leads.throw hfault
    · rename_i hparity
      split
      · exact Leads.throw hfault
      · rename_i hchoice
        refine Leads.pure fun s hs => ⟨_, .marked hmark hnotImplies hnotIff ?_ ?_, rfl, ?_⟩
        · intro hxor
          exact Decidable.byContradiction fun hlength => hparity ⟨hxor, hlength⟩
        · intro hite
          exact Decidable.byContradiction fun hlength => hchoice ⟨hite, hlength⟩
        · rw [hs]
          refine hsame fun hiff => hnotIff ?_
          exact Option.some.inj (hmark.symm.trans hiff)

/-- The faults of a block are those of a wrong number of bricks, or of a missing operator if it has
no mark. -/
theorem gateLines_keeps {P : Session → Prop} {F : Fault → Prop} {b : Block}
    (fresh : Keeps P F twoFresh) (count : ∀ operator, F (.wrongBrickCount operator b.name))
    (missing : b.mark = none → F (.missingOperator b.name)) : Keeps P F (gateLines b) := by
  unfold gateLines
  split
  · split
    · exact .pure _
    · exact .throw (count _)
  · refine .bind fresh fun (left, right) => ?_
    dsimp only
    split
    · exact .pure _
    · exact .throw (count _)
  · rename_i hmark
    split
    · exact .throw (missing hmark)
    · exact .pure _
  · split
    · exact .throw (count _)
    · split
      · exact .throw (count _)
      · exact .pure _

theorem writeLines_leads {E : Session → Prop} (gates : List Gate) :
    Leads (fun s => s.formula = φ)
      ((gates.map Gate.line).forM fun line => update fun φ => { φ with board := φ.board ++ line ++ "\n" })
      (fun _ s => s.formula = { φ with board := φ.board ++ renderGates gates }) E := by
  induction gates generalizing φ with
  | nil =>
      refine Leads.pure fun s hs => ?_
      rw [hs, show renderGates [] = "" from rfl, String.append_empty]
  | cons g gates ih =>
      have hfirst : Leads (fun s => s.formula = φ)
          (update fun φ => { φ with board := φ.board ++ g.line ++ "\n" })
          (fun _ s => s.formula = { φ with board := φ.board ++ g.line ++ "\n" }) E :=
        Leads.update fun s hs => by rw [hs]
      refine Leads.bind hfirst fun _ => Leads.mono ih (fun _ hs => hs) (fun _ s hs => ?_)
        fun _ hs => hs
      rw [hs, renderGates_cons]
      simp only [String.append_assoc]

theorem putOnBoard_leads (b : Block) :
    Leads (fun s => s.formula = φ) (putOnBoard b)
      (fun _ s => ∃ gates, GatesOf φ.counter b gates ∧
        s.formula = { φ with
          counter := φ.counter + b.extra
          board := φ.board ++ renderGates gates
          boardGates := b.id :: φ.boardGates }) (fun _ => True) := by
  have hmarked : Leads (fun s => s.formula = φ)
      (update fun φ => { φ with boardGates := b.id :: φ.boardGates })
      (fun _ s => s.formula = { φ with boardGates := b.id :: φ.boardGates }) (fun _ => True) :=
    Leads.update fun s hs => by rw [hs]
  refine Leads.bind hmarked fun _ => Leads.bind (gateLines_leads b) fun lines s hs => ?_
  obtain ⟨gates, hgates, rfl, hs⟩ := hs
  exact Leads.mono (writeLines_leads gates) (fun _ h => h) (fun _ _ h => ⟨gates, hgates, h⟩)
    (fun _ h => h) s hs

end Action

/-! ## The walk -/

/-- A formula with the board of a log: the formula that the walk set out from, up to the
board and the identifiers given out. -/
structure OnBoard (φ : Formula) (log : Log) (ψ : Formula) : Prop where
  contents : ψ.contents = φ.contents
  written : Written φ log ψ.counter
  board : ψ.board = renderGates log.gates
  marked : ∀ id, id ∈ ψ.boardGates ↔ id ∈ log.ids

theorem renderGates_append (gates more : List Gate) :
    renderGates (gates ++ more) = renderGates gates ++ renderGates more := by
  simp [renderGates]

/-- The walk has seen some bricks of a block: the log has grown by blocks below it, and what
the bricks refer to is there. -/
structure Walked (φ : Formula) (log : Log) (b : Block) (seen : List Id) (new : Log)
    (ψ : Formula) : Prop where
  onBoard : OnBoard φ (log ++ new) ψ
  below : ∀ id ∈ new.ids, Relation.ReflTransGen φ.Refers b.id id ∧ id ≠ b.id
  seen : ∀ e ∈ seen, (e.natAbs : Int) ≠ b.id ∧
    ((e.natAbs : Int) ∈ φ.vars.values ∨ (e.natAbs : Int) ∈ (log ++ new).ids)

/-- A brick whose operand is there already. -/
theorem Walked.skip {φ ψ : Formula} {log new : Log} {b : Block} {seen : List Id}
    (h : Walked φ log b seen new ψ) {e : Id} (hne : (e.natAbs : Int) ≠ b.id)
    (he : (e.natAbs : Int) ∈ φ.vars.values ∨ (e.natAbs : Int) ∈ (log ++ new).ids) :
    Walked φ log b (seen ++ [e]) new ψ := by
  refine ⟨h.onBoard, h.below, fun e' he' => ?_⟩
  rcases List.mem_append.mp he' with hold | hnew
  · exact h.seen e' hold
  · rw [List.mem_singleton] at hnew
    exact hnew ▸ ⟨hne, he⟩

/-- A brick whose operand has been written just now. The operand is another block, since it
does not list itself. -/
theorem Walked.grow {φ ψ χ : Formula} {log new more : Log} {b : Block} {seen : List Id}
    (h : Walked φ log b seen new ψ) (hφ : φ.WellFormed) {e : Id}
    (hrefers : φ.Refers b.id (e.natAbs : Int)) (hboard : OnBoard φ (log ++ (new ++ more)) χ)
    (hthere : (e.natAbs : Int) ∈ more.ids)
    (hbelow : ∀ id ∈ more.ids, Relation.ReflTransGen φ.Refers (e.natAbs : Int) id)
    (hself : ¬ φ.Refers (e.natAbs : Int) (e.natAbs : Int)) :
    Walked φ log b (seen ++ [e]) (new ++ more) χ := by
  have hne : (e.natAbs : Int) ≠ b.id := by
    intro heq
    rw [heq] at hself hrefers
    exact hself hrefers
  have hle : (e.natAbs : Int) ≤ b.id := hφ.le_of_refers hrefers
  refine ⟨hboard, fun id hid => ?_, fun e' he' => ?_⟩
  · rw [Log.ids_append, List.mem_append] at hid
    rcases hid with hold | hnew
    · exact h.below id hold
    · refine ⟨(hbelow id hnew).head hrefers, ?_⟩
      have hlow : id ≤ (e.natAbs : Int) := hφ.le_of_reaches (hbelow id hnew)
      grind
  · rw [← List.append_assoc, Log.ids_append, List.mem_append]
    rcases List.mem_append.mp he' with hold | hnew
    · obtain ⟨hother, hplace⟩ := h.seen e' hold
      exact ⟨hother, hplace.imp_right Or.inl⟩
    · rw [List.mem_singleton] at hnew
      subst hnew
      exact ⟨hne, Or.inr (Or.inr hthere)⟩

namespace Action

variable {φ : Formula}

theorem putOnBoard_log {log : Log} {b : Block} (held : φ.contents.get? b.id = some b)
    (fresh : b.id ∉ log.ids)
    (operands : ∀ e ∈ b.body, (e.natAbs : Int) ∈ φ.vars.values ∨ (e.natAbs : Int) ∈ log.ids) :
    Leads (fun s => OnBoard φ log s.formula) (putOnBoard b)
      (fun _ s => ∃ gates, OnBoard φ (log ++ [(b, gates)]) s.formula) (fun _ => True) := by
  refine Leads.of_formula fun ψ hψ => Leads.mono (putOnBoard_leads b) (fun _ hs => hs) ?_
    fun _ _ => trivial
  rintro _ s ⟨gates, hgates, hs⟩
  refine ⟨gates, ?_, ?_, ?_, ?_⟩
  · rw [hs]
    exact hψ.contents
  · rw [hs]
    exact hψ.written.snoc held fresh operands hgates
  · rw [hs, Log.gates_append, Log.gates_singleton, renderGates_append, ← hψ.board]
  · intro id
    rw [hs, Log.ids_append, Log.ids_singleton, List.mem_append, List.mem_singleton, List.mem_cons,
      hψ.marked, or_comm]

/-- What comes of writing a block: the log grows by the block and by blocks below it, and the
block does not list itself. -/
def WritesBelow (φ : Formula) (log : Log) (b : Block) (action : Action Unit) : Prop :=
  Leads (fun s => OnBoard φ log s.formula) action
    (fun _ s => ∃ new : Log, OnBoard φ (log ++ new) s.formula ∧ b.id ∈ new.ids ∧
      (∀ id ∈ new.ids, Relation.ReflTransGen φ.Refers b.id id) ∧ ¬ φ.Refers b.id b.id)
    (fun _ => True)

/-- One brick of a block, when blocks of the next depth are written as they should be. -/
theorem writeOperand_log (hφ : φ.WellFormed) (hfull : φ.Complete) {fuel : Nat}
    (ih : ∀ (log : Log) (b : Block), φ.contents.get? b.id = some b → b.id ∉ log.ids →
      WritesBelow φ log b (writeGate fuel b))
    {b : Block} {log : Log} (held : φ.contents.get? b.id = some b) (fresh : b.id ∉ log.ids)
    (seen : List Id) {e : Id} (he : e ∈ b.body) :
    Leads (fun s => ∃ new, Walked φ log b seen new s.formula)
      (do
        let φ <- formula
        let id := Int.ofNat e.natAbs
        match φ.contents.get? id with
        | none => pure ()
        | some operand => if φ.boardGates.contains id then pure () else writeGate fuel operand)
      (fun _ s => ∃ new, Walked φ log b (seen ++ [e]) new s.formula) (fun _ => True) := by
  have hrefers : φ.Refers b.id (e.natAbs : Int) := ⟨b, held, e, he, rfl⟩
  refine Leads.of_formula (K := fun ψ => ∃ new, Walked φ log b seen new ψ) ?_
  rintro ψ ⟨new, hwalked⟩
  refine Leads.bind_known ?_
  rw [hwalked.onBoard.contents]
  dsimp only
  split
  · rename_i hnone
    have hbrick := hφ.bricks b.id b (Table.mem_entries_of_get? held) e he
    refine Leads.pure fun s hs => ⟨new, hs ▸ hwalked.skip ?_ ?_⟩
    · intro heq
      rw [show Int.ofNat e.natAbs = b.id from heq, held] at hnone
      cases hnone
    · exact Or.inl (hfull.variable hbrick.2.2 hnone)
  · rename_i operand hoperand
    split
    · rename_i hthere
      have hmem : (e.natAbs : Int) ∈ (log ++ new).ids :=
        (hwalked.onBoard.marked _).mp (List.contains_iff_mem.mp hthere)
      refine Leads.pure fun s hs => ⟨new, hs ▸ hwalked.skip ?_ (Or.inr hmem)⟩
      intro heq
      rw [heq, Log.ids_append, List.mem_append] at hmem
      rcases hmem with hold | hnew
      · exact fresh hold
      · exact (hwalked.below _ hnew).2 rfl
    · rename_i hmissing
      have hid : operand.id = (e.natAbs : Int) := (hφ.held hoperand).1
      have hfresh : operand.id ∉ (log ++ new).ids := by
        rw [hid]
        exact fun hmem =>
          hmissing (List.contains_iff_mem.mpr ((hwalked.onBoard.marked _).mpr hmem))
      refine Leads.mono (ih (log ++ new) operand (by rw [hid]; exact hoperand) hfresh)
        (fun s hs => hs ▸ hwalked.onBoard) ?_ fun _ _ => trivial
      rintro _ s ⟨more, hboard, hthere, hbelow, hself⟩
      rw [List.append_assoc] at hboard
      rw [hid] at hthere hbelow hself
      exact ⟨new ++ more, hwalked.grow hφ hrefers hboard hthere hbelow hself⟩

/-- Writing a block after its operands. -/
theorem writeGate_log (hφ : φ.WellFormed) (hfull : φ.Complete) (fuel : Nat) (log : Log) (b : Block)
    (held : φ.contents.get? b.id = some b) (fresh : b.id ∉ log.ids) :
    WritesBelow φ log b (writeGate fuel b) := by
  induction fuel generalizing log b with
  | zero => exact Leads.throw fun _ _ => trivial
  | succ fuel ih =>
      have hloop := Leads.forM (J := fun seen s => ∃ new, Walked φ log b seen new s.formula)
        b.body (fun seen e he => writeOperand_log hφ hfull ih held fresh seen he) []
      have hstart : ∀ s : Session, OnBoard φ log s.formula → ∃ new, Walked φ log b [] new s.formula :=
        fun s hs => ⟨[], by rwa [List.append_nil], by simp [Log.ids], by simp⟩
      refine Leads.bind (Leads.mono hloop hstart (fun _ _ h => h) fun _ h => h) fun _ => ?_
      refine Leads.of_formula (K := fun ψ => ∃ new, Walked φ log b ([] ++ b.body) new ψ) ?_
      rintro ψ ⟨new, hwalked⟩
      rw [List.nil_append] at hwalked
      have hown : b.id ∉ (log ++ new).ids := by
        rw [Log.ids_append, List.mem_append]
        rintro (hold | hnew)
        · exact fresh hold
        · exact (hwalked.below _ hnew).2 rfl
      refine Leads.mono (putOnBoard_log held hown fun e he => (hwalked.seen e he).2)
        (fun s hs => hs ▸ hwalked.onBoard) ?_ fun _ h => h
      rintro _ s ⟨gates, hboard⟩
      refine ⟨new ++ [(b, gates)], by rwa [← List.append_assoc], by simp, fun id hid => ?_, ?_⟩
      · rw [Log.ids_append, Log.ids_singleton, List.mem_append, List.mem_singleton] at hid
        rcases hid with hnew | rfl
        · exact (hwalked.below id hnew).1
        · exact Relation.ReflTransGen.refl
      · rintro ⟨b', hb', e, he, heq⟩
        rw [held, Option.some.injEq] at hb'
        subst hb'
        exact (hwalked.seen e he).1 heq

/-- The gate lines below a block, from a board with nothing on it. -/
theorem gatesBelow_log (hφ : φ.WellFormed) (hfull : φ.Complete)
    (hblank : φ.board = "" ∧ φ.boardGates = []) {b : Block}
    (held : φ.contents.get? b.id = some b) :
    Leads (fun s => s.formula = φ) (gatesBelow .full b)
      (fun text _ => ∃ (log : Log) (c : Id), text = renderGates log.gates ∧ Written φ log c ∧
        b.id ∈ log.ids ∧ ∀ id ∈ log.ids, Relation.ReflTransGen φ.Refers b.id id)
      (fun _ => True) := by
  have hstart : OnBoard φ [] φ :=
    ⟨rfl, .nil, hblank.1, by simp [hblank.2, Log.ids]⟩
  refine Leads.bind (Leads.bind_known (Leads.mono
    (writeGate_log hφ hfull φ.nestingBound [] b held (by simp [Log.ids]))
    (fun s hs => hs ▸ hstart) (fun _ _ h => h) fun _ h => h)) fun _ => ?_
  refine Leads.bind_formula fun ψ => Leads.pure ?_
  rintro s ⟨rfl, log, hboard, hthere, hbelow, -⟩
  exact ⟨log, _, hboard.board, hboard.written, hthere, hbelow⟩

theorem get?_of_contentsOf {id : Id} {b : Block} (h : φ.contentsOf id = .ok b) :
    φ.contents.get? id = some b := by
  unfold Formula.contentsOf at h
  split at h
  · cases h
  · rename_i found hfound
    cases h
    exact hfound

/-- What a circuit text has before its gates: the quantifier lines come from the first part of the
output block, and the second part is the matrix. -/
structure Headed (φ : Formula) (lines : String) (matrix : Id) (root : Block) : Prop where
  lines : ∃ quantifiers quantified, φ.outputPart 0 = .ok quantifiers ∧
    φ.contentsOf quantifiers = .ok quantified ∧
    φ.quantifierLines φ.nestingBound quantified = .ok lines
  second : φ.outputPart 1 = .ok matrix
  held : φ.contents.get? matrix = some root

/-- A text is written as soon as it has a heading and the gates below its matrix are written. -/
theorem generateCircuit_of_headed {edition : Edition} {s t : Session} {lines gates : String}
    {matrix : Id} {root : Block} (h : Headed s.formula lines matrix root)
    (run : gatesBelow edition root s = .ok gates t) :
    ∃ u, generateCircuit edition s =
      .ok (circuitHeader ++ lines ++ outputLine (Text.showInt matrix) ++ gates) u := by
  obtain ⟨quantifiers, quantified, hfirst, hquantified, hlines⟩ := h.lines
  have hroot : s.formula.contentsOf matrix = .ok root := by
    rw [Formula.contentsOf, h.held]
  unfold generateCircuit
  rw [run_bind_of_ok (show formula s = .ok s.formula s from rfl),
    run_bind_of_ok (run_lift_of_ok hfirst s), run_bind_of_ok (run_lift_of_ok hquantified s),
    run_bind_of_ok (run_lift_of_ok hlines s), run_bind_of_ok (run_lift_of_ok h.second s),
    run_bind_of_ok (run_lift_of_ok hroot s), run_bind_of_ok run]
  exact ⟨_, rfl⟩

theorem headed_of_generateCircuit {edition : Edition} {s t : Session} {text : String}
    (run : generateCircuit edition s = .ok text t) :
    ∃ (lines : String) (matrix : Id) (root : Block) (gates : String) (u : Session),
      Headed s.formula lines matrix root ∧ gatesBelow edition root s = .ok gates u ∧
      text = circuitHeader ++ lines ++ outputLine (Text.showInt matrix) ++ gates := by
  unfold generateCircuit at run
  rw [run_bind_of_ok (show formula s = .ok s.formula s from rfl)] at run
  obtain ⟨quantifiers, hfirst, run⟩ := exists_of_lift_bind run
  obtain ⟨quantified, hquantified, run⟩ := exists_of_lift_bind run
  obtain ⟨lines, hlines, run⟩ := exists_of_lift_bind run
  obtain ⟨matrix, hsecond, run⟩ := exists_of_lift_bind run
  obtain ⟨root, hroot, run⟩ := exists_of_lift_bind run
  obtain ⟨gates, u, hgates, run⟩ := exists_of_run_bind run
  cases run
  exact ⟨lines, matrix, root, gates, u, ⟨⟨quantifiers, quantified, hfirst, hquantified, hlines⟩,
    hsecond, get?_of_contentsOf hroot⟩, hgates, rfl⟩

/-- How a circuit text comes about: its quantifier lines come from the first part of the output
block, and its gates are those of a log that holds the blocks below the second part. -/
structure Draws (φ : Formula) (text : String) (matrix : Id) (log : Log) : Prop where
  second : φ.outputPart 1 = .ok matrix
  lines : ∃ quantifiers quantified lines, φ.outputPart 0 = .ok quantifiers ∧
    φ.contentsOf quantifiers = .ok quantified ∧
    φ.quantifierLines φ.nestingBound quantified = .ok lines ∧
    text = circuitHeader ++ lines ++ outputLine (Text.showInt matrix) ++ renderGates log.gates
  written : ∃ c, Written φ log c
  root : matrix ∈ log.ids
  below : ∀ id ∈ log.ids, Relation.ReflTransGen φ.Refers matrix id

theorem generateCircuit_log (hφ : φ.WellFormed) (hfull : φ.Complete)
    (hblank : φ.board = "" ∧ φ.boardGates = []) :
    Leads (fun s => s.formula = φ) (generateCircuit .full)
      (fun text _ => ∃ matrix log, Draws φ text matrix log) (fun _ => True) := by
  have hfault : ∀ s : Session, s.formula = φ → True := fun _ _ => trivial
  refine Leads.bind_known (Reads.andThen (Reads.lift fun _ h => h) hfault fun quantifiers hq => ?_)
  refine Reads.andThen (Reads.lift fun _ h => h) hfault fun quantified hquantified => ?_
  refine Reads.andThen (Reads.lift fun _ h => h) hfault fun lines hlines => ?_
  refine Reads.andThen (Reads.lift fun _ h => h) hfault fun matrix hmatrix => ?_
  refine Reads.andThen (Reads.lift fun _ h => h) hfault fun b hb => ?_
  have hget := get?_of_contentsOf hb
  obtain ⟨rfl, -⟩ := hφ.held hget
  refine Leads.bind (gatesBelow_log hφ hfull hblank hget) fun gates s hs => ?_
  obtain ⟨log, c, rfl, hwritten, hroot, hbelow⟩ := hs
  exact ⟨b.id, log, hmatrix, ⟨quantifiers, quantified, lines, hq, hquantified, hlines, rfl⟩,
    ⟨c, hwritten⟩, hroot, hbelow⟩

namespace Draws

variable {text : String} {matrix : Id} {log : Log}

theorem read (h : Draws φ text matrix log) (hφ : φ.WellFormed) :
    gatesIn text = log.gates ∧ outputsIn text = [matrix] := by
  obtain ⟨quantifiers, quantified, lines, -, -, hlines, rfl⟩ := h.lines
  obtain ⟨c, hwritten⟩ := h.written
  exact circuit_text_read hlines matrix fun g hg => hwritten.legible hφ hg

theorem headed (h : Draws φ text matrix log) :
    ∃ lines root, Headed φ lines matrix root ∧
      text = circuitHeader ++ lines ++ outputLine (Text.showInt matrix) ++
        renderGates log.gates := by
  obtain ⟨c, hwritten⟩ := h.written
  obtain ⟨quantifiers, quantified, lines, hfirst, hquantified, hlines, htext⟩ := h.lines
  obtain ⟨entry, hentry, hid⟩ := List.mem_map.mp h.root
  exact ⟨lines, entry.1, ⟨⟨quantifiers, quantified, hfirst, hquantified, hlines⟩, h.second,
    hid ▸ hwritten.held hentry⟩, htext⟩

/-- What can be reached from the matrix is a variable or has been written. -/
theorem variable_or_written (h : Draws φ text matrix log) (hφ : φ.WellFormed) {id : Id}
    (hreaches : Relation.ReflTransGen φ.Refers matrix id) :
    id ∈ φ.vars.values ∨ id ∈ log.ids := by
  obtain ⟨c, hwritten⟩ := h.written
  induction hreaches with
  | refl => exact Or.inr h.root
  | tail _ last ih =>
      obtain ⟨b, hb, e, he, rfl⟩ := last
      rcases ih with hvar | hlog
      · exact absurd hvar (hφ.not_variable hb)
      · obtain ⟨entry, hentry, rfl⟩ := List.mem_map.mp hlog
        have hsame := (hwritten.held hentry).symm.trans hb
        rw [Option.some.injEq] at hsame
        exact hwritten.operands hentry (hsame ▸ he)

/-- The blocks that are written are those below the matrix. -/
theorem mem_log_iff (h : Draws φ text matrix log) (hφ : φ.WellFormed) (b : Block) :
    b ∈ log.map Prod.fst ↔ φ.Reachable matrix b := by
  obtain ⟨c, hwritten⟩ := h.written
  constructor
  · intro hb
    obtain ⟨entry, hentry, rfl⟩ := List.mem_map.mp hb
    exact ⟨hwritten.held hentry, h.below _ (List.mem_map_of_mem hentry)⟩
  · rintro ⟨held, hreaches⟩
    rcases h.variable_or_written hφ hreaches with hvar | hlog
    · exact absurd hvar (hφ.not_variable held)
    · obtain ⟨entry, hentry, hid⟩ := List.mem_map.mp hlog
      have hsame := (hid ▸ hwritten.held hentry).symm.trans held
      rw [Option.some.injEq] at hsame
      exact List.mem_map.mpr ⟨entry, hentry, hsame⟩

/-- The written gates need no variables but those that can be reached from the matrix. -/
theorem sequential (h : Draws φ text matrix log) (hφ : φ.WellFormed) {inputs : List Id}
    (within : inputs ⊆ φ.vars.values)
    (covers : ∀ x ∈ φ.vars.values, Relation.ReflTransGen φ.Refers matrix x → x ∈ inputs) :
    Sequential inputs log.gates := by
  obtain ⟨c, hwritten⟩ := h.written
  refine (hwritten.sequential hφ).restrict within fun g hg e he hvar => ?_
  obtain ⟨entry, hentry, hg⟩ := List.mem_flatMap.mp hg
  obtain ⟨c', hle, hgates⟩ := hwritten.gatesOf hentry
  rcases hgates.operand hg he with ⟨d, hd, heq⟩ | hfresh
  · refine covers _ hvar (.tail (h.below _ (List.mem_map_of_mem hentry)) ?_)
    exact ⟨entry.1, hwritten.held hentry, d, hd, by rw [heq]⟩
  · have hrange := hφ.inRange _ (List.mem_append_left _ hvar)
    have hnonneg := hφ.nonneg
    grind

end Draws

/-- A double implication that is used twice, once negated. -/
def sharedGate : List Language.Statement :=
  [.vars "x" [] [], .vars "y" [] [],
   .blocks [⟨"P", [], [.ref false "x" [], .ref false "y" []]⟩] [] none,
   .blocks [⟨"N", [], [.ref false "x" [], .ref true "y" []]⟩] [] none,
   .blocks [⟨"M", [], [.ref true "N" [], .ref false "N" [], .ref false "y" []]⟩] [] none,
   .blocks [⟨"F", [], [.ref false "P" [], .ref false "M" []]⟩] [] none,
   .mark [("P", [])] "E", .mark [("N", [])] "<=>", .mark [("M", [])] "ITE", .output "F" []]

/-- The circuit text of the shared gate. -/
def sharedText : String :=
  "#QCIR-G14\nexists(1, 2)\noutput(5)\n" ++
    "7 = or(-1, -2)\n8 = or(2, 1)\n4 = and(7, 8)\n5 = ite(-4, 4, 2)\n"

/-- The session after the statements of the shared gate. -/
def sharedSession : Session :=
  (perform (sharedGate.forM (Language.Statement.perform .full false)) {}).2

theorem sharedSession_built : sharedSession.Built .full :=
  ⟨false, sharedGate, {}, ok_of_perform (by decide +kernel)⟩

theorem sharedSession_run : ∃ t, generateCircuit .full sharedSession = .ok sharedText t :=
  ⟨_, ok_of_perform (by decide +kernel)⟩

end Action

end QuantFamily
