import QuantFamily.Proofs.Gate.Nesting
import QuantFamily.Proofs.Session.Faults
import QuantFamily.Proofs.Visit.Nested

/-!
# Shapes that can be written

The writers take the output block apart without asking what its bricks are. The prenex writer wants
two parts, both of them blocks and not negated, and the same of every brick that a block of the
prefix without attribute lists; the writer of quantified gates wants it of the body of every
quantified gate. Where a formula has another shape, a table or a list has no entry at some place,
and nobody is told. In formulas in which no block contains itself, these shapes are all that the
writers depend on.
-/

namespace QuantFamily

/-! ## Faults that are not reported -/

section Unreported

variable {α β : Type}

/-- Nobody is told of the fault that the outcome may be. -/
abbrev Unreported (outcome : Except Fault α) : Prop :=
  Confined (fun fault => fault.report? = none) outcome

theorem exists_bind_ok {first : Except Fault α} {next : α → Except Fault β}
    (h : ∃ a, first = .ok a) (rest : ∀ a, ∃ b, next a = .ok b) : ∃ b, (first >>= next) = .ok b := by
  obtain ⟨a, rfl⟩ := h
  exact rest a

theorem exists_mapM_ok {f : α → Except Fault β} {xs : List α} (h : ∀ x ∈ xs, ∃ y, f x = .ok y) :
    ∃ ys, xs.mapM f = .ok ys := by
  induction xs with
  | nil => exact ⟨[], rfl⟩
  | cons x xs ih =>
      rw [List.forall_mem_cons] at h
      obtain ⟨y, hy⟩ := h.1
      obtain ⟨ys, hys⟩ := ih h.2
      refine ⟨y :: ys, ?_⟩
      rw [List.mapM_cons, hy, hys]
      rfl

end Unreported

namespace Formula

variable {φ : Formula}

theorem contentsOf_unreported (φ : Formula) (id : Id) : Unreported (φ.contentsOf id) := by
  unfold contentsOf
  split
  · exact .error rfl
  · exact .ok _

theorem outputPart_unreported (φ : Formula) (place : Nat) : Unreported (φ.outputPart place) := by
  unfold outputPart
  split
  · exact .error rfl
  · split
    · exact .error rfl
    · exact .ok _

theorem literals_unreported (φ : Formula) (fuel : Nat) (bricks : List Id) :
    Unreported (φ.literals fuel bricks) := by
  induction fuel generalizing bricks with
  | zero => exact .error rfl
  | succ fuel ih =>
      refine .bind (.mapM bricks fun brick _ => ?_) fun _ => .ok _
      dsimp only
      split
      · exact .ok _
      · split
        · exact .error rfl
        · exact .bind (ih _) fun _ => .ok _

theorem literalText_unreported (φ : Formula) (bricks : List Id) :
    Unreported (φ.literalText bricks) := by
  rw [literalText_eq]
  exact .bind (φ.literals_unreported _ bricks) fun _ => .ok _

theorem quantifierLines_unreported (φ : Formula) (fuel : Nat) (b : Block) :
    Unreported (φ.quantifierLines fuel b) := by
  induction fuel generalizing b with
  | zero => exact .error rfl
  | succ fuel ih =>
      unfold quantifierLines
      split
      · exact .bind (φ.literalText_unreported _) fun _ => .ok _
      · refine .bind (.mapM b.body fun brick _ => ?_) fun _ => .ok _
        split
        · exact .error rfl
        · exact ih _

theorem nestedLine_unreported (φ : Formula) (b : Block) : Unreported (φ.nestedLine b) := by
  unfold nestedLine
  split
  · refine .bind (φ.literalText_unreported _) fun _ => ?_
    split
    · exact .error rfl
    · exact .bind (φ.contentsOf_unreported _) fun _ => .ok _
  · exact .ok _

theorem visitNested_unreported (φ : Formula) (fuel : Nat) (queue : List Block)
    (visited lines : List String) : Unreported (φ.visitNested fuel queue visited lines) := by
  induction fuel generalizing queue visited lines with
  | zero => exact .error rfl
  | succ fuel ih =>
      cases queue with
      | nil => exact .ok _
      | cons b queue =>
          unfold visitNested
          split
          · exact ih _ _ _
          · exact .bind (φ.nestedLine_unreported b) fun _ => ih _ _ _

theorem nestedCircuit_unreported (φ : Formula) : Unreported φ.nestedCircuit := by
  unfold nestedCircuit
  split
  · exact .error rfl
  · exact .bind (φ.contentsOf_unreported _) fun b =>
      .bind (φ.visitNested_unreported _ _ _ _) fun _ => .ok _

/-! ## Blocks that can be expanded -/

theorem Acyclic.natAbs_ne (acyclic : φ.Acyclic) {id e : Id} {b : Block}
    (hb : φ.contents.get? id = some b) (he : e ∈ b.body) : (e.natAbs : Int) ≠ id :=
  fun heq => acyclic id (.single ⟨b, hb, e, he, heq⟩)

theorem exists_literals (hφ : φ.WellFormed) (hfull : φ.Complete) (acyclic : φ.Acyclic)
    {bricks : List Id} (h : ∀ e ∈ bricks, (e.natAbs : Int) ∈ φ.ids) :
    ∃ ns, φ.literals φ.nestingBound bricks = .ok ns := by
  obtain ⟨parts, -, hliterals⟩ := exists_literals_of_flattens hφ fun e he =>
    exists_flattens hφ (fun id hid => hfull.known_of_reaches hφ (h e he) hid)
      fun id _ hself => acyclic id (.single hself)
  exact ⟨_, hliterals⟩

theorem WellFormed.mem_ids_of_brick (hφ : φ.WellFormed) {id e : Id} {b : Block}
    (hb : φ.contents.get? id = some b) (he : e ∈ b.body) : (e.natAbs : Int) ∈ φ.ids :=
  (hφ.bricks id b (Table.mem_entries_of_get? hb) e he).2.2

theorem exists_literalText (hφ : φ.WellFormed) (hfull : φ.Complete) (acyclic : φ.Acyclic)
    {bricks : List Id} (h : ∀ e ∈ bricks, (e.natAbs : Int) ∈ φ.ids) :
    ∃ text, φ.literalText bricks = .ok text := by
  obtain ⟨ns, hns⟩ := exists_literals hφ hfull acyclic h
  exact ⟨_, literalText_eq_ok_iff.mpr ⟨ns, hns, rfl⟩⟩

/-! ## The prefix -/

/-- Every block of the prefix without attribute lists blocks only, none of them negated. -/
def ListsBlocks (φ : Formula) (id : Id) : Prop :=
  ∀ b, φ.PrefixBlock id b → b.mark = none → ∀ e ∈ b.body, e ∈ φ.contents.keys

theorem listsBlocks_of_quantifierLines {fuel : Nat} {id : Id} {b : Block} {lines : String}
    (hb : φ.contents.get? id = some b) (h : φ.quantifierLines fuel b = .ok lines) :
    φ.ListsBlocks id := by
  intro c hprefixBlock
  induction hprefixBlock generalizing fuel b lines with
  | @first id c held =>
      intro hmark e he
      cases held.symm.trans hb
      cases fuel with
      | zero => cases h
      | succ fuel =>
          unfold quantifierLines at h
          rw [hmark] at h
          obtain ⟨found, hfound, -⟩ := exists_ok_of_bind h
          obtain ⟨line, -, hline⟩ := exists_map_of_mapM hfound
          have hbrick := hline e he
          cases hget : φ.contents.get? e with
          | none =>
              rw [hget] at hbrick
              cases hbrick
          | some inner => exact Table.mem_keys_of_get? hget
  | @listed id e c d held mark brick inner ih =>
      cases held.symm.trans hb
      cases fuel with
      | zero => cases h
      | succ fuel =>
          unfold quantifierLines at h
          rw [mark] at h
          obtain ⟨found, hfound, -⟩ := exists_ok_of_bind h
          obtain ⟨line, -, hline⟩ := exists_map_of_mapM hfound
          have hbrick := hline e brick
          cases hget : φ.contents.get? e with
          | none =>
              rw [hget] at hbrick
              cases hbrick
          | some next =>
              rw [hget] at hbrick
              exact ih hget hbrick

/-- The quantifier lines are written if the prefix lists blocks. -/
theorem exists_quantifierLines (hφ : φ.WellFormed) (hfull : φ.Complete) (acyclic : φ.Acyclic)
    {fuel : Nat} {id : Id} {b : Block} (hb : φ.contents.get? id = some b)
    (lists : φ.ListsBlocks id) (enough : φ.rank id < fuel) :
    ∃ lines, φ.quantifierLines fuel b = .ok lines := by
  induction fuel generalizing id b with
  | zero => cases enough
  | succ fuel ih =>
      unfold quantifierLines
      cases hmark : b.mark with
      | some mark =>
          obtain ⟨text, htext⟩ :=
            exists_literalText hφ hfull acyclic fun e he => hφ.mem_ids_of_brick hb he
          dsimp only
          unfold markedLine
          rw [htext]
          exact ⟨_, rfl⟩
      | none =>
          refine exists_bind_ok (exists_mapM_ok fun e he => ?_) fun _ => ⟨_, rfl⟩
          cases hget : φ.contents.get? e with
          | none => exact absurd (lists b (.first hb) hmark e he) (Table.get?_eq_none_iff.mp hget)
          | some inner =>
              have hpos : (e.natAbs : Int) = e :=
                Int.natAbs_of_nonneg (Int.le_trans (by decide) (hφ.held_range hget).1)
              have hrank := hφ.rank_lt hb he (acyclic.natAbs_ne hb he)
              rw [hpos] at hrank
              have hinner : φ.ListsBlocks e :=
                fun c hc => lists c (.listed hb hmark he hc)
              exact ih hget hinner (Nat.lt_of_lt_of_le hrank (Nat.le_of_lt_succ enough))

/-! ## The two parts of the output block -/

/-- The output block has two parts at least, a prefix of blocks and a block for the matrix. -/
def Divided (φ : Formula) : Prop :=
  ∃ (output : Id) (root : Block) (quantifiers matrix : Id) (rest : List Id),
    φ.output = some output ∧ φ.contents.get? output = some root ∧
    root.body = quantifiers :: matrix :: rest ∧ quantifiers ∈ φ.contents.keys ∧
    matrix ∈ φ.contents.keys ∧ φ.ListsBlocks quantifiers

theorem outputPart_iff (φ : Formula) (place : Nat) (id : Id) :
    φ.outputPart place = .ok id ↔
      ∃ output root, φ.output = some output ∧ φ.contents.get? output = some root ∧
        root.body[place]? = some id := by
  unfold outputPart
  cases houtput : φ.output with
  | none => simp
  | some output =>
      cases hroot : φ.contents.get? output with
      | none => simp [hroot]
      | some root =>
          cases hpart : root.body[place]? with
          | none => simp [hroot, hpart]
          | some part => simp [hroot, hpart]

theorem headed_of_divided (hφ : φ.WellFormed) (hfull : φ.Complete) (acyclic : φ.Acyclic)
    (h : φ.Divided) : ∃ lines matrix root, Action.Headed φ lines matrix root := by
  obtain ⟨output, root, quantifiers, matrix, rest, houtput, hroot, hbody, hquantifiers, hmatrix,
    lists⟩ := h
  obtain ⟨quantified, hquantified⟩ := exists_of_mem_keys hquantifiers
  obtain ⟨m, hm⟩ := exists_of_mem_keys hmatrix
  obtain ⟨lines, hlines⟩ := exists_quantifierLines hφ hfull acyclic hquantified lists
    (φ.rank_lt_nestingBound quantifiers)
  refine ⟨lines, matrix, m, ⟨quantifiers, quantified, ?_, ?_, hlines⟩, ?_, hm⟩
  · exact (φ.outputPart_iff 0 _).mpr ⟨output, root, houtput, hroot, by rw [hbody]; rfl⟩
  · rw [contentsOf, hquantified]
  · exact (φ.outputPart_iff 1 _).mpr ⟨output, root, houtput, hroot, by rw [hbody]; rfl⟩

theorem divided_of_headed {lines : String} {matrix : Id} {root : Block}
    (h : Action.Headed φ lines matrix root) : φ.Divided := by
  obtain ⟨⟨quantifiers, quantified, hfirst, hquantified, hlines⟩, hsecond, hm⟩ := h
  have hheld := Action.get?_of_contentsOf hquantified
  obtain ⟨output, b, houtput, hb, hzero⟩ := (φ.outputPart_iff 0 _).mp hfirst
  obtain ⟨output', b', houtput', hb', hone⟩ := (φ.outputPart_iff 1 _).mp hsecond
  cases houtput.symm.trans houtput'
  cases hb.symm.trans hb'
  have hbody : ∃ rest, b.body = quantifiers :: matrix :: rest := by
    cases hcase : b.body with
    | nil => simp [hcase] at hzero
    | cons first tail =>
        cases tail with
        | nil => simp [hcase] at hone
        | cons second rest =>
            simp only [hcase, List.getElem?_cons_zero, List.getElem?_cons_succ,
              Option.some.injEq] at hzero hone
            exact ⟨rest, by rw [hzero, hone]⟩
  obtain ⟨rest, hbody⟩ := hbody
  exact ⟨output, b, quantifiers, matrix, rest, houtput, hb, hbody, Table.mem_keys_of_get? hheld,
    Table.mem_keys_of_get? hm, listsBlocks_of_quantifierLines hheld hlines⟩

/-! ## Quantified gates -/

/-- The body of every quantified gate below the output block is a block, and not negated. -/
def Nestable (φ : Formula) : Prop :=
  ∃ (output : Id) (root : Block), φ.output = some output ∧ φ.contents.get? output = some root ∧
    ∀ b, Reaches φ.nestedOperands root b → ∀ q first second,
      φ.quantifiedPair b.body = some (q, first, second) → second ∈ φ.contents.keys

theorem mem_body_of_quantifiedPair {body : List Id} {q : Quantifier} {first second : Id}
    (h : φ.quantifiedPair body = some (q, first, second)) : body = [first, second] := by
  unfold quantifiedPair at h
  split at h
  · split at h
    · cases h
      rfl
    · cases h
  · cases h

theorem exists_nestedLine (hφ : φ.WellFormed) (hfull : φ.Complete) (acyclic : φ.Acyclic) {b : Block}
    (hb : φ.contents.get? b.id = some b)
    (h : ∀ q first second, φ.quantifiedPair b.body = some (q, first, second) →
      second ∈ φ.contents.keys) : ∃ written, φ.nestedLine b = .ok written := by
  unfold nestedLine
  cases hpair : φ.quantifiedPair b.body with
  | none => exact ⟨_, rfl⟩
  | some pair =>
      obtain ⟨q, first, second⟩ := pair
      obtain ⟨matrix, hmatrix⟩ := exists_of_mem_keys (h q first second hpair)
      have hbody := mem_body_of_quantifiedPair hpair
      obtain ⟨vars, hvars⟩ : ∃ vars, φ.literalText [first] = .ok vars := by
        apply exists_literalText hφ hfull acyclic
        intro e he
        rw [List.mem_singleton.mp he]
        exact hφ.mem_ids_of_brick hb (hbody ▸ List.mem_cons_self)
      have hname := (hφ.filed b.id b (Table.mem_entries_of_get? hb)).2
      have hcontents : φ.contentsOf second = .ok matrix := by rw [contentsOf, hmatrix]
      dsimp only
      rw [hvars, hname, hcontents]
      exact ⟨_, rfl⟩

theorem length_nestedOperands_le (φ : Formula) (b : Block) :
    (φ.nestedOperands b).length ≤ b.body.length := by
  unfold nestedOperands
  split
  · rename_i q first second hpair
    rw [mem_body_of_quantifiedPair hpair]
    cases φ.contents.get? second <;> simp
  · exact φ.length_operandsOf_le b

/-- A visit that finds a line for each block goes on to the end. -/
theorem exists_visitNested (hφ : φ.WellFormed) {root : Block}
    (hlines : ∀ b, Reaches φ.nestedOperands root b → φ.contents.get? b.id = some b →
      ∃ written, φ.nestedLine b = .ok written)
    {fuel : Nat} {met queue : List Block} (lines : List String)
    (hmet : ∀ b ∈ met, φ.contents.get? b.id = some b)
    (hqueue : ∀ b ∈ queue, φ.contents.get? b.id = some b ∧ Reaches φ.nestedOperands root b)
    (enough : queue.length + bricksLeft met φ.contents.values < fuel) :
    ∃ result, φ.visitNested fuel queue (met.reverse.map Block.name) lines = .ok result := by
  induction fuel generalizing met queue lines with
  | zero => omega
  | succ fuel ih =>
      cases queue with
      | nil => exact ⟨lines, rfl⟩
      | cons b queue =>
          rw [List.forall_mem_cons] at hqueue
          obtain ⟨⟨held, hreaches⟩, hqueue⟩ := hqueue
          rw [List.length_cons] at enough
          rw [visitNested, hφ.contains_names hmet held]
          by_cases hb : b ∈ met
          · rw [decide_eq_true hb, if_pos rfl]
            exact ih lines hmet hqueue (by omega)
          · rw [decide_eq_false hb, if_neg Bool.false_ne_true]
            obtain ⟨written, hwritten⟩ := hlines b hreaches held
            rw [hwritten, hφ.nestedLine_eq held hwritten]
            have hnames : b.name :: met.reverse.map Block.name =
                (met ++ [b]).reverse.map Block.name := by simp
            have hvisit := bricksLeft_visit hb φ.contents.values
            rw [if_pos (Table.mem_values_of_get? held)] at hvisit
            have hlength := φ.length_nestedOperands_le b
            have hnext : ∀ c ∈ queue ++ φ.nestedOperands b,
                φ.contents.get? c.id = some c ∧ Reaches φ.nestedOperands root c := by
              intro c hc
              rcases List.mem_append.mp hc with hold | hnew
              · exact hqueue c hold
              · exact ⟨hφ.held_of_mem_nestedOperands hnew, hreaches.tail hnew⟩
            change ∃ result, φ.visitNested fuel (queue ++ φ.nestedOperands b)
              (b.name :: met.reverse.map Block.name) _ = .ok result
            rw [hnames]
            apply ih _ (List.forall_mem_append.mpr ⟨hmet, by simpa using held⟩) hnext
            rw [List.length_append]
            omega

/-- The circuit with quantified gates is written exactly if their bodies are blocks. -/
theorem nestedCircuit_iff (hφ : φ.WellFormed) (hfull : φ.Complete) (acyclic : φ.Acyclic) :
    (∃ text, φ.nestedCircuit = .ok text) ↔ φ.Nestable := by
  constructor
  · rintro ⟨text, h⟩
    unfold nestedCircuit at h
    split at h
    · cases h
    · rename_i output houtput
      obtain ⟨root, hroot, h⟩ := exists_ok_of_bind h
      obtain ⟨lines, hlines, -⟩ := exists_ok_of_bind h
      have hget := Action.get?_of_contentsOf hroot
      have held : φ.contents.get? root.id = some root := (hφ.held hget).1 ▸ hget
      have hstart : φ.visitNested (φ.queueBound [root]) [root]
          (([] : List Block).reverse.map Block.name) [] = .ok lines := hlines
      obtain ⟨record, hrecord, hwritten, -⟩ :=
        hφ.visitNested_record (by simp) (by simpa using held) hstart
      refine ⟨output, root, houtput, hget, fun b hb q first second hpair => ?_⟩
      obtain ⟨hheld, written, hline⟩ := hwritten b (hrecord.mem_iff.mpr hb)
      obtain ⟨ns, matrix, -, hmatrix, -⟩ := hφ.nestedLine_quantified hheld hpair hline
      exact Table.mem_keys_of_get? hmatrix
  · rintro ⟨output, root, houtput, hroot, hpairs⟩
    have held : φ.contents.get? root.id = some root := (hφ.held hroot).1 ▸ hroot
    obtain ⟨result, hresult⟩ := exists_visitNested hφ
      (fun b hb hheld => exists_nestedLine hφ hfull acyclic hheld (hpairs b hb))
      [] (by simp) (by simpa using ⟨held, Relation.ReflTransGen.refl⟩) (φ.lt_queueBound root)
    have hcontents : φ.contentsOf output = .ok root := by rw [contentsOf, hroot]
    unfold nestedCircuit
    rw [houtput]
    dsimp only
    rw [hcontents]
    change ∃ text, (φ.visitNested (φ.queueBound [root]) [root]
      (([] : List Block).reverse.map Block.name) [] >>= _) = .ok text
    rw [hresult]
    exact ⟨_, rfl⟩

end Formula

end QuantFamily
