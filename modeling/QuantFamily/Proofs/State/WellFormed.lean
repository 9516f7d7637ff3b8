import QuantFamily.Proofs.State.Change

/-!
# Well-formed formulas

Identifiers are given out in three places: to variables, to blocks, and by the writers to gates
of their own. A formula is well formed when they cannot be confused, when contents are filed
under the block they belong to, and when a body refers only to what was there before its block,
or to the block itself. The last point is what keeps references from running in circles.

Every operation leaves a well-formed formula well formed, also when a fault cuts it short, so
every formula that operations lead to is well formed.
-/

namespace QuantFamily

namespace Formula

variable {φ ψ : Formula}

/-- All identifiers of variables and blocks. -/
def ids (φ : Formula) : List Id :=
  φ.vars.values ++ φ.blocks.values

/-- What operations keep true of a formula. -/
structure WellFormed (φ : Formula) : Prop where
  nonneg : (0 : Int) ≤ φ.counter
  distinct : φ.ids.Nodup
  inRange : ∀ id ∈ φ.ids, (1 : Int) ≤ id ∧ id ≤ φ.counter
  filed : ∀ id b, (id, b) ∈ φ.contents.entries → b.id = id ∧ φ.blocks.get? b.name = some id
  bricks : ∀ id b, (id, b) ∈ φ.contents.entries → ∀ e ∈ b.body,
    (1 : Int) ≤ e.natAbs ∧ (e.natAbs : Int) ≤ id ∧ (e.natAbs : Int) ∈ φ.ids
  grouped : ∀ name members, (name, members) ∈ φ.groupings.entries →
    ∀ id ∈ members, id ∈ φ.contents.keys
  chosen : ∀ id, φ.output = some id → id ∈ φ.ids

theorem wellFormed_empty : WellFormed {} where
  nonneg := Int.le_refl 0
  distinct := List.nodup_nil
  inRange := by simp [ids, Table.values]
  filed := by simp
  bricks := by simp
  grouped := by simp
  chosen := by simp

/-! ## Identifiers -/

theorem mem_entries_of_idOf? {name : String} {id : Id}
    (h : φ.idOf? name = some id) : (name, id) ∈ φ.vars.entries ++ φ.blocks.entries := by
  unfold idOf? at h
  cases hvar : φ.vars.get? name with
  | some found =>
      rw [hvar] at h
      cases h
      exact List.mem_append_left _ (Table.mem_entries_of_get? hvar)
  | none =>
      rw [hvar] at h
      exact List.mem_append_right _ (Table.mem_entries_of_get? h)

theorem mem_ids_of_idOf? {name : String} {id : Id} (h : φ.idOf? name = some id) :
    id ∈ φ.ids := by
  have hentry : id ∈ (φ.vars.entries ++ φ.blocks.entries).map Prod.snd :=
    List.mem_map_of_mem (mem_entries_of_idOf? h)
  rwa [List.map_append] at hentry

theorem ids_withVariable {name : String} (h : φ.vars.contains name = false) :
    (φ.withVariable name).ids.Perm ((φ.counter + 1) :: φ.ids) := by
  have hvalues : (φ.withVariable name).vars.values = φ.vars.values ++ [φ.counter + 1] :=
    Table.values_put_of_not_mem _ (Table.contains_eq_false_iff.mp h)
  unfold ids
  rw [hvalues, List.append_assoc]
  exact List.perm_middle

theorem values_withBlock {name : String} (h : φ.isDefined name = false) :
    (φ.withBlock name).blocks.values = φ.blocks.values ++ [φ.counter + 1] := by
  have hfresh : φ.blocks.contains name = false := (Bool.or_eq_false_iff.mp h).2
  exact Table.values_put_of_not_mem _ (Table.contains_eq_false_iff.mp hfresh)

theorem ids_withBlock {name : String} (h : φ.isDefined name = false) :
    (φ.withBlock name).ids.Perm ((φ.counter + 1) :: φ.ids) := by
  unfold ids
  rw [values_withBlock h, ← List.append_assoc]
  exact List.perm_append_singleton _ _

/-- A block that has contents has an identifier. -/
theorem WellFormed.mem_ids_of_mem_keys (h : φ.WellFormed) {id : Id} (hid : id ∈ φ.contents.keys) :
    id ∈ φ.ids := by
  obtain ⟨⟨key, b⟩, hentry, rfl⟩ := List.mem_map.mp hid
  exact List.mem_append_right _ (Table.mem_values_of_get? (h.filed key b hentry).2)

/-- A block without contents is none of those that have some. -/
theorem WellFormed.next_not_mem_keys (h : φ.WellFormed) : φ.counter + 1 ∉ φ.contents.keys := by
  intro hmem
  exact Int.not_le.mpr (Int.lt_succ φ.counter) (h.inRange _ (h.mem_ids_of_mem_keys hmem)).2

/-! ## Steps -/

/-- Giving the next identifier to a variable or a block. -/
theorem WellFormed.register (h : φ.WellFormed)
    (perm : ψ.ids.Perm ((φ.counter + 1) :: φ.ids)) (counter : ψ.counter = φ.counter + 1)
    (blocks : ∀ name id, φ.blocks.get? name = some id → ψ.blocks.get? name = some id)
    (contents : ψ.contents = φ.contents) (groupings : ψ.groupings = φ.groupings)
    (output : ψ.output = φ.output) : ψ.WellFormed := by
  have hmono : ∀ id ∈ φ.ids, id ∈ ψ.ids := fun id hid =>
    perm.mem_iff.mpr (List.mem_cons_of_mem _ hid)
  refine ⟨?_, ?_, ?_, ?_, ?_, ?_, ?_⟩
  · rw [counter]
    exact Int.le_add_one h.nonneg
  · refine perm.nodup_iff.mpr (List.nodup_cons.mpr ⟨fun hnew => ?_, h.distinct⟩)
    exact Int.not_le.mpr (Int.lt_succ φ.counter) (h.inRange _ hnew).2
  · intro id hid
    rw [counter]
    rcases List.mem_cons.mp (perm.mem_iff.mp hid) with rfl | hold
    · exact ⟨Int.add_le_add_right h.nonneg 1, Int.le_refl _⟩
    · exact ⟨(h.inRange id hold).1, Int.le_add_one (h.inRange id hold).2⟩
  · rw [contents]
    exact fun id b hentry =>
      ⟨(h.filed id b hentry).1, blocks b.name id (h.filed id b hentry).2⟩
  · rw [contents]
    exact fun id b hentry e he =>
      ⟨(h.bricks id b hentry e he).1, (h.bricks id b hentry e he).2.1,
        hmono _ (h.bricks id b hentry e he).2.2⟩
  · rw [contents, groupings]
    exact h.grouped
  · rw [output]
    exact fun id hid => hmono id (h.chosen id hid)

theorem WellFormed.withVariable (h : φ.WellFormed) {name : String}
    (fresh : φ.vars.contains name = false) : (φ.withVariable name).WellFormed :=
  h.register (ids_withVariable fresh) rfl (fun _ _ hid => hid) rfl rfl rfl

theorem get?_withBlock {name other : String} {id : Id} (fresh : φ.isDefined name = false)
    (hid : φ.blocks.get? other = some id) : (φ.withBlock name).blocks.get? other = some id := by
  have hname : φ.blocks.contains name = false := (Bool.or_eq_false_iff.mp fresh).2
  exact Table.get?_put_of_get? _ (Table.contains_eq_false_iff.mp hname) hid

theorem WellFormed.withBlock (h : φ.WellFormed) {name : String}
    (fresh : φ.isDefined name = false) : (φ.withBlock name).WellFormed :=
  h.register (ids_withBlock fresh) rfl (fun _ _ hid => get?_withBlock fresh hid) rfl rfl rfl

/-- Filing contents under an identifier, for the first time or again. -/
theorem WellFormed.file (h : φ.WellFormed) {id : Id} {b : Block}
    (filed : b.id = id ∧ φ.blocks.get? b.name = some id)
    (bricks : ∀ e ∈ b.body,
      (1 : Int) ≤ e.natAbs ∧ (e.natAbs : Int) ≤ id ∧ (e.natAbs : Int) ∈ φ.ids) :
    WellFormed { φ with contents := φ.contents.put id b } where
  nonneg := h.nonneg
  distinct := h.distinct
  inRange := h.inRange
  filed := by
    intro key block hentry
    rcases Table.mem_or_eq_of_mem_put hentry with hnew | hold
    · cases hnew
      exact filed
    · exact h.filed key block hold
  bricks := by
    intro key block hentry
    rcases Table.mem_or_eq_of_mem_put hentry with hnew | hold
    · cases hnew
      exact bricks
    · exact h.bricks key block hold
  grouped := fun name members hentry key hkey =>
    Table.mem_keys_put_of_mem (h.grouped name members hentry key hkey)
  chosen := h.chosen

/-- A signed identifier has the size of the identifier. -/
theorem natAbs_signedId {negated : Bool} {id e : Id} (hid : (1 : Int) ≤ id)
    (h : Action.signedId negated id = .ok e) : (e.natAbs : Int) = id := by
  unfold Action.signedId at h
  split at h
  · split at h
    · cases h
    · cases h
      omega
  · cases h
    omega

/-- A brick is a variable or block, or a member of a grouping. -/
theorem WellFormed.brick (h : φ.WellFormed) {conditions : List Condition} {left : Valuation}
    {bricks : List Brick} {e : Id} (he : φ.InBody conditions left bricks e) :
    (1 : Int) ≤ e.natAbs ∧ (e.natAbs : Int) ≤ φ.counter ∧ (e.natAbs : Int) ∈ φ.ids := by
  have hsize : (e.natAbs : Int) ∈ φ.ids := by
    rcases he with ⟨grouping, members, -, hmembers, he⟩ | ⟨found, -, brick, -, w, -, hstands⟩
    · have hmem := h.mem_ids_of_mem_keys
        (h.grouped grouping members (Table.mem_entries_of_get? hmembers) e he)
      have hpos := (h.inRange e hmem).1
      rwa [Int.natAbs_of_nonneg (by omega)]
    · cases hstands with
      | ref substituted named found signs =>
          have hmem := mem_ids_of_idOf? found
          rwa [natAbs_signedId (h.inRange _ hmem).1 signs]
  exact ⟨(h.inRange _ hsize).1, (h.inRange _ hsize).2, hsize⟩

theorem WellFormed.step (h : φ.WellFormed) (hstep : Step φ ψ) : ψ.WellFormed := by
  cases hstep with
  | setting values name format parameters =>
      exact ⟨h.nonneg, h.distinct, h.inRange, h.filed, h.bricks, h.grouped, h.chosen⟩
  | «variable» name fresh => exact h.withVariable fresh
  | block b defines =>
      have hblock := h.withBlock defines.fresh
      have hname : (φ.withBlock b.name).blocks.get? b.name = some b.id := by
        rw [defines.id_eq]
        exact Table.get?_put_self _ _ _
      refine hblock.file ⟨rfl, hname⟩ fun e he => ?_
      rw [defines.id_eq]
      exact hblock.brick ((defines.mem_body e).mp he)
  | grouping name members defined =>
      refine ⟨h.nonneg, h.distinct, h.inRange, h.filed, h.bricks, ?_, h.chosen⟩
      intro other found hentry
      rcases Table.mem_or_eq_of_mem_put hentry with hnew | hold
      · cases hnew
        exact defined
      · exact h.grouped other found hold
  | mark id b a held unmarked =>
      have hentry := Table.mem_entries_of_get? held
      exact h.file (h.filed id b hentry) (h.bricks id b hentry)
  | output name id named =>
      refine ⟨h.nonneg, h.distinct, h.inRange, h.filed, h.bricks, h.grouped, fun found hfound => ?_⟩
      cases hfound
      exact mem_ids_of_idOf? named

theorem WellFormed.steps (h : φ.WellFormed) (hsteps : Steps φ ψ) : ψ.WellFormed :=
  hsteps.invariant (fun _ _ hstep hφ => hφ.step hstep) h

theorem WellFormed.bare (h : φ.WellFormed) (hbare : Bare φ ψ) : ψ.WellFormed := by
  rcases hbare with rfl | ⟨name, fresh, rfl⟩
  · exact h
  · exact h.withBlock fresh

theorem WellFormed.aside (h : φ.WellFormed) (haside : Aside φ ψ) : ψ.WellFormed := by
  have hids : ψ.ids = φ.ids := by rw [ids, ids, haside.vars, haside.blocks]
  have hcounter := haside.counter
  refine ⟨Int.le_trans h.nonneg hcounter, hids ▸ h.distinct, fun id hid => ?_, ?_, ?_, ?_, ?_⟩
  · have hold := h.inRange id (hids ▸ hid)
    exact ⟨hold.1, Int.le_trans hold.2 hcounter⟩
  · rw [haside.contents, haside.blocks]
    exact h.filed
  · rw [haside.contents, hids]
    exact h.bricks
  · rw [haside.contents, haside.groupings]
    exact h.grouped
  · rw [haside.output, hids]
    exact h.chosen

/-! ## Blocks with contents -/

/-- A block with contents has its identifier from the register of blocks. -/
theorem WellFormed.held (h : φ.WellFormed) {id : Id} {b : Block}
    (hb : φ.contents.get? id = some b) : b.id = id ∧ id ∈ φ.blocks.values :=
  have hfiled := h.filed id b (Table.mem_entries_of_get? hb)
  ⟨hfiled.1, Table.mem_values_of_get? hfiled.2⟩

/-- No block has the identifier of a variable. -/
theorem WellFormed.not_variable (h : φ.WellFormed) {id : Id} {b : Block}
    (hb : φ.contents.get? id = some b) : id ∉ φ.vars.values := fun hvar =>
  (List.nodup_append.mp h.distinct).2.2 id hvar id (h.held hb).2 rfl

theorem WellFormed.held_range (h : φ.WellFormed) {id : Id} {b : Block}
    (hb : φ.contents.get? id = some b) : (1 : Int) ≤ id ∧ id ≤ φ.counter :=
  h.inRange id (List.mem_append_right _ (h.held hb).2)

/-- Every block that has a name has contents. -/
def Complete (φ : Formula) : Prop :=
  ∀ id ∈ φ.blocks.values, id ∈ φ.contents.keys

theorem Complete.step (h : φ.Complete) (hstep : Step φ ψ) : ψ.Complete := by
  cases hstep with
  | setting values name format parameters => exact h
  | «variable» name fresh => exact h
  | block b defines =>
      intro id hid
      have hid : id ∈ φ.blocks.values ++ [φ.counter + 1] := values_withBlock defines.fresh ▸ hid
      rcases List.mem_append.mp hid with hold | hnew
      · exact Table.mem_keys_put_of_mem (h id hold)
      · rw [List.mem_singleton, ← defines.id_eq] at hnew
        exact hnew ▸ Table.mem_keys_put_self
  | grouping name members defined => exact h
  | mark id b a held unmarked => exact fun other hother => Table.mem_keys_put_of_mem (h other hother)
  | output name id named => exact h

theorem Complete.aside (h : φ.Complete) (haside : Aside φ ψ) : ψ.Complete := by
  unfold Complete
  rw [haside.blocks, haside.contents]
  exact h

theorem complete_empty : Complete {} := by
  simp [Complete, Table.values]

/-- An identifier without contents is that of a variable. -/
theorem Complete.variable (h : φ.Complete) {id : Id} (hid : id ∈ φ.ids)
    (hnone : φ.contents.get? id = none) : id ∈ φ.vars.values := by
  rcases List.mem_append.mp hid with hvar | hblock
  · exact hvar
  · exact absurd (h id hblock) (Table.get?_eq_none_iff.mp hnone)

/-! ## References -/

/-- One block lists a variable or block in its body, negated or not. -/
def Refers (φ : Formula) (id target : Id) : Prop :=
  ∃ b, φ.contents.get? id = some b ∧ ∃ e ∈ b.body, (e.natAbs : Int) = target

/-- A block is among those that can be reached from an identifier by following references. -/
def Reachable (φ : Formula) (root : Id) (b : Block) : Prop :=
  φ.contents.get? b.id = some b ∧ Relation.ReflTransGen φ.Refers root b.id

theorem WellFormed.le_of_refers (h : φ.WellFormed) {id target : Id}
    (hrefers : φ.Refers id target) : target ≤ id := by
  obtain ⟨b, hb, e, he, rfl⟩ := hrefers
  exact (h.bricks id b (Table.mem_entries_of_get? hb) e he).2.1

theorem WellFormed.le_of_reaches (h : φ.WellFormed) {id target : Id}
    (hreaches : Relation.ReflTransGen φ.Refers id target) : target ≤ id := by
  induction hreaches with
  | refl => exact Int.le_refl id
  | tail _ last ih => exact Int.le_trans (h.le_of_refers last) ih

/-- References do not lead out of a set of identifiers that no block of it leads out of. -/
theorem mem_of_reaches (set : List Id) (closed : ∀ id ∈ set, ∀ b, φ.contents.get? id = some b →
    ∀ e ∈ b.body, (e.natAbs : Int) ∈ set) {root id : Id} (hroot : root ∈ set)
    (hreaches : Relation.ReflTransGen φ.Refers root id) : id ∈ set := by
  induction hreaches with
  | refl => exact hroot
  | tail _ last ih =>
      obtain ⟨b, hb, e, he, rfl⟩ := last
      exact closed _ ih b hb e he

/-- References that run in a circle never leave one block. -/
theorem WellFormed.cycle (h : φ.WellFormed) {a b : Id}
    (forth : Relation.TransGen φ.Refers a b) (back : Relation.TransGen φ.Refers b a) :
    a = b ∧ φ.Refers a a := by
  have hab : a = b :=
    Int.le_antisymm (h.le_of_reaches back.to_reflTransGen) (h.le_of_reaches forth.to_reflTransGen)
  subst hab
  obtain ⟨c, hfirst, hrest⟩ := Relation.TransGen.head'_iff.mp forth
  have hca : c = a := Int.le_antisymm (h.le_of_refers hfirst) (h.le_of_reaches hrest)
  exact ⟨rfl, hca ▸ hfirst⟩

/-- No block contains itself, neither directly nor through others. -/
def Acyclic (φ : Formula) : Prop :=
  ∀ id, ¬ Relation.TransGen φ.Refers id id

theorem WellFormed.acyclic (h : φ.WellFormed)
    (bodies : ∀ b ∈ φ.contents.values, ∀ e ∈ b.body, (e.natAbs : Int) ≠ b.id) : φ.Acyclic := by
  intro id hcycle
  obtain ⟨b, hb, e, he, hid⟩ := (h.cycle hcycle hcycle).2
  exact bodies b (Table.mem_values_of_get? hb) e he (hid.trans (h.held hb).1.symm)

end Formula

/-! ## Statements that all take effect -/

namespace Session

open Formula

variable {edition : Edition} {s : Session}

/-- Statements have led here from an empty formula, none of them with a fault. -/
def Built (edition : Edition) (s : Session) : Prop :=
  ∃ (verbose : Bool) (statements : List Language.Statement) (before : Session),
    statements.forM (Language.Statement.perform edition verbose) { before with formula := {} } =
      .ok () s

theorem Built.steps (h : s.Built edition) : Steps {} s.formula := by
  obtain ⟨verbose, statements, before, run⟩ := h
  exact Action.steps_of_statements run

theorem Built.wellFormed (h : s.Built edition) : s.formula.WellFormed :=
  wellFormed_empty.steps h.steps

theorem Built.complete (h : s.Built edition) : s.formula.Complete :=
  h.steps.invariant (fun _ _ hstep hφ => hφ.step hstep) complete_empty

/-- Statements write nothing on the board. -/
theorem Built.blank (h : s.Built edition) : s.formula.board = "" ∧ s.formula.boardGates = [] := by
  refine h.steps.invariant (I := fun φ => φ.board = "" ∧ φ.boardGates = []) ?_ ⟨rfl, rfl⟩
  intro φ ψ hstep hφ
  cases hstep <;> exact hφ

end Session

/-! ## Operations -/

/-- What can be done with a formula: let a statement take effect, or ask for an output, kept
or written anew. -/
inductive Operation where
  | define (verbose : Bool) (statement : Language.Statement)
  | circuitText
  | generateCircuit
  | clauseText
  | generateClauses
  | nestedText
  | generateNested
deriving DecidableEq

namespace Operation

open Formula

/-- Carry out an operation. -/
def act (edition : Edition) : Operation → Action Unit
  | define verbose statement => statement.perform edition verbose
  | circuitText => do let _ <- Action.circuitText edition
  | generateCircuit => do let _ <- Action.generateCircuit edition
  | clauseText => do let _ <- Action.clauseText edition
  | generateClauses => do let _ <- Action.generateClauses edition
  | nestedText => do let _ <- Action.nestedText
  | generateNested => do let _ <- Action.generateNested

/-- Carry out operations one after the other, whether or not they end in a fault. -/
def run (edition : Edition) (operations : List Operation) (s : Session) : Session :=
  operations.foldl (fun s operation => ((operation.act edition).perform s).2) s

/-- An operation takes the formula along steps, or changes nothing that a definition records. -/
theorem act_moves (edition : Edition) (operation : Operation) :
    Action.Moves (fun φ ψ => Steps φ ψ ∨ Aside φ ψ) Bare (operation.act edition) := by
  have writing : ∀ {α : Type} {action : Action α}, Action.Moves Aside Eq action →
      Action.Moves (fun φ ψ => Steps φ ψ ∨ Aside φ ψ) Bare (do let _ <- action) := by
    intro α action hmoves φ
    have hdiscards : Action.Moves Aside Eq (do let _ <- action) :=
      Action.Moves.bind hmoves fun _ => Action.Moves.pure
    refine Action.Leads.mono (hdiscards φ) (fun _ hs => hs) (fun _ _ hs => Or.inr hs) ?_
    rintro s ⟨ψ, hψ, hs⟩
    exact ⟨ψ, Or.inr hψ, Or.inl hs.symm⟩
  cases operation with
  | define verbose statement =>
      exact (Action.perform_moves edition verbose statement).mono fun _ _ hsteps => Or.inl hsteps
  | circuitText => exact writing (Action.circuitText_moves edition)
  | generateCircuit => exact writing (Action.generateCircuit_moves edition)
  | clauseText => exact writing (Action.clauseText_moves edition)
  | generateClauses => exact writing (Action.generateClauses_moves edition)
  | nestedText => exact writing Action.nestedText_moves
  | generateNested => exact writing Action.generateNested_moves

theorem wellFormed_act (edition : Edition) (operation : Operation) :
    Action.Leads (fun s => s.formula.WellFormed) (operation.act edition)
      (fun _ s => s.formula.WellFormed) (fun s => s.formula.WellFormed) :=
  (act_moves edition operation).keeps (fun h hmoved => hmoved.elim h.steps h.aside) WellFormed.bare

theorem wellFormed_run (edition : Edition) (operations : List Operation) {s : Session}
    (h : s.formula.WellFormed) : (run edition operations s).formula.WellFormed := by
  induction operations generalizing s with
  | nil => exact h
  | cons operation rest ih => exact ih ((wellFormed_act edition operation).perform h)

/-- Operations that all end well lead where carrying them out leads. -/
theorem run_of_forM {edition : Edition} {operations : List Operation} {s t : Session}
    (h : operations.forM (act edition) s = .ok () t) : run edition operations s = t := by
  induction operations generalizing s with
  | nil =>
      cases h
      rfl
  | cons operation rest ih =>
      obtain ⟨_, u, hfirst, hrest⟩ := exists_of_run_bind h
      have hnext : ((operation.act edition).perform s).2 = u := by
        simp only [Action.perform, EStateM.run, hfirst]
      rw [← ih hrest, ← hnext]
      rfl

/-- If no operation ends in a fault, then every block has contents. -/
theorem complete_of_forM {edition : Edition} {operations : List Operation} {s t : Session}
    (h : operations.forM (act edition) s = .ok () t) (hs : s.formula.Complete) :
    t.formula.Complete := by
  induction operations generalizing s with
  | nil =>
      cases h
      exact hs
  | cons operation rest ih =>
      obtain ⟨_, u, hfirst, hrest⟩ := exists_of_run_bind h
      refine ih hrest ?_
      rcases (act_moves edition operation s.formula).of_ok rfl hfirst with hsteps | haside
      · exact hsteps.invariant (fun _ _ hstep hφ => hφ.step hstep) hs
      · exact hs.aside haside

theorem complete_run {edition : Edition} {operations : List Operation} {s : Session}
    (ended : ((operations.forM (act edition)).perform s).1 = .ok ()) (hs : s.formula.Complete) :
    (run edition operations s).formula.Complete := by
  have hrun := Action.ok_of_perform (congrArg Except.toOption ended)
  rw [run_of_forM hrun]
  exact complete_of_forM hrun hs

-- A block may list itself, and a definition that fails leaves its name without contents.
example :
    let φ := (run .full [.define false (.blocks [⟨"B", [], [.ref true "B" []]⟩] [] none),
      .define false (.blocks [⟨"C", [], [.ref false "x" []]⟩] [] none), .generateCircuit] {}).formula
    φ.blocks.entries = [("B( )", 1), ("C( )", 2)] ∧
      φ.contents.values = [⟨"B( )", 1, [-1], none, none⟩] := by
  decide +kernel

end Operation

end QuantFamily
