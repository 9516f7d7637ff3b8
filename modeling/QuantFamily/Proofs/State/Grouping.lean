import QuantFamily.Proofs.State.WellFormed

/-!
# The blocks of a grouping

Which blocks belong to a grouping is recorded twice. Every block keeps the grouping it was defined
in, and every grouping has a list of blocks, which bricks and attributes go by. A statement that
defines blocks in a grouping writes this list anew with the blocks it has defined itself. So the
list has all blocks of the grouping exactly if no block had been defined in it before the last such
statement; otherwise the earlier blocks keep the grouping, and no brick and no attribute finds them.
-/

namespace QuantFamily

namespace Formula

variable {φ ψ : Formula}

/-- The blocks that keep a grouping, in the order in which they were defined. -/
def groupedIn (φ : Formula) (grouping : String) : List Id :=
  (φ.contents.values.filter fun b => b.grouping = some grouping).map Block.id

/-! ## Steps -/

/-- A new block comes last among the blocks of its grouping. -/
theorem WellFormed.groupedIn_block (h : φ.WellFormed) {definition : Definition}
    {conditions : List Condition} {grouping : Option String} {v : Valuation} {b : Block}
    (defines : Action.Defines φ definition conditions grouping v b) (name : String) :
    ((φ.withBlock b.name).withContents b).groupedIn name =
      φ.groupedIn name ++ if grouping = some name then [b.id] else [] := by
  have hfresh : b.id ∉ (φ.withBlock b.name).contents.keys := by
    rw [defines.id_eq]
    exact h.next_not_mem_keys
  have hvalues : ((φ.withBlock b.name).withContents b).contents.values =
      φ.contents.values ++ [b] := Table.values_put_of_not_mem b hfresh
  rw [groupedIn, hvalues, List.filter_append, List.map_append, ← defines.grouping_eq]
  by_cases hname : b.grouping = some name <;> simp [groupedIn, hname]

/-- An attribute does not move a block to another grouping. -/
theorem groupedIn_mark {id : Id} {b : Block} (held : φ.contents.get? id = some b)
    (a : Option Attribute) (name : String) :
    groupedIn { φ with contents := φ.contents.put id { b with mark := a } } name =
      φ.groupedIn name := by
  obtain ⟨before, after, hentries, hput⟩ := Table.exists_entries_put_of_get? held
  simp only [groupedIn, Table.values, hentries, hput, List.map_append, List.map_cons,
    List.filter_append, List.filter_cons]
  split <;> rfl

/-- A step that defines no block leaves both records of every grouping alone. -/
theorem StepIn.groups {declares : Bool} (h : StepIn declares false φ ψ) :
    ψ.groupings = φ.groupings ∧ ∀ name, ψ.groupedIn name = φ.groupedIn name := by
  refine ⟨h.groupings rfl, fun name => ?_⟩
  have hblocks := h.blocks rfl
  cases h.step with
  | setting | «variable» | grouping | output => rfl
  | block b defines =>
      -- The register of blocks would have grown.
      have hgrown := congrArg List.length (values_withBlock defines.fresh)
      rw [show (φ.withBlock b.name).blocks = φ.blocks from hblocks] at hgrown
      simp at hgrown
  | mark id b a held unmarked => exact groupedIn_mark held (some a) name

theorem StepsIn.groups {declares : Bool} (h : StepsIn declares false φ ψ) :
    ψ.groupings = φ.groupings ∧ ∀ name, ψ.groupedIn name = φ.groupedIn name := by
  induction h with
  | refl => exact ⟨rfl, fun _ => rfl⟩
  | tail _ last ih =>
      exact ⟨last.groups.1.trans ih.1, fun name => (last.groups.2 name).trans (ih.2 name)⟩

/-- Contents are filed in the order of the identifiers, which is that of the definitions. -/
def Ascending (φ : Formula) : Prop :=
  φ.contents.keys.Pairwise (· < ·)

theorem Ascending.step (h : φ.Ascending) (hφ : φ.WellFormed) (hstep : Step φ ψ) :
    ψ.Ascending := by
  cases hstep with
  | setting | «variable» | grouping | output => exact h
  | block b defines =>
      have hkeys : ((φ.withBlock b.name).withContents b).contents.keys =
          φ.contents.keys ++ [φ.counter + 1] := by
        rw [← defines.id_eq]
        exact Table.keys_put_of_not_mem b (defines.id_eq ▸ hφ.next_not_mem_keys)
      unfold Ascending
      rw [hkeys, List.pairwise_append]
      refine ⟨h, List.pairwise_singleton _ _, fun id hid other hother => ?_⟩
      rw [List.mem_singleton.mp hother]
      exact Int.lt_add_one_of_le (hφ.inRange id (hφ.mem_ids_of_mem_keys hid)).2
  | mark id b a held unmarked =>
      unfold Ascending
      rwa [show (φ.contents.put id { b with mark := some a }).keys = φ.contents.keys from
        Table.keys_put_of_mem _ (Table.mem_keys_of_get? held)]

theorem Ascending.groupedIn (h : φ.Ascending) (hφ : φ.WellFormed) (name : String) :
    (φ.groupedIn name).Pairwise (· < ·) := by
  have hids : φ.contents.values.map Block.id = φ.contents.keys := by
    rw [Table.values, Table.keys, List.map_map]
    exact List.map_congr_left fun entry hentry => (hφ.filed entry.1 entry.2 hentry).1
  have hsub : (φ.groupedIn name).Sublist φ.contents.keys :=
    hids ▸ List.Sublist.map Block.id List.filter_sublist
  exact List.Pairwise.sublist hsub h

end Formula

namespace Language.Statement

/-- The grouping that a statement defines blocks in. -/
def grouping? : Statement → Option String
  | .blocks _ _ grouping => grouping
  | _ => none

end Language.Statement

open Formula

namespace Action

variable {φ : Formula}

/-! ## Definitions -/

/-- Blocks with the identifiers `ids` have been defined in a grouping, and the lists of blocks are
still those of `φ`. -/
structure Collected (φ : Formula) (grouping : Option String) (ids : List Id) (ψ : Formula) :
    Prop where
  wellFormed : ψ.WellFormed
  groupings : ψ.groupings = φ.groupings
  grouped : ∀ name, ψ.groupedIn name = φ.groupedIn name ++ if grouping = some name then ids else []

theorem addBlock_collects (ids : List Id) (definition : Definition) (conditions : List Condition)
    (grouping : Option String) (v : Valuation) :
    Leads (fun s => Collected φ grouping ids s.formula) (addBlock definition conditions grouping v)
      (fun found s => Collected φ grouping (ids ++ found.toList) s.formula) (fun _ => True) := by
  refine Leads.of_formula (K := Collected φ grouping ids) fun ψ hψ => ?_
  refine Leads.mono (addBlock_leads definition conditions grouping v) (fun _ hs => hs) ?_
    fun _ _ => trivial
  rintro found s (⟨rfl, hs⟩ | ⟨b, hdefines, rfl, hs⟩)
  · rw [hs, Option.toList_none, List.append_nil]
    exact hψ
  · rw [hs, Option.toList_some]
    refine ⟨hψ.wellFormed.step (.block b hdefines), hψ.groupings, fun name => ?_⟩
    rw [hψ.wellFormed.groupedIn_block hdefines, hψ.grouped, List.append_assoc]
    congr 1
    split <;> rfl

/-- Blocks with the identifiers `ids` have been defined in a grouping, and its list has been written
anew. -/
structure Regrouped (grouping : Option String) (ids : List Id) (φ ψ : Formula) : Prop where
  listed : ∀ name, name ≠ "" →
    ψ.groupings.get? name = if grouping = some name then some ids else φ.groupings.get? name
  grouped : ∀ name, ψ.groupedIn name = φ.groupedIn name ++ if grouping = some name then ids else []

theorem addBlocks_regroups (definitions : List Definition) (conditions : List Condition)
    (grouping : Option String) (hφ : φ.WellFormed) :
    Leads (fun s => s.formula = φ) (addBlocks definitions conditions grouping)
      (fun _ s => ∃ ids, Regrouped grouping ids φ s.formula) (fun _ => True) := by
  rw [addBlocks_eq]
  let J : List (List Id) → Session → Prop := fun done s =>
    Collected φ grouping done.flatten s.formula
  have hround : ∀ (done : List (List Id)) (definition : Definition), definition ∈ definitions →
      Leads (J done)
        (do
          let found <- lift ((<- formula).valuations conditions)
          found.filterMapM (addBlock definition conditions grouping))
        (fun ids => J (done ++ [ids])) (fun _ => True) := by
    intro done definition _
    refine Leads.bind_formula fun ψ => ?_
    refine Leads.bind (Leads.lift (Q := fun _ => J done) (fun _ _ s hs => hs.2) fun _ _ => trivial)
      fun found => ?_
    have hloop := Leads.filterMapM
      (J := fun ids s => Collected φ grouping (done.flatten ++ ids) s.formula) found
      (fun ids v _ => by
        simpa using addBlock_collects (done.flatten ++ ids) definition conditions grouping v) []
    simpa only [J, List.flatten_append, List.flatten_singleton, List.append_nil,
      List.nil_append] using hloop
  have hstart : ∀ s : Session, s.formula = φ → J [] s := by
    rintro s rfl
    exact ⟨hφ, rfl, fun name => by simp⟩
  refine Leads.bind (Leads.mono (Leads.mapM (J := J) definitions hround []) hstart
    (fun _ _ hs => hs) fun _ hs => hs) fun lists => ?_
  refine Leads.of_formula (K := Collected φ grouping lists.flatten) fun ψ hψ => ?_
  cases grouping with
  | none =>
      refine Leads.pure fun s hs => ⟨lists.flatten, fun name _ => ?_, hs ▸ hψ.grouped⟩
      rw [hs, hψ.groupings, if_neg nofun]
  | some given =>
      simp only [saveGrouping]
      split
      · rename_i hempty
        refine Leads.pure fun s hs => ⟨lists.flatten, fun name hname => ?_, hs ▸ hψ.grouped⟩
        have hgiven : given = "" := String.isEmpty_iff.mp hempty
        rw [hs, hψ.groupings, if_neg fun h => hname ((Option.some.inj h).symm.trans hgiven)]
      · refine Leads.update fun s hs => ⟨lists.flatten, fun name _ => ?_, ?_⟩
        · subst hs
          by_cases hname : given = name
          · rw [if_pos (congrArg some hname), ← hname]
            exact Table.get?_put_self _ _ _
          · rw [if_neg fun h => hname (Option.some.inj h), ← hψ.groupings]
            exact Table.get?_put_of_ne _ _ (Ne.symm hname)
        · subst hs
          exact hψ.grouped

/-- A statement changes the records of no grouping but its own. -/
theorem perform_regroups (edition : Edition) (verbose : Bool) (statement : Language.Statement)
    (hφ : φ.WellFormed) :
    Leads (fun s => s.formula = φ) (statement.perform edition verbose)
      (fun _ s => ∃ ids, Regrouped statement.grouping? ids φ s.formula) (fun _ => True) := by
  have hother : statement.defines = false → statement.grouping? = none →
      Leads (fun s => s.formula = φ) (statement.perform edition verbose)
        (fun _ s => ∃ ids, Regrouped statement.grouping? ids φ s.formula) (fun _ => True) := by
    intro hdefines hnone
    have hmoves := perform_moves_in edition verbose statement
    rw [hdefines] at hmoves
    refine Leads.mono (hmoves φ) (fun _ hs => hs) (fun _ s hsteps => ?_) fun _ _ => trivial
    obtain ⟨hlists, hgrouped⟩ := StepsIn.groups hsteps
    refine ⟨[], fun name _ => ?_, fun name => ?_⟩
    · rw [hlists, hnone, if_neg nofun]
    · rw [hgrouped, ite_self, List.append_nil]
  cases statement with
  | value | family | format | parameter | vars | mark | markGrouping | output =>
      exact hother rfl rfl
  | blocks definitions conditions grouping =>
      have hannounce : Moves (StepsIn false false) Bare
          (Language.announceBlocks edition (verbose || edition.alwaysAnnounces) definitions
            grouping) := announceBlocks_moves _ _ _ _
      refine Leads.bind (Leads.mono (hannounce φ) (fun _ hs => hs)
        (fun _ _ hsteps => hsteps) fun _ _ => trivial) fun _ => ?_
      refine Leads.of_formula (K := StepsIn false false φ) fun ψ hψ => ?_
      obtain ⟨hlists, hgrouped⟩ := StepsIn.groups hψ
      refine Leads.mono (addBlocks_regroups definitions conditions grouping
        (hφ.steps hψ.steps)) (fun _ hs => hs) (fun _ s hs => ?_) fun _ hs => hs
      obtain ⟨ids, hids⟩ := hs
      refine ⟨ids, fun name hname => ?_, fun name => ?_⟩
      · rw [← hlists]
        exact hids.listed name hname
      · rw [← hgrouped]
        exact hids.grouped name

variable {edition : Edition} {verbose : Bool} {s t : Session}

/-- Statements that define no block in a grouping leave both its records alone. -/
theorem groups_of_statements {statements : List Language.Statement} {name : String}
    (named : name ≠ "") (hs : s.formula.WellFormed)
    (others : ∀ statement ∈ statements, statement.grouping? ≠ some name)
    (run : statements.forM (Language.Statement.perform edition verbose) s = .ok () t) :
    t.formula.groupings.get? name = s.formula.groupings.get? name ∧
      t.formula.groupedIn name = s.formula.groupedIn name := by
  induction statements generalizing s with
  | nil =>
      cases run
      exact ⟨rfl, rfl⟩
  | cons statement rest ih =>
      rw [List.forall_mem_cons] at others
      obtain ⟨_, u, hfirst, hrest⟩ := exists_of_run_bind run
      obtain ⟨ids, hids⟩ := (perform_regroups edition verbose statement hs).of_ok rfl hfirst
      have hu : u.formula.WellFormed :=
        hs.steps ((perform_moves edition verbose statement s.formula).of_ok rfl hfirst)
      obtain ⟨hlisted, hgrouped⟩ := ih hu others.2 hrest
      refine ⟨hlisted.trans ?_, hgrouped.trans ?_⟩
      · rw [hids.listed name named, if_neg others.1]
      · rw [hids.grouped, if_neg others.1, List.append_nil]

/-! ## Attributes -/

/-- The contents of a block after an attribute has been given to some blocks. -/
def markedAmong (φ : Formula) (ids : List Id) (a : Option Attribute) (id : Id) : Option Block :=
  if id ∈ ids then (φ.contents.get? id).map fun b => { b with mark := a } else φ.contents.get? id

theorem markBlock_marks (edition : Edition) (ids : List Id) (id : Id) (sign : String) :
    Leads
      (fun s => ∀ other,
        s.formula.contents.get? other = markedAmong φ ids (Attribute.ofSign? edition sign) other)
      (markBlock edition id sign)
      (fun _ s => ∀ other, s.formula.contents.get? other =
        markedAmong φ (ids ++ [id]) (Attribute.ofSign? edition sign) other)
      (fun _ => True) := by
  refine Leads.of_formula (K := fun ψ => ∀ other,
    ψ.contents.get? other = markedAmong φ ids (Attribute.ofSign? edition sign) other) fun ψ hψ => ?_
  have hblock : Reads ψ (block id) (fun b => ψ.contents.get? id = some b) :=
    Reads.bind_formula (Reads.orElse fun _ h => h)
  refine Reads.andThen hblock (fun _ _ => trivial) fun b hb => ?_
  cases hmark : b.mark with
  | some held => exact Leads.throw fun _ _ => trivial
  | none =>
      cases hsign : Attribute.ofSign? edition sign with
      | none => exact Leads.throw fun _ _ => trivial
      | some a =>
          refine Leads.update fun s hs other => ?_
          subst hs
          have hid := hψ id
          rw [hb, hsign] at hid
          by_cases hother : other = id
          · subst hother
            -- A block that has the attribute already would have stopped the action.
            have hnew : other ∉ ids := by
              intro hmem
              rw [markedAmong, if_pos hmem] at hid
              obtain ⟨c, -, hc⟩ := Option.map_eq_some_iff.mp hid.symm
              rw [← hc] at hmark
              cases hmark
            rw [markedAmong, if_neg hnew] at hid
            rw [markedAmong, if_pos (List.mem_append_right _ List.mem_cons_self), ← hid]
            exact Table.get?_put_self _ _ _
          · have hmem : other ∈ ids ++ [id] ↔ other ∈ ids := by simp [hother]
            simp only [markedAmong, hmem]
            exact (Table.get?_put_of_ne _ _ hother).trans (hsign ▸ hψ other)

/-- What is done with a grouping is done with the blocks `ids`: they are listed for it, a body takes
them for the grouping, and an attribute goes to them and to no other block. -/
structure Comprises (edition : Edition) (s : Session) (name : String) (ids : List Id) : Prop where
  listed : s.formula.groupings.get? name = some ids
  body : ∀ {definition : Definition} {conditions : List Condition} {grouping : Option String}
    {v : Valuation} {b : Block}, Defines s.formula definition conditions grouping v b →
    .all name ∈ definition.bricks → ∀ id ∈ ids, id ∈ b.body
  only : ∀ {definition : Definition} {conditions : List Condition} {grouping : Option String}
    {v : Valuation} {b : Block}, Defines s.formula definition conditions grouping v b →
    definition.bricks = [.all name] → ∀ id ∈ b.body, id ∈ ids
  marks : ∀ {sign : String} {t : Session},
    addAttributeToGrouping edition name sign s = .ok () t → ∀ id,
      t.formula.contents.get? id = markedAmong s.formula ids (Attribute.ofSign? edition sign) id

theorem comprises_of_listed {name : String} {ids : List Id}
    (listed : s.formula.groupings.get? name = some ids) : Comprises edition s name ids where
  listed := listed
  body := fun hdefines hbrick id hid =>
    (hdefines.mem_body id).mpr (Or.inl ⟨name, ids, hbrick, listed, hid⟩)
  only := by
    intro definition conditions grouping v b hdefines hbricks id hid
    rcases (hdefines.mem_body id).mp hid with ⟨other, found, hother, hfound, hmem⟩ |
      ⟨found, -, brick, hbrick, w, -, hstands⟩
    · rw [hbricks, List.mem_singleton] at hother
      cases hother
      cases hfound.symm.trans listed
      exact hmem
    · rw [hbricks, List.mem_singleton] at hbrick
      subst hbrick
      cases hstands
  marks := by
    intro sign t run
    have hrun : ids.forM (fun id => markBlock edition id sign) s = .ok () t := by
      unfold addAttributeToGrouping at run
      obtain ⟨_, _, hread, run⟩ := exists_of_run_bind run
      cases hread
      rw [listed] at run
      exact run
    have hmarks := Leads.forM (J := fun seen s' => ∀ id, s'.formula.contents.get? id =
        markedAmong s.formula seen (Attribute.ofSign? edition sign) id) ids
      (fun seen id _ => markBlock_marks edition seen id sign) []
    exact hmarks.of_ok (fun id => by simp [markedAmong]) hrun

/-! ## Statements that define blocks in a grouping -/

/-- The list of a grouping has the blocks that the last statement defined in it, which come last
among the blocks that keep the grouping. So these are all found by bricks and attributes exactly if
none of them was defined earlier. -/
theorem grouping_comprises_all_iff {earlier later : List Language.Statement}
    {definitions : List Definition} {conditions : List Condition} {name : String}
    {before : Session} (named : name ≠ "")
    (first : earlier.forM (Language.Statement.perform edition verbose)
      { before with formula := {} } = .ok () t)
    (rest : (.blocks definitions conditions (some name) :: later).forM
      (Language.Statement.perform edition verbose) t = .ok () s)
    (last : ∀ statement ∈ later, statement.grouping? ≠ some name) :
    (∃ ids, s.formula.groupedIn name = t.formula.groupedIn name ++ ids ∧
      Comprises edition s name ids) ∧
    (s.formula.groupedIn name).Pairwise (· < ·) ∧
    (Comprises edition s name (s.formula.groupedIn name) ↔ t.formula.groupedIn name = []) := by
  have ht : t.formula.WellFormed := wellFormed_empty.steps (steps_of_statements first)
  have hs : s.formula.WellFormed := ht.steps (steps_of_statements rest)
  have hascending : s.formula.WellFormed ∧ s.formula.Ascending :=
    Steps.invariant (I := fun φ => φ.WellFormed ∧ φ.Ascending)
      (fun _ _ hstep h => ⟨h.1.step hstep, h.2.step h.1 hstep⟩)
      ((steps_of_statements first).trans (steps_of_statements rest))
      ⟨wellFormed_empty, List.Pairwise.nil⟩
  obtain ⟨_, u, hblocks, hlater⟩ := exists_of_run_bind rest
  have hu : u.formula.WellFormed :=
    ht.steps ((perform_moves edition verbose _ t.formula).of_ok rfl hblocks)
  obtain ⟨ids, hids⟩ := (perform_regroups edition verbose _ ht).of_ok rfl hblocks
  obtain ⟨hlisted, hgrouped⟩ := groups_of_statements named hu last hlater
  have hlist : s.formula.groupings.get? name = some ids := by
    rw [hlisted, hids.listed name named]
    exact if_pos rfl
  have hall : s.formula.groupedIn name = t.formula.groupedIn name ++ ids := by
    rw [hgrouped, hids.grouped]
    exact congrArg (t.formula.groupedIn name ++ ·) (if_pos rfl)
  refine ⟨⟨ids, hall, comprises_of_listed hlist⟩, hascending.2.groupedIn hs name, ?_,
    fun hnone => ?_⟩
  · intro hcomprises
    have hsame : ids = t.formula.groupedIn name ++ ids :=
      Option.some.inj (hlist.symm.trans (hall ▸ hcomprises.listed))
    exact List.append_left_eq_self.mp hsame.symm
  · rw [hall, hnone, List.nil_append]
    exact comprises_of_listed hlist

/-- Two variables, and blocks `A` and `B` that one statement defines in a grouping. -/
def jointStatements : List Language.Statement :=
  [.blocks [⟨"A", [], [.ref false "x" []]⟩, ⟨"B", [], [.ref false "y" []]⟩] [] (some "G"),
   .blocks [⟨"M", [], [.all "G"]⟩] [] none, .markGrouping "G" "OR"]

def variablesXY : List Language.Statement :=
  [.vars "x" [] [], .vars "y" [] []]

def sessionXY : Session :=
  (perform (variablesXY.forM (Language.Statement.perform .full false)) {}).2

def jointSession : Session :=
  (perform (jointStatements.forM (Language.Statement.perform .full false)) sessionXY).2

theorem grouping_comprises_all_iff_joint :
    sessionXY.formula.groupedIn "G" = [] ∧ jointSession.formula.groupedIn "G" = [3, 4] ∧
      Comprises .full jointSession "G" [3, 4] := by
  have hfirst : variablesXY.forM (Language.Statement.perform .full false)
      { ({} : Session) with formula := {} } = .ok () sessionXY := ok_of_perform (by decide +kernel)
  have hrest : jointStatements.forM (Language.Statement.perform .full false) sessionXY =
      .ok () jointSession := ok_of_perform (by decide +kernel)
  obtain ⟨-, -, hiff⟩ := grouping_comprises_all_iff (by decide) hfirst hrest (by decide)
  have hnone : sessionXY.formula.groupedIn "G" = [] := by decide +kernel
  have hall : jointSession.formula.groupedIn "G" = [3, 4] := by decide +kernel
  exact ⟨hnone, hall, hall ▸ hiff.mpr hnone⟩

/-- The same blocks, each with a statement of its own. -/
def separateStatements : List Language.Statement :=
  variablesXY ++
  [.blocks [⟨"A", [], [.ref false "x" []]⟩] [] (some "G"),
   .blocks [⟨"B", [], [.ref false "y" []]⟩] [] (some "G"),
   .blocks [⟨"M", [], [.all "G"]⟩] [] none, .markGrouping "G" "OR"]

def separateSession : Session :=
  (perform (separateStatements.forM (Language.Statement.perform .full false)) {}).2

/-- The first block keeps its grouping and is lost from the list of it: the body takes only the
second one, and the attribute of the grouping does not get to the first. -/
theorem separate_statements_lose_block :
    separateSession.Built .full ∧ separateSession.formula.groupedIn "G" = [3, 4] ∧
      separateSession.formula.groupings.get? "G" = some [4] ∧
      separateSession.formula.contents.values =
        [⟨"A( )", 3, [1], some "G", none⟩,
         ⟨"B( )", 4, [2], some "G", some (.operator .or)⟩,
         ⟨"M( )", 5, [4], none, none⟩] ∧
      ¬ Comprises .full separateSession "G" (separateSession.formula.groupedIn "G") := by
  have hall : separateSession.formula.groupedIn "G" = [3, 4] := by decide +kernel
  have hlisted : separateSession.formula.groupings.get? "G" = some [4] := by decide +kernel
  refine ⟨⟨false, separateStatements, {}, ok_of_perform (by decide +kernel)⟩, hall, hlisted,
    by decide +kernel, fun hcomprises => ?_⟩
  have hsame := hlisted.symm.trans (hall ▸ hcomprises.listed)
  exact absurd hsame (by decide)

end Action

end QuantFamily
