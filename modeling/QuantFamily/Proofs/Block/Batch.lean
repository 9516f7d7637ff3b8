import QuantFamily.Proofs.Block.Body

/-!
# The blocks of one statement

One statement defines many blocks: every definition is taken with every valuation of the
conditions. Of the names that come up on the way, those that were in use before are passed over,
and so is every name that has come up already. What remains are the new blocks, in the order of
first occurrences; they get the next identifiers one after the other, and each body is resolved
among the blocks that precede it. `Batch` says this of the part of a statement that is done.
-/

namespace QuantFamily

/-- Every definition with every valuation, one definition after the other. -/
def places (definitions : List Definition) (all : List Valuation) :
    List (Definition × Valuation) :=
  definitions.flatMap fun definition => all.map fun v => (definition, v)

theorem places_append_singleton (definitions : List Definition) (definition : Definition)
    (all : List Valuation) :
    places (definitions ++ [definition]) all =
      places definitions all ++ all.map fun v => (definition, v) := by
  simp [places]

namespace Formula

variable {φ : Formula}

/-! ## Layouts -/

/-- The identifiers in a layout that come from bricks other than groupings. -/
def explicitIds : List Brick → List (List Id) → List Id
  | .ref _ _ _ :: bricks, part :: parts => part ++ explicitIds bricks parts
  | .all _ :: bricks, _ :: parts => explicitIds bricks parts
  | _, _ => []

theorem nodup_unused (used ids : List Id) : (unused used ids).Nodup :=
  nodup_eraseDups _

theorem Laid.nodup_explicitIds {conditions : List Condition} {left : Valuation} {used : List Id}
    {bricks : List Brick} {parts : List (List Id)}
    (h : φ.Laid conditions left used bricks parts) (hused : used.Nodup) :
    (used ++ explicitIds bricks parts).Nodup := by
  induction h with
  | nil => simpa [explicitIds] using hused
  | all _ _ ih => exact ih hused
  | @ref used ids _ _ _ _ _ _ _ _ _ ih =>
      have hboth : (used ++ unused used ids).Nodup := by
        rw [List.nodup_append]
        refine ⟨hused, nodup_unused used ids, fun a ha b hb hab => ?_⟩
        exact (mem_unused.mp hb).2 (hab ▸ ha)
      rw [explicitIds, ← List.append_assoc]
      exact ih hboth

/-! ## Several blocks -/

/-- The formula with several new blocks, in order. -/
def withBlocks (φ : Formula) (news : List Block) : Formula :=
  { φ with
    counter := φ.counter + news.length
    blocks := { entries := φ.blocks.entries ++ news.map fun b => (b.name, b.id) }
    contents := φ.contents.putAll (news.map fun b => (b.id, b)) }

theorem withBlocks_nil : φ.withBlocks [] = φ := by
  simp [withBlocks, Table.putAll]

theorem isDefined_withBlocks (news : List Block) (name : String) :
    (φ.withBlocks news).isDefined name = true ↔
      φ.isDefined name = true ∨ name ∈ news.map Block.name := by
  have hkeys : ∀ table : Table String Id, table.contains name = true ↔ name ∈ table.keys := by
    intro table
    rw [← not_iff_not, Bool.not_eq_true, Table.contains_eq_false_iff]
  simp [isDefined, hkeys, withBlocks, Table.keys, or_assoc]

/-- A name that has an identifier keeps it. -/
theorem idOf?_withBlocks {name : String} {id : Id} (h : φ.idOf? name = some id)
    (news : List Block) : (φ.withBlocks news).idOf? name = some id := by
  unfold idOf? at h ⊢
  rw [show (φ.withBlocks news).vars = φ.vars from rfl]
  cases hvar : φ.vars.get? name with
  | some found =>
      rw [hvar] at h
      exact h
  | none =>
      rw [hvar] at h
      exact Table.findEntry_append_of_some h _

theorem get?_contents_withBlocks {news : List Block} {id : Id} (h : id ∉ news.map Block.id) :
    (φ.withBlocks news).contents.get? id = φ.contents.get? id := by
  refine Table.get?_putAll_of_not_mem ?_
  rw [List.map_map]
  exact h

theorem withBlocks_append_singleton {news : List Block} {b : Block}
    (fresh : (φ.withBlocks news).isDefined b.name = false)
    (id_eq : b.id = (φ.withBlocks news).counter + 1) :
    φ.withBlocks (news ++ [b]) = ((φ.withBlocks news).withBlock b.name).withContents b := by
  have hname : b.name ∉ (φ.withBlocks news).blocks.keys :=
    Table.contains_eq_false_iff.mp (Bool.or_eq_false_iff.mp fresh).2
  have hblocks : (φ.withBlocks (news ++ [b])).blocks =
      (φ.withBlocks news).blocks.put b.name ((φ.withBlocks news).counter + 1) := by
    refine congrArg Table.mk (Eq.trans ?_ (Table.entries_put_of_not_mem _ hname).symm)
    rw [← id_eq]
    simp [withBlocks]
  have hcontents : (φ.withBlocks (news ++ [b])).contents =
      (φ.withBlocks news).contents.put b.id b := by
    simp [withBlocks, Table.putAll]
  have hcounter : (φ.withBlocks (news ++ [b])).counter = (φ.withBlocks news).counter + 1 := by
    simp [withBlocks, Int.add_assoc]
  have hrest : φ.withBlocks (news ++ [b]) = { φ.withBlocks news with
    counter := (φ.withBlocks (news ++ [b])).counter
    blocks := (φ.withBlocks (news ++ [b])).blocks
    contents := (φ.withBlocks (news ++ [b])).contents } := rfl
  rw [hrest, hblocks, hcontents, hcounter]
  rfl

/-- The lists of the groupings when one of them is written anew, if it has a name. -/
def relisted (φ : Formula) (grouping : Option String) (ids : List Id) : Table String (List Id) :=
  match grouping with
  | some name => if name.isEmpty then φ.groupings else φ.groupings.put name ids
  | none => φ.groupings

theorem get?_relisted (grouping : Option String) (ids : List Id) (name : String) :
    (φ.relisted grouping ids).get? name =
      if grouping = some name ∧ name ≠ "" then some ids else φ.groupings.get? name := by
  cases grouping with
  | none => rw [if_neg (by simp), relisted]
  | some given =>
      simp only [relisted, Option.some.injEq]
      by_cases hempty : given = ""
      · subst hempty
        rw [if_pos (String.isEmpty_iff.mpr rfl), if_neg fun h => h.2 h.1.symm]
      · rw [if_neg (by simpa using hempty)]
        by_cases hname : given = name
        · subst hname
          rw [if_pos ⟨rfl, hempty⟩, Table.get?_put_self]
        · rw [if_neg fun h => hname h.1, Table.get?_put_of_ne _ _ (Ne.symm hname)]

/-- The names that come up at some places and were not in use before, each once. -/
def newNames (φ : Formula) (names : List String) : List String :=
  (names.filter fun name => !φ.isDefined name).eraseDups

theorem newNames_append_singleton (names : List String) (name : String) :
    φ.newNames (names ++ [name]) =
      if φ.isDefined name = true ∨ name ∈ φ.newNames names then φ.newNames names
      else φ.newNames names ++ [name] := by
  simp only [newNames, List.filter_append, List.mem_eraseDups]
  by_cases hdefined : φ.isDefined name = true
  · rw [if_pos (.inl hdefined)]
    simp [hdefined]
  · rw [show [name].filter (fun name => !φ.isDefined name) = [name] by simp [hdefined],
      eraseDups_append_singleton]
    exact if_congr (by simp [hdefined]) rfl rfl

/-- A block is built at the first place where its name comes up. The blocks `before` have been
added to `φ` by then. -/
def BuiltAt (φ : Formula) (conditions : List Condition) (grouping : Option String)
    (seen : List (Definition × Valuation)) (before : List Block) (b : Block) : Prop :=
  ∃ earlier definition v later, seen = earlier ++ (definition, v) :: later ∧
    (∀ other ∈ earlier, φ.headOf other.1 other.2 ≠ .ok b.name) ∧
    Action.Builds (φ.withBlocks before) definition conditions grouping v b

/-- What has come of the places that a statement has seen. -/
structure Batch (φ : Formula) (conditions : List Condition) (grouping : Option String)
    (seen : List (Definition × Valuation)) (news : List Block) : Prop where
  named : ∃ names, seen.mapM (fun place => φ.headOf place.1 place.2) = .ok names ∧
    news.map Block.name = φ.newNames names
  built : ∀ before b after, news = before ++ b :: after →
    φ.BuiltAt conditions grouping seen before b

theorem BuiltAt.mono {conditions : List Condition} {grouping : Option String}
    {seen : List (Definition × Valuation)} {before : List Block} {b : Block}
    (h : φ.BuiltAt conditions grouping seen before b) (place : Definition × Valuation) :
    φ.BuiltAt conditions grouping (seen ++ [place]) before b := by
  obtain ⟨earlier, definition, v, later, rfl, hearlier, hbuilds⟩ := h
  exact ⟨earlier, definition, v, later ++ [place], by simp, hearlier, hbuilds⟩

namespace Batch

variable {conditions : List Condition} {grouping : Option String}
  {seen : List (Definition × Valuation)} {news : List Block}

theorem nil : φ.Batch conditions grouping [] [] where
  named := ⟨[], rfl, rfl⟩
  built := by simp

/-- The names that have come up and are still free are those of no new block. -/
theorem headOf_ne (h : φ.Batch conditions grouping seen news) {name : String}
    (fresh : (φ.withBlocks news).isDefined name = false) (place : Definition × Valuation)
    (hplace : place ∈ seen) : φ.headOf place.1 place.2 ≠ .ok name := by
  intro hhead
  obtain ⟨names, hnames, hnew⟩ := h.named
  have hmem : name ∈ names := by
    obtain ⟨g, rfl, hg⟩ := exists_map_of_mapM hnames
    have hname := (hg place hplace).symm.trans hhead
    rw [Except.ok.injEq] at hname
    exact List.mem_map.mpr ⟨place, hplace, hname⟩
  rw [← Bool.not_eq_true, isDefined_withBlocks, not_or, hnew] at fresh
  refine fresh.2 (List.mem_eraseDups.mpr (List.mem_filter.mpr ⟨hmem, ?_⟩))
  simpa using fresh.1

theorem named_append (h : φ.Batch conditions grouping seen news)
    {place : Definition × Valuation} {name : String}
    (headed : φ.headOf place.1 place.2 = .ok name) :
    ∃ names, (seen ++ [place]).mapM (fun place => φ.headOf place.1 place.2) = .ok names ∧
      φ.newNames names =
        if (φ.withBlocks news).isDefined name = true then news.map Block.name
        else news.map Block.name ++ [name] := by
  obtain ⟨names, hnames, hnew⟩ := h.named
  refine ⟨names ++ [name], ?_, ?_⟩
  · rw [List.mapM_append, hnames, List.mapM_cons, headed]
    rfl
  · rw [newNames_append_singleton, ← hnew]
    exact if_congr (isDefined_withBlocks news name).symm rfl rfl

/-- A place whose name is taken adds nothing. -/
theorem skip (h : φ.Batch conditions grouping seen news) {place : Definition × Valuation}
    {name : String} (headed : φ.headOf place.1 place.2 = .ok name)
    (taken : (φ.withBlocks news).isDefined name = true) :
    φ.Batch conditions grouping (seen ++ [place]) news where
  named := by
    obtain ⟨names, hnames, hnew⟩ := h.named_append headed
    rw [if_pos taken] at hnew
    exact ⟨names, hnames, hnew.symm⟩
  built := fun before b after hnews => (h.built before b after hnews).mono place

/-- A place whose name is free adds a block. -/
theorem build (h : φ.Batch conditions grouping seen news) {place : Definition × Valuation}
    {b : Block}
    (builds : Action.Builds (φ.withBlocks news) place.1 conditions grouping place.2 b) :
    φ.Batch conditions grouping (seen ++ [place]) (news ++ [b]) where
  named := by
    obtain ⟨names, hnames, hnew⟩ := h.named_append builds.headed
    rw [if_neg (by simp [builds.fresh])] at hnew
    exact ⟨names, hnames, by rw [hnew, List.map_append, List.map_singleton]⟩
  built := by
    intro before b' after hnews
    rcases List.eq_nil_or_concat after with rfl | ⟨after, last, rfl⟩
    · obtain ⟨rfl, hb⟩ := List.append_inj' hnews rfl
      cases hb
      exact ⟨seen, place.1, place.2, [], rfl, h.headOf_ne builds.fresh, builds⟩
    · rw [List.concat_eq_append, ← List.cons_append, ← List.append_assoc] at hnews
      obtain ⟨rfl, -⟩ := List.append_inj' hnews rfl
      exact (h.built before b' after rfl).mono place

/-- The new blocks get the next identifiers one after the other. -/
theorem ids_eq (h : φ.Batch conditions grouping seen news) :
    news.map Block.id = (List.range news.length).map fun (i : Nat) => φ.counter + 1 + i := by
  refine List.ext_getElem (by simp) fun i hi _ => ?_
  have hlt : i < news.length := by simpa using hi
  have hsplit : news = news.take i ++ news[i] :: news.drop (i + 1) := by
    rw [← List.drop_eq_getElem_cons hlt, List.take_append_drop]
  obtain ⟨_, _, _, _, _, _, hbuilds⟩ := h.built _ _ _ hsplit
  have hlength : (news.take i).length = i := List.length_take_of_le (Nat.le_of_lt hlt)
  have hid : news[i].id = φ.counter + (news.take i).length + 1 := hbuilds.id_eq
  rw [List.getElem_map, List.getElem_map, List.getElem_range, hid, hlength]
  exact Int.add_right_comm ..

/-- The new identifiers come behind those that have been given out before. -/
theorem counter_lt (h : φ.Batch conditions grouping seen news) {id : Id}
    (hid : id ∈ news.map Block.id) : φ.counter < id := by
  rw [h.ids_eq] at hid
  obtain ⟨i, -, rfl⟩ := List.mem_map.mp hid
  exact Int.lt_of_lt_of_le (Int.lt_succ φ.counter)
    (Int.le_add_of_nonneg_right (Int.natCast_nonneg i))

theorem nodup_ids (h : φ.Batch conditions grouping seen news) : (news.map Block.id).Nodup := by
  rw [h.ids_eq]
  refine List.Pairwise.map _ (fun i j hij heq => hij ?_) List.nodup_range
  exact Int.ofNat_inj.mp (Int.add_left_cancel heq)

/-- The new blocks have their contents. -/
theorem get?_contents (h : φ.Batch conditions grouping seen news) {b : Block} (hb : b ∈ news) :
    (φ.withBlocks news).contents.get? b.id = some b := by
  have hkeys : (news.map fun b => (b.id, b)).map (·.1) = news.map Block.id := by simp
  have hentry : (b.id, b) ∈ news.map fun b => (b.id, b) := List.mem_map.mpr ⟨b, hb, rfl⟩
  exact Table.get?_putAll_of_mem (hkeys ▸ h.nodup_ids) hentry

end Batch

end Formula

open Formula

namespace Action

variable {φ : Formula} {conditions : List Condition} {grouping : Option String}

/-- What a statement has made of a formula when some places have been seen and the identifiers
`done` have been given out. -/
def Done (φ : Formula) (conditions : List Condition) (grouping : Option String)
    (seen : List (Definition × Valuation)) (done : List Id) (ψ : Formula) : Prop :=
  ∃ news, ψ = φ.withBlocks news ∧ news.map Block.id = done ∧ φ.Batch conditions grouping seen news

theorem addBlock_done (seen : List (Definition × Valuation)) (done : List Id)
    (definition : Definition) (v : Valuation) :
    Leads (fun s => Done φ conditions grouping seen done s.formula)
      (addBlock definition conditions grouping v)
      (fun found s => Done φ conditions grouping (seen ++ [(definition, v)])
        (done ++ found.toList) s.formula)
      (fun _ => True) := by
  refine Leads.of_formula (K := Done φ conditions grouping seen done) ?_
  rintro ψ ⟨news, rfl, hdone, hbatch⟩
  refine Leads.mono (addBlock_builds definition conditions grouping v) (fun _ hs => hs) ?_
    fun _ _ => trivial
  rintro found t (⟨rfl, ht, name, hhead, htaken⟩ | ⟨b, hbuilds, rfl, ht⟩)
  · exact ⟨news, ht, by simpa using hdone, hbatch.skip hhead htaken⟩
  · refine ⟨news ++ [b], ?_, by simp [hdone], hbatch.build hbuilds⟩
    rw [ht, withBlocks_append_singleton hbuilds.fresh hbuilds.id_eq]

theorem run_saveGrouping (grouping : Option String) (ids : List Id) (s : Session) :
    saveGrouping grouping ids s = .ok () { s with
      formula := { s.formula with groupings := s.formula.relisted grouping ids } } := by
  cases grouping with
  | none => rfl
  | some name =>
      simp only [saveGrouping, relisted]
      split <;> rfl

/-- One definition with all valuations. The search for them does not depend on the blocks that have
been added by then. -/
theorem definition_done {all : List Valuation}
    (hall : ∀ found, φ.valuations conditions = .ok found → found = all)
    (seen : List Definition) (done : List Id) (definition : Definition) :
    Leads (fun s => Done φ conditions grouping (places seen all) done s.formula)
      (do
        let found <- lift ((<- formula).valuations conditions)
        found.filterMapM (addBlock definition conditions grouping))
      (fun ids s => φ.valuations conditions = .ok all ∧
        Done φ conditions grouping (places (seen ++ [definition]) all) (done ++ ids) s.formula)
      (fun _ => True) := by
  refine Leads.bind_formula fun ψ => ?_
  refine Leads.bind (Leads.lift (Q := fun found s => φ.valuations conditions = .ok found ∧
    Done φ conditions grouping (places seen all) done s.formula) ?_ fun _ _ => trivial)
    fun found => ?_
  · rintro found hfound s ⟨rfl, hdone⟩
    have hvalues : s.formula.values = φ.values := by
      obtain ⟨news, hnews, -, -⟩ := hdone
      rw [hnews]
      rfl
    exact ⟨(valuations_congr hvalues conditions {}).symm.trans hfound, hdone⟩
  · refine Leads.of_formula (K := fun ψ => φ.valuations conditions = .ok found ∧
      Done φ conditions grouping (places seen all) done ψ) ?_
    rintro ψ ⟨hfound, hdone⟩
    obtain rfl := hall found hfound
    have hloop := Leads.filterMapM_seen (E := fun _ => True)
      (J := fun vs ids s => Done φ conditions grouping
        (places seen found ++ vs.map fun v => (definition, v)) (done ++ ids) s.formula)
      found (fun vs ids v _ => by
        simpa using addBlock_done (places seen found ++ vs.map fun v => (definition, v))
          (done ++ ids) definition v) [] []
    refine Leads.mono hloop (fun s hs => ?_) (fun ids s hs => ⟨hfound, ?_⟩) fun _ hs => hs
    · simpa [hs] using hdone
    · rw [places_append_singleton]
      simpa using hs

/-- All that comes of a statement that defines blocks, if no fault cuts it short. -/
theorem addBlocks_leads (definitions : List Definition) :
    Leads (fun s => s.formula = φ) (addBlocks definitions conditions grouping)
      (fun _ s => ∃ all news, (definitions ≠ [] → φ.valuations conditions = .ok all) ∧
        φ.Batch conditions grouping (places definitions all) news ∧
        s.formula = { φ.withBlocks news with
          groupings := φ.relisted grouping (news.map Block.id) })
      (fun _ => True) := by
  rw [addBlocks_eq]
  let all := ((φ.valuations conditions).toOption).getD []
  have hall : ∀ found, φ.valuations conditions = .ok found → found = all := by
    intro found hfound
    simp [all, hfound, Except.toOption]
  let J : List Definition → List (List Id) → Session → Prop := fun seen done s =>
    (seen ≠ [] → φ.valuations conditions = .ok all) ∧
      Done φ conditions grouping (places seen all) done.flatten s.formula
  have hround : ∀ (seen : List Definition) (done : List (List Id)) (definition : Definition),
      definition ∈ definitions →
      Leads (J seen done)
        (do
          let found <- lift ((<- formula).valuations conditions)
          found.filterMapM (addBlock definition conditions grouping))
        (fun ids => J (seen ++ [definition]) (done ++ [ids])) (fun _ => True) := by
    intro seen done definition _
    refine Leads.mono (definition_done hall seen done.flatten definition) (fun _ hs => hs.2)
      (fun ids s hs => ⟨fun _ => hs.1, ?_⟩) fun _ hs => hs
    simpa using hs.2
  have hstart : ∀ s : Session, s.formula = φ → J [] [] s := by
    rintro s rfl
    exact ⟨fun h => absurd rfl h, [], withBlocks_nil.symm, rfl, .nil⟩
  refine Leads.bind (Leads.mono (Leads.mapM_seen (J := J) definitions hround [] []) hstart
    (fun _ _ hs => hs) fun _ hs => hs) fun lists => ?_
  refine Leads.of_formula (K := fun ψ => (definitions ≠ [] → φ.valuations conditions = .ok all) ∧
    Done φ conditions grouping (places definitions all) lists.flatten ψ) ?_
  rintro ψ ⟨hfound, news, rfl, hids, hbatch⟩
  intro s hs
  rw [run_saveGrouping, hs]
  exact ⟨all, news, hfound, hbatch, hids ▸ rfl⟩

/-- Variables `x` and `y`, and a block `A` in a grouping `G`. -/
def sessionWithGrouping : Session :=
  (perform (do
    addVariables "x"
    addVariables "y"
    addBlocks [⟨"A", [], [.ref false "x" []]⟩] [] (some "G")) {}).2

/-- Four definitions. The name of the second is taken already, that of the last by the first. -/
def fourDefinitions : List Definition :=
  [⟨"B", [], [.ref false "x" [], .all "G", .ref false "x" [], .ref true "y" []]⟩,
   ⟨"A", [], [.ref false "y" []]⟩,
   ⟨"C", [], [.all "G", .ref false "B" []]⟩,
   ⟨"B", [], [.ref false "y" []]⟩]

end Action

end QuantFamily
