import QuantFamily.Proofs.Sequence
import QuantFamily.Proofs.Valuation.Queue

/-!
# What defining a block does

One statement for each step of a definition, from the bricks up to the whole block. Resolving
bricks reads the formula and leaves it alone. A block is registered before its bricks are
resolved, so a definition that is cut short has changed nothing but the register. `Laid` says how
a body is put together brick by brick, and `addBlock_builds` all that can come of defining one
block. Where the order of a body does not matter, `Defines` and `addBlock_leads` do.
-/

namespace QuantFamily

open QuantFamily.Expr (Value)

namespace Formula

/-- The signed identifier that a brick stands for under a valuation, when the indices of the
head have the values `left`. -/
inductive StandsFor (φ : Formula) (left w : Valuation) : Brick → Id → Prop
  | ref {negated : Bool} {name text : String} {indices : List String} {values : List Value}
      {id signed : Id} (substituted : φ.substitute indices left w = .ok values)
      (named : brickName name values indices = .ok text) (found : φ.idOf? text = some id)
      (signs : Action.signedId negated id = .ok signed) :
      StandsFor φ left w (.ref negated name indices) signed

theorem StandsFor.unique {φ : Formula} {left w : Valuation} {brick : Brick} {e e' : Id}
    (h : φ.StandsFor left w brick e) (h' : φ.StandsFor left w brick e') : e' = e := by
  cases h with
  | ref substituted named found signs =>
      cases h' with
      | ref substituted' named' found' signs' =>
          rw [substituted, Except.ok.injEq] at substituted'
          subst substituted'
          rw [named, Except.ok.injEq] at named'
          subst named'
          rw [found, Option.some.injEq] at found'
          subst found'
          rw [signs, Except.ok.injEq] at signs'
          exact signs'.symm

/-- Identifiers without those that are used already, and without repetitions. -/
def unused (used ids : List Id) : List Id :=
  (ids.filter fun e => e ∉ used).eraseDups

theorem mem_unused {used ids : List Id} {e : Id} : e ∈ unused used ids ↔ e ∈ ids ∧ e ∉ used := by
  simp [unused, List.mem_filter]

theorem unused_append_singleton (used ids : List Id) (e : Id) :
    unused used (ids ++ [e]) =
      if e ∈ used ++ unused used ids then unused used ids else unused used ids ++ [e] := by
  by_cases hused : e ∈ used
  · rw [if_pos (List.mem_append_left _ hused)]
    simp [unused, hused]
  · have hiff : e ∈ used ++ unused used ids ↔ e ∈ ids.filter fun e => e ∉ used := by
      simp [mem_unused, hused]
    rw [if_congr hiff rfl rfl]
    simp only [unused, List.filter_append]
    rw [show [e].filter (fun e => e ∉ used) = [e] by simp [hused], eraseDups_append_singleton]

/-- How a body is put together, one part a brick, when some identifiers are used already. For a
grouping its members stand, all of them. Another brick gives what it stands for under the
valuations that the search with pinned left-hand indices finds, in their order and without what a
brick of this kind has given before. -/
inductive Laid (φ : Formula) (conditions : List Condition) (left : Valuation) :
    List Id → List Brick → List (List Id) → Prop
  | nil {used : List Id} : Laid φ conditions left used [] []
  | all {used members : List Id} {grouping : String} {rest : List Brick} {parts : List (List Id)}
      (listed : φ.groupings.get? grouping = some members)
      (behind : Laid φ conditions left used rest parts) :
      Laid φ conditions left used (.all grouping :: rest) (members :: parts)
  | ref {used ids : List Id} {negated : Bool} {name : String} {indices : List String}
      {found : List Valuation} {rest : List Brick} {parts : List (List Id)}
      (searched : φ.valuations conditions left = .ok found)
      (stands : List.Forall₂ (φ.StandsFor left · (.ref negated name indices)) found ids)
      (behind : Laid φ conditions left (used ++ unused used ids) rest parts) :
      Laid φ conditions left used (.ref negated name indices :: rest) (unused used ids :: parts)

/-- What a body holds: the members of the groupings that are named in it, and what the
other bricks stand for under the valuations that the search with pinned left-hand indices
finds. -/
def InBody (φ : Formula) (conditions : List Condition) (left : Valuation)
    (bricks : List Brick) (e : Id) : Prop :=
  (∃ grouping ids, .all grouping ∈ bricks ∧ φ.groupings.get? grouping = some ids ∧ e ∈ ids) ∨
    ∃ found, φ.valuations conditions left = .ok found ∧
      ∃ brick ∈ bricks, ∃ w ∈ found, φ.StandsFor left w brick e

theorem inBody_all {φ : Formula} {conditions : List Condition} {left : Valuation}
    {grouping : String} {members : List Id} (listed : φ.groupings.get? grouping = some members)
    (rest : List Brick) (e : Id) :
    φ.InBody conditions left (.all grouping :: rest) e ↔
      e ∈ members ∨ φ.InBody conditions left rest e := by
  constructor
  · rintro (⟨other, ids, hother, hids, he⟩ | ⟨found, hfound, brick, hbrick, w, hw, hstands⟩)
    · rcases List.mem_cons.mp hother with hother | hother
      · cases hother
        cases listed.symm.trans hids
        exact .inl he
      · exact .inr (.inl ⟨other, ids, hother, hids, he⟩)
    · rcases List.mem_cons.mp hbrick with rfl | hbrick
      · cases hstands
      · exact .inr (.inr ⟨found, hfound, brick, hbrick, w, hw, hstands⟩)
  · rintro (he | ⟨other, ids, hother, hids, he⟩ | ⟨found, hfound, brick, hbrick, w, hw, hstands⟩)
    · exact .inl ⟨grouping, members, List.mem_cons_self, listed, he⟩
    · exact .inl ⟨other, ids, List.mem_cons_of_mem _ hother, hids, he⟩
    · exact .inr ⟨found, hfound, brick, List.mem_cons_of_mem _ hbrick, w, hw, hstands⟩

theorem inBody_ref {φ : Formula} {conditions : List Condition} {left : Valuation}
    {negated : Bool} {name : String} {indices : List String} {found : List Valuation}
    (searched : φ.valuations conditions left = .ok found) (rest : List Brick) (e : Id) :
    φ.InBody conditions left (.ref negated name indices :: rest) e ↔
      (∃ w ∈ found, φ.StandsFor left w (.ref negated name indices) e) ∨
        φ.InBody conditions left rest e := by
  simp only [InBody, List.mem_cons, reduceCtorEq, false_or, searched, Except.ok.injEq,
    exists_eq_left', exists_eq_or_imp]
  exact or_left_comm

theorem Laid.mem_iff {φ : Formula} {conditions : List Condition} {left : Valuation}
    {used : List Id} {bricks : List Brick} {parts : List (List Id)}
    (h : φ.Laid conditions left used bricks parts) (e : Id) :
    e ∈ used ∨ e ∈ parts.flatten ↔ e ∈ used ∨ φ.InBody conditions left bricks e := by
  induction h with
  | nil => simp [InBody]
  | all listed _ ih =>
      rw [inBody_all listed, List.flatten_cons, List.mem_append, or_left_comm, ih]
      exact or_left_comm
  | @ref used ids negated name indices found rest parts searched stands _ ih =>
      have hstands : e ∈ ids ↔ ∃ w ∈ found, φ.StandsFor left w (.ref negated name indices) e := by
        constructor
        · exact exists_of_mem_forall₂ stands
        · rintro ⟨w, hw, h⟩
          obtain ⟨e', he', h'⟩ := exists_of_mem_forall₂ stands.flip hw
          rwa [h'.unique h]
      rw [inBody_ref searched, ← hstands]
      rw [List.mem_append, mem_unused] at ih
      rw [List.flatten_cons, List.mem_append, mem_unused]
      by_cases hused : e ∈ used
      · simp [hused]
      · by_cases he : e ∈ ids
        · simp [he, hused]
        · simpa [he, hused] using ih

/-- A substitution reads the values of the formula and nothing else. -/
theorem substitute_congr {φ ψ : Formula} (h : ψ.values = φ.values) (indices : List String)
    (bound more : Valuation) :
    ψ.substitute indices bound more = φ.substitute indices bound more := by
  unfold substitute substituteIndex
  rw [h]

/-- The name that a definition gives to its block for a valuation. -/
def headOf (φ : Formula) (definition : Definition) (v : Valuation) : Except Fault String := do
  let indices <- φ.substitute definition.indices v
  headName definition.name indices

/-- The formula with a new block in its register. -/
def withBlock (φ : Formula) (name : String) : Formula :=
  { φ with counter := φ.counter + 1, blocks := φ.blocks.put name (φ.counter + 1) }

/-- The formula with the contents of a block. -/
def withContents (φ : Formula) (b : Block) : Formula :=
  { φ with contents := φ.contents.put b.id b }

theorem idOf?_withBlock {φ : Formula} {name : String} (h : φ.isDefined name = false) :
    (φ.withBlock name).idOf? name = some (φ.counter + 1) := by
  have hvar : φ.vars.get? name = none := by
    simpa [isDefined, Table.contains] using (Bool.or_eq_false_iff.mp h).1
  simp [idOf?, withBlock, hvar]

end Formula

namespace Action

variable {φ : Formula}

/-! ## Bricks -/

/-- The members that a brick contributes at once. -/
def startOf (φ : Formula) : Brick → Option (List Id)
  | .all grouping => φ.groupings.get? grouping
  | .ref _ _ _ => some []

theorem brickStart_reads (brick : Brick) :
    Reads φ (brickStart brick) (· = startOf φ brick) := by
  cases brick with
  | ref negated name indices => exact Reads.pure rfl
  | all grouping =>
      refine Reads.bind_formula ?_
      cases hget : φ.groupings.get? grouping with
      | some ids => exact Reads.pure hget.symm
      | none =>
          -- The announcement changes what is printed and not the formula.
          intro s hs
          exact ⟨hs, hget.symm⟩

theorem brickId_reads (name : String) :
    Reads φ (brickId name) (fun id => φ.idOf? name = some id) :=
  Reads.bind_formula (Reads.orElse fun _ h => h)

/-- A brick contributes what it stands for under each valuation, without what was used. -/
theorem brickIds_reads (negated : Bool) (name : String) (indices : List String) (left : Valuation)
    (found : List Valuation) (used : List Id) :
    Reads φ (brickIds (.ref negated name indices) left found used) (fun result =>
      ∃ ids, List.Forall₂ (φ.StandsFor left · (.ref negated name indices)) found ids ∧
        result = (Formula.unused used ids, used ++ Formula.unused used ids)) := by
  let J : List Valuation → List Id × List Id → Prop := fun seen result =>
    ∃ ids, List.Forall₂ (φ.StandsFor left · (.ref negated name indices)) seen ids ∧
      result = (Formula.unused used ids, used ++ Formula.unused used ids)
  have hstart : J [] ([], used) := ⟨[], .nil, by simp [Formula.unused]⟩
  refine Reads.foldlM (J := J) found ?_ hstart
  rintro seen result w - ⟨ids, hids, rfl⟩
  refine Reads.bind_formula (Reads.bind (Reads.lift fun values h => h) fun values hvalues => ?_)
  refine Reads.bind (Reads.lift fun text h => h) fun text htext => ?_
  refine Reads.bind (brickId_reads text) fun id hid => ?_
  refine Reads.bind (Reads.lift fun e h => h) fun e he => ?_
  have hstands := Formula.StandsFor.ref hvalues htext hid he
  have hnext := List.rel_append hids (List.Forall₂.cons hstands .nil)
  have hunused := Formula.unused_append_singleton used ids e
  by_cases hused : e ∈ used ++ Formula.unused used ids
  · rw [if_pos (by simpa using hused)]
    rw [if_pos hused] at hunused
    exact Reads.pure ⟨ids ++ [e], hnext, by rw [hunused]⟩
  · rw [if_neg (by simpa using hused)]
    rw [if_neg hused] at hunused
    exact Reads.pure ⟨ids ++ [e], hnext, by rw [hunused, List.append_assoc]⟩

/-- The bricks of a body, one list a brick, behind what they contribute at once. -/
theorem bodyIds_reads (conditions : List Condition) (left : Valuation) (bricks : List Brick)
    (used : List Id) :
    Reads φ (bodyIds conditions left bricks used) (fun lists =>
      ∀ starts, (bricks.map (startOf φ)).mapM (fun start => start) = some starts →
        φ.Laid conditions left used bricks (List.zipWith (· ++ ·) starts lists)) := by
  induction bricks generalizing used with
  | nil =>
      refine Reads.pure fun starts hstarts => ?_
      cases hstarts
      exact .nil
  | cons brick rest ih =>
      rw [bodyIds_cons]
      refine Reads.bind_formula (Reads.bind (Reads.lift fun found h => h) fun found hfound => ?_)
      have hsplit : ∀ starts, ((brick :: rest).map (startOf φ)).mapM (fun start => start) =
          some starts → ∃ start others, startOf φ brick = some start ∧
            (rest.map (startOf φ)).mapM (fun start => start) = some others ∧
            starts = start :: others := by
        intro starts hstarts
        rw [List.map_cons, List.mapM_cons] at hstarts
        obtain ⟨start, hstart, hstarts⟩ := Option.bind_eq_some_iff.mp hstarts
        obtain ⟨others, hothers, hstarts⟩ := Option.bind_eq_some_iff.mp hstarts
        cases hstarts
        exact ⟨start, others, hstart, hothers, rfl⟩
      cases brick with
      | all grouping =>
          refine Reads.bind (Reads.pure (R := (· = ([], used))) rfl) ?_
          rintro _ rfl
          refine Reads.bind (ih used) fun lists hlists => Reads.pure fun starts hstarts => ?_
          obtain ⟨start, others, hstart, hothers, rfl⟩ := hsplit starts hstarts
          rw [List.zipWith_cons_cons, List.append_nil]
          exact .all hstart (hlists others hothers)
      | ref negated name indices =>
          refine Reads.bind (brickIds_reads negated name indices left found used) ?_
          rintro _ ⟨ids, hids, rfl⟩
          refine Reads.bind (ih _) fun lists hlists => Reads.pure fun starts hstarts => ?_
          obtain ⟨start, others, hstart, hothers, rfl⟩ := hsplit starts hstarts
          cases hstart
          exact .ref hfound hids (hlists others hothers)

/-! ## Blocks -/

theorem saveBlock_leads {name : String} {E : Session → Prop} (h : φ.isDefined name = false) :
    Leads (fun s => s.formula = φ) (saveBlock name)
      (fun _ s => s.formula = φ.withBlock name) E := by
  have hblock : φ.blocks.contains name = false := (Bool.or_eq_false_iff.mp h).2
  refine Leads.bind_known ?_
  rw [if_neg (by simp [hblock])]
  exact Leads.update fun s hs => by rw [hs]; rfl

/-- A name that is in use has its identifier found. -/
theorem brickId_leads {name : String} {id : Id} {E : Session → Prop}
    (h : φ.idOf? name = some id) :
    Leads (fun s => s.formula = φ) (brickId name)
      (fun found s => s.formula = φ ∧ found = id) E := by
  refine Leads.bind_known ?_
  rw [h]
  exact Leads.pure fun s hs => ⟨hs, rfl⟩

theorem saveContents_leads {name : String} {id : Id} {body : List Id}
    {grouping : Option String} {E : Session → Prop} (h : φ.idOf? name = some id) :
    Leads (fun s => s.formula = φ) (saveContents name body grouping)
      (fun _ s => s.formula = φ.withContents ⟨name, id, body, grouping, none⟩) E := by
  refine Leads.bind (brickId_leads h) fun found => Leads.update fun s hs => ?_
  obtain ⟨rfl, rfl⟩ := hs
  rfl

/-- A new block of a definition, as it is for one valuation of the conditions. -/
structure Defines (φ : Formula) (definition : Definition) (conditions : List Condition)
    (grouping : Option String) (v : Valuation) (b : Block) : Prop where
  named : ∃ indices, φ.substitute definition.indices v = .ok indices ∧
    headName definition.name indices = .ok b.name
  fresh : φ.isDefined b.name = false
  id_eq : b.id = φ.counter + 1
  mem_body : ∀ e, e ∈ b.body ↔ (φ.withBlock b.name).InBody conditions
    (restrict v definition.indices) definition.bricks e
  grouping_eq : b.grouping = grouping
  mark_eq : b.mark = none

/-- A new block of a definition with its body in order. -/
structure Builds (φ : Formula) (definition : Definition) (conditions : List Condition)
    (grouping : Option String) (v : Valuation) (b : Block) : Prop where
  headed : φ.headOf definition v = .ok b.name
  fresh : φ.isDefined b.name = false
  id_eq : b.id = φ.counter + 1
  laid : ∃ parts, b.body = parts.flatten ∧
    (φ.withBlock b.name).Laid conditions (restrict v definition.indices) [] definition.bricks parts
  grouping_eq : b.grouping = grouping
  mark_eq : b.mark = none

theorem Builds.defines {definition : Definition} {conditions : List Condition}
    {grouping : Option String} {v : Valuation} {b : Block}
    (h : Builds φ definition conditions grouping v b) :
    Defines φ definition conditions grouping v b where
  named := exists_ok_of_bind h.headed
  fresh := h.fresh
  id_eq := h.id_eq
  mem_body := by
    obtain ⟨parts, hbody, hlaid⟩ := h.laid
    intro e
    simpa [hbody] using hlaid.mem_iff e
  grouping_eq := h.grouping_eq
  mark_eq := h.mark_eq

/-- All that can come of defining one block: the name is taken and nothing happens, or the
block is registered and gets its contents, or a fault leaves the formula as it was or with
the bare name in the register. -/
theorem addBlock_builds (definition : Definition) (conditions : List Condition)
    (grouping : Option String) (v : Valuation) :
    Leads (fun s => s.formula = φ) (addBlock definition conditions grouping v)
      (fun result s =>
        (result = none ∧ s.formula = φ ∧
          ∃ name, φ.headOf definition v = .ok name ∧ φ.isDefined name = true) ∨
        ∃ b, Builds φ definition conditions grouping v b ∧ result = some b.id ∧
          s.formula = (φ.withBlock b.name).withContents b)
      (fun s => s.formula = φ ∨
        ∃ name, φ.isDefined name = false ∧ s.formula = φ.withBlock name) := by
  have hkept : ∀ s : Session, s.formula = φ → s.formula = φ ∨
      ∃ name, φ.isDefined name = false ∧ s.formula = φ.withBlock name := fun s hs => Or.inl hs
  refine Leads.bind_known (Reads.andThen (Reads.lift fun _ h => h) hkept fun indices hindices => ?_)
  refine Reads.andThen (Reads.lift fun _ h => h) hkept fun name hname => ?_
  have hhead : φ.headOf definition v = .ok name := by
    rw [Formula.headOf, hindices]
    exact hname
  refine Leads.bind_known ?_
  cases hdefined : φ.isDefined name with
  | true => exact Leads.pure fun s hs => Or.inl ⟨rfl, hs, name, hhead, hdefined⟩
  | false =>
      have hregistered : ∀ s : Session, s.formula = φ.withBlock name → s.formula = φ ∨
          ∃ name, φ.isDefined name = false ∧ s.formula = φ.withBlock name :=
        fun s hs => Or.inr ⟨name, hdefined, hs⟩
      have hid := Formula.idOf?_withBlock hdefined
      refine Leads.bind (saveBlock_leads hdefined) fun _ => ?_
      refine Reads.andThen (brickId_reads name) hregistered fun id hfound => ?_
      refine Reads.andThen (Reads.mapM_eq _ fun brick _ => brickStart_reads brick) hregistered
        fun starts hstarts => ?_
      refine Reads.andThen (bodyIds_reads conditions (restrict v definition.indices)
        definition.bricks []) hregistered fun lists hlists => ?_
      cases hall : starts.mapM (fun start => start) with
      | none => exact Leads.throw hregistered
      | some members =>
          rw [hstarts] at hall
          rw [hid, Option.some.injEq] at hfound
          subst hfound
          refine Leads.bind (saveContents_leads hid) fun _ => Leads.pure fun s hs => ?_
          let b : Block := ⟨name, φ.counter + 1,
            (List.zipWith (· ++ ·) members lists).flatten, grouping, none⟩
          exact Or.inr ⟨b, ⟨hhead, hdefined, rfl, ⟨_, rfl, hlists members hall⟩, rfl, rfl⟩, rfl, hs⟩

theorem addBlock_leads (definition : Definition) (conditions : List Condition)
    (grouping : Option String) (v : Valuation) :
    Leads (fun s => s.formula = φ) (addBlock definition conditions grouping v)
      (fun result s => (result = none ∧ s.formula = φ) ∨
        ∃ b, Defines φ definition conditions grouping v b ∧ result = some b.id ∧
          s.formula = (φ.withBlock b.name).withContents b)
      (fun s => s.formula = φ ∨
        ∃ name, φ.isDefined name = false ∧ s.formula = φ.withBlock name) := by
  refine Leads.mono (addBlock_builds definition conditions grouping v) (fun _ hs => hs) ?_
    fun _ hs => hs
  rintro result s (⟨hnone, hs, -⟩ | ⟨b, hbuilds, hsome, hs⟩)
  · exact Or.inl ⟨hnone, hs⟩
  · exact Or.inr ⟨b, hbuilds.defines, hsome, hs⟩

end Action

end QuantFamily
