import QuantFamily.Proofs.Circuit.Listing

/-!
# The table of places

The walk through a circuit shares one table and one counter. A literal gets a new index every time
it is met, a gate gets one index once, and an index is never given out again. So no two places are
the same, and together with the levels this makes the table a topological order: in the order of the
places every gate comes after its inputs. Gate lines are written in this order, and the check that
all inputs of a gate have been written never fails.

A gate without inputs has no place. If there is one, there is no table.
-/

namespace QuantFamily.Circuit

/-! ## Indices along the walk -/

/-- All indices of places have been given out, none of them twice. -/
structure Walk.Indexed (w : Walk) : Prop where
  below : ∀ entry ∈ w.places.entries, entry.2.index < w.next
  distinct : (w.places.entries.map fun entry => entry.2.index).Nodup

namespace Walking

variable {w u : Walk} {c : Circuit} {cs : List Circuit} {I : Walk → Prop}

theorem visitAll_keeps {level found : Nat}
    (visits : ∀ c ∈ cs, ∀ w u : Walk, I w → visit c w = .ok () u → I u) (hw : I w)
    (run : visitAll cs level w = .ok found u) : I u := by
  induction cs generalizing w level with
  | nil =>
      rw [visitAll] at run
      cases run
      exact hw
  | cons c cs ih =>
      rw [List.forall_mem_cons] at visits
      rw [visitAll] at run
      obtain ⟨_, v, hvisit, run⟩ := exists_of_run_bind run
      obtain ⟨own, v', hlevel, run⟩ := exists_of_run_bind run
      rw [levelOf_run hlevel] at run
      exact ih visits.2 (visits.1 w v hw hvisit) run

/-- What every placement keeps is kept by the walk through a circuit. -/
theorem visit_keeps (step : ∀ c level w u, I w → place c level w = .ok () u → I u) (c : Circuit)
    (w u : Walk) (hw : I w) (run : visit c w = .ok () u) : I u := by
  induction c using inputsInduction generalizing w u with
  | step c ih =>
      rcases visit_cases run with ⟨-, hplace⟩ | ⟨-, rfl⟩ | ⟨d, rfl, hinput⟩ |
        ⟨-, -, -, level, v, hinputs, hplace⟩
      · exact step c 1 w u hw hplace
      · exact hw
      · exact ih d (by simp [inputs]) w u hw hinput
      · exact step c (level + 1) v u (visitAll_keeps ih hw hinputs) hplace

/-- A circuit that has a place already, such as a literal, gives up its index. -/
theorem place_indexed (c : Circuit) (level : Nat) (w u : Walk) (h : w.Indexed)
    (run : place c level w = .ok () u) : u.Indexed := by
  cases run
  refine ⟨fun entry hentry => ?_, ?_⟩
  · rcases Table.mem_or_eq_of_mem_put hentry with rfl | hentry
    · exact Nat.lt_succ_self _
    · exact Nat.lt_succ_of_lt (h.below entry hentry)
  · have hnew : w.next ∉ w.places.entries.map fun entry => entry.2.index := by
      intro hmem
      obtain ⟨entry, hentry, heq⟩ := List.mem_map.mp hmem
      exact absurd (h.below entry hentry) (heq ▸ Nat.lt_irrefl _)
    have hdistinct := h.distinct
    cases hget : w.places.get? c with
    | none =>
        rw [Table.entries_put_of_not_mem _ (Table.get?_eq_none_iff.mp hget), List.map_append]
        exact List.nodup_append_comm.mp (List.nodup_cons.mpr ⟨hnew, hdistinct⟩)
    | some old =>
        obtain ⟨before, after, hentries, hput⟩ := Table.exists_entries_put_of_get? hget
        rw [hentries, List.map_append, List.map_cons] at hnew hdistinct
        rw [hput, List.map_append, List.map_cons]
        have hrest := (List.nodup_middle.mp hdistinct).of_cons
        refine List.nodup_middle.mpr (List.nodup_cons.mpr ⟨fun hmem => hnew ?_, hrest⟩)
        rw [List.mem_append, List.mem_cons]
        exact (List.mem_append.mp hmem).imp_right Or.inr

end Walking

theorem nodup_values_of_places {c : Circuit} {found : Table Circuit Place}
    (h : places c = .ok found) : found.values.Nodup := by
  unfold places at h
  split at h
  case h_1 walk hrun =>
    cases h
    have hindexed := Walking.visit_keeps Walking.place_indexed c {} walk ⟨by simp, by simp⟩ hrun
    have hindices := hindexed.distinct
    rw [← Function.comp_def Place.index Prod.snd, ← List.map_map] at hindices
    exact hindices.of_map
  case h_2 => cases h

/-! ## Gates above their inputs -/

theorem exists_place_below {c g d : Circuit} {p : Place} {found : Table Circuit Place}
    (tidy : c.Tidy) (h : places c = .ok found) (hg : found.get? g = some p) (hd : d ∈ g.inputs) :
    ∃ q, found.get? d.base = some q ∧ q.level < p.level := by
  obtain ⟨-, hkeys⟩ := keys_of_places h
  obtain ⟨hpart, hnode⟩ := (hkeys g).mp (Table.mem_keys_of_get? hg)
  have hgate : g.isLit = false := by
    cases g with
    | lit n => simp [inputs] at hd
    | _ => rfl
  have hinput : d ∈ c.parts := mem_parts_trans hpart (mem_parts_of_input hd (mem_parts_self d))
  have hbase : d.base ∈ found.keys :=
    (hkeys _).mpr ⟨mem_parts_trans hinput (base_mem_parts d), isNode_base (tidy d hinput)⟩
  obtain ⟨q, hq⟩ :=
    Option.ne_none_iff_exists'.mp (mt Table.get?_eq_none_iff.mp (not_not_intro hbase))
  refine ⟨q, hq, ?_⟩
  have hlevel : p.level = g.depth :=
    (places_hold rises_depth h _ (Table.mem_entries_of_get? hg)).1
  have hbelow : q.level = d.base.depth :=
    (places_hold rises_depth h _ (Table.mem_entries_of_get? hq)).1
  rw [hlevel, hbelow, depth_base]
  exact depth_lt_of_input hnode hgate hd

/-- In the order of the places an input stands before its gate: from the gate on, no level is lower
than that of the gate. -/
theorem base_mem_before {c g d : Circuit} {p : Place} {found : Table Circuit Place}
    {before after : List (Circuit × Place)} (tidy : c.Tidy) (h : places c = .ok found)
    (horder : sorted found = before ++ (g, p) :: after) (hd : d ∈ g.inputs) :
    d.base ∈ before.map Prod.fst := by
  have hentry : (g, p) ∈ found.entries := by
    rw [← mem_sorted, horder]
    exact List.mem_append_right _ List.mem_cons_self
  have hget : found.get? g = some p := Table.get?_of_mem_entries (keys_of_places h).1 hentry
  obtain ⟨q, hq, hlevel⟩ := exists_place_below tidy h hget hd
  have hpairwise := sorted_pairwise found
  have hmem := mem_sorted.mpr (Table.mem_entries_of_get? hq)
  rw [horder] at hpairwise hmem
  rcases List.mem_append.mp hmem with hbefore | hafter
  · exact List.mem_map_of_mem hbefore
  · have hle : p.level ≤ q.level := by
      rcases List.mem_cons.mp hafter with heq | hafter
      · rw [(Prod.mk.inj heq).2]
      · exact (List.pairwise_cons.mp (List.pairwise_append.mp hpairwise).2.1).1 _ hafter
    omega

theorem isNode_iff {d : Circuit} (tidy : d.isTidy = true) :
    d.isNode = true ↔ d.isLit = true ∨ d.isGate = true := by
  constructor
  · intro hnode
    by_cases hlit : d.isLit = true
    · exact Or.inl hlit
    · exact Or.inr (isGate_of_isTidy tidy hnode (by simpa using hlit))
  · rintro (hlit | hgate)
    · cases d <;> first | rfl | cases hlit
    · exact isNode_of_isGate hgate

/-- A table with a place for each literal and gate of a circuit and for nothing else. No two places
are the same, gates are above their inputs, and in the order of the places they come after them. -/
structure Arranges (c : Circuit) (found : Table Circuit Place) : Prop where
  once : found.keys.Nodup
  mem_keys : ∀ d, d ∈ found.keys ↔ d ∈ c.parts ∧ (d.isLit = true ∨ d.isGate = true)
  distinct : found.values.Nodup
  above : ∀ g p, found.get? g = some p → ∀ d ∈ g.inputs,
    ∃ q, found.get? d.base = some q ∧ q.level < p.level
  complete : (sorted found).Perm found.entries
  inOrder : ∀ before g p after, sorted found = before ++ (g, p) :: after → ∀ d ∈ g.inputs,
    d.base ∈ before.map Prod.fst

theorem arranges_of_places {c : Circuit} {found : Table Circuit Place} (tidy : c.Tidy)
    (h : places c = .ok found) : c.Arranges found where
  once := (keys_of_places h).1
  mem_keys d := by
    rw [(keys_of_places h).2, and_congr_right_iff]
    exact fun hd => isNode_iff (tidy d hd)
  distinct := nodup_values_of_places h
  above _ _ hg _ hd := exists_place_below tidy h hg hd
  complete := List.mergeSort_perm _ _
  inOrder _ _ _ _ horder _ hd := base_mem_before tidy h horder hd

/-! ## Gate lines -/

/-- Writing ends without fault, whatever has been written before. -/
def Writing.EndsWell (writing : Writing Unit) : Prop :=
  ∀ text, ∃ longer, writing text = .ok () longer

namespace Writing

variable {α : Type} {first second : Writing Unit}

theorem endsWell_emit (text : String) : EndsWell (emit text) := fun _ => ⟨_, rfl⟩

theorem EndsWell.bind (h : EndsWell first) (h' : EndsWell second) :
    EndsWell (first >>= fun _ => second) := by
  intro text
  obtain ⟨longer, hfirst⟩ := h text
  rw [run_bind_of_ok hfirst]
  exact h' longer

theorem EndsWell.lift {outcome : Except Fault α} {a : α} {next : α → Writing Unit}
    (houtcome : outcome = .ok a) (h : EndsWell (next a)) :
    EndsWell (Writing.lift outcome >>= next) := by
  subst houtcome
  exact h

end Writing

section Lines

variable {setting : Setting} {l : Layout} {c : Circuit}

/-- Gates in order pass the check on their inputs. -/
theorem endsWell_gateLines {gates : List (Circuit × Place)} (done : List Circuit)
    (inOrder : InOrder done (gates.map (·.1)))
    (tidy : ∀ c ∈ gates.map (·.1), ∀ d ∈ c.inputs, d.isTidy = true)
    (numbered : ∀ c ∈ gates.map (·.1), (∃ n, l.numbers.get? c = some n) ∧
      ∀ d ∈ c.inputs, ∃ n, l.numbers.get? d = some n) (level : Option Nat) :
    (gateLines setting l gates (done.flatMap fun c => [c, .neg c]) level).EndsWell := by
  induction gates generalizing done level with
  | nil => exact fun text => ⟨text, rfl⟩
  | cons entry gates ih =>
      obtain ⟨c, place⟩ := entry
      rw [List.map_cons, List.forall_mem_cons] at tidy numbered
      have hrest := ih (c :: done) inOrder.2 tidy.2 numbered.2 (some place.level)
      rw [gateLines]
      simp only [inputs_written tidy.1 inOrder.1, Bool.not_true, Bool.false_eq_true, if_false]
      have hgate (line : String) :=
        (Writing.endsWell_emit (formerNames setting (numberOf l.numbers c) c)).bind
          ((Writing.endsWell_emit line).bind hrest)
      refine .lift (numbers_eq numbered.1.2) ?_
      split
      · exact (Writing.endsWell_emit _).bind (.lift (number_eq numbered.1.1) (hgate _))
      · exact .lift (number_eq numbered.1.1) (hgate _)

theorem endsWell_scopes {scopes : List Scope}
    (known : ∀ scope ∈ scopes, ∀ word, scope.binder ≠ .unknown word) :
    Writing.EndsWell (scopes.forM scopeLine) := by
  induction scopes with
  | nil => exact fun text => ⟨text, rfl⟩
  | cons scope scopes ih =>
      rw [List.forall_mem_cons] at known
      have hline : Writing.EndsWell (scopeLine scope) := by
        unfold scopeLine
        split
        · rename_i word hbinder
          exact absurd hbinder (known.1 word)
        · exact Writing.endsWell_emit _
      exact hline.bind (ih known.2)

/-- Where there is a layout, writing ends well. -/
theorem endsWell_writeGates (tidy : c.Tidy) (h : layout setting.gateNames c = .ok l)
    {scopes : List Scope} (known : ∀ scope ∈ scopes, ∀ word, scope.binder ≠ .unknown word) :
    (writeGates setting scopes c).EndsWell := by
  have hlines : (gateLines setting l l.gates [] none).EndsWell :=
    endsWell_gateLines [] (inOrder_gates tidy h) (tidy_of_layout tidy h) (numbered_of_layout tidy h)
      none
  rw [writeGates_eq tidy.ne_const]
  exact .lift h ((Writing.endsWell_emit _).bind ((Writing.endsWell_emit _).bind
    ((endsWell_scopes known).bind (.lift (number_eq (number_of_part tidy h (mem_parts_self c)))
      ((Writing.endsWell_emit _).bind hlines)))))

end Lines

/-! ## Faults of the numbering -/

theorem fault_of_takeFree {numbering : Numbering} {c : Circuit} {fault : Fault}
    (h : numbering.takeFree c = .error fault) : fault = .missingEntry := by
  unfold Numbering.takeFree at h
  split at h
  · cases h
  · split at h
    · exact (Except.error.inj h).symm
    · cases h

theorem fault_of_foldlM_takeFree {cs : List Circuit} {numbering : Numbering} {fault : Fault}
    (h : cs.foldlM Numbering.takeFree numbering = .error fault) : fault = .missingEntry := by
  induction cs generalizing numbering with
  | nil => cases h
  | cons c cs ih =>
      rw [List.foldlM_cons] at h
      cases htake : numbering.takeFree c with
      | error first =>
          rw [htake] at h
          cases h
          exact fault_of_takeFree htake
      | ok next =>
          rw [htake] at h
          exact ih h

/-- If all gates have places, then a layout can fail for want of a number only. -/
theorem fault_of_layout {given : Table Circuit (List String)} {c : Circuit}
    {found : Table Circuit Place} {fault : Fault} (hfound : places c = .ok found)
    (h : layout given c = .error fault) : fault = .missingEntry := by
  unfold layout Numbering.ofCircuits at h
  rw [hfound] at h
  simp only [bind, Except.bind] at h
  split at h
  · rename_i hnumbers
    cases h
    split at hnumbers
    · rename_i hfree
      cases hnumbers
      exact fault_of_foldlM_takeFree hfree
    · cases hnumbers
  · cases h

/-- A circuit of gates over literals that all have inputs has a table of places, in which every
literal and gate is in a place of its own and every gate is above its inputs. The order of the
places is a topological one, so no gate fails the check that its inputs have been written. If a gate
has no inputs, there is no table. -/
theorem places_arrange {c : Circuit} (tidy : c.Tidy) :
    ((∀ d ∈ c.parts, d.isBare = false) →
      ∃ found, places c = .ok found ∧ c.Arranges found ∧
        ∀ (setting : Setting) (scopes : List Scope),
          (∀ scope ∈ scopes, ∀ word, scope.binder ≠ .unknown word) →
            (writeGates setting scopes c).outcome.fault ≠ some .failedCheck) ∧
      ((∃ found, places c = .ok found) → ∀ d ∈ c.parts, d.isBare = false) := by
  refine ⟨fun filled => ?_, (places_ok_iff tidy).mp⟩
  obtain ⟨found, hfound⟩ := (places_ok_iff tidy).mpr filled
  refine ⟨found, hfound, arranges_of_places tidy hfound, fun setting scopes known => ?_⟩
  cases hlayout : layout setting.gateNames c with
  | ok l =>
      obtain ⟨text, hrun⟩ := endsWell_writeGates tidy hlayout known ""
      simp [Writing.outcome, EStateM.run, hrun]
  | error fault =>
      have hrun : writeGates setting scopes c "" = .error fault "" := by
        rw [writeGates_eq tidy.ne_const, hlayout]
        rfl
      simp [Writing.outcome, EStateM.run, hrun, fault_of_layout hfound hlayout]

/-- A gate with a repeated literal that is an input twice, once negated. -/
def reusedGate : Circuit :=
  .xor (.neg (.and [.lit 1, .lit (-2), .lit 1]))
    (.ite (.lit 3) (.and [.lit 1, .lit (-2), .lit 1]) (.lit 1))

theorem places_arrange_reused :
    reusedGate.Tidy ∧ (∀ d ∈ reusedGate.parts, d.isBare = false) ∧
      ∃ found, places reusedGate = .ok found ∧ reusedGate.Arranges found ∧
        (writeGates {} [⟨.exists, [1, 2, 3]⟩] reusedGate).outcome.fault ≠ some .failedCheck := by
  have tidy : reusedGate.Tidy := by decide
  have filled : ∀ d ∈ reusedGate.parts, d.isBare = false := by decide
  obtain ⟨found, hfound, arranges, writes⟩ := (places_arrange tidy).1 filled
  exact ⟨tidy, filled, found, hfound, arranges, writes {} [⟨.exists, [1, 2, 3]⟩] (by simp)⟩

/-- A gate without inputs is taken for a constant and has no place. -/
theorem hollow_gate_has_no_place :
    (Circuit.and []).parts = [.and []] ∧ (Circuit.and []).isTidy = true ∧
      places (.and []) = .error (.unexpectedConstant "('and',)") := by
  refine ⟨by decide, rfl, ?_⟩
  unfold places Walking.visit
  rfl

end QuantFamily.Circuit
