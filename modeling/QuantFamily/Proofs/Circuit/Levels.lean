import QuantFamily.Proofs.Circuit.Clauses
import QuantFamily.Proofs.Circuit.Layout

/-!
# Levels of gates

What the walk knows of the levels passes from the inputs of a gate to the gate. So a literal or
gate is on the level of its depth: one for a literal, and for a gate one more than the greatest
depth of its inputs. In the order of the levels every gate comes after its inputs.

The walk through a circuit of gates over literals ends well if and only if every gate has inputs.
-/

namespace QuantFamily.Circuit

/-- The literal or gate that a circuit is, perhaps negated. -/
def base : Circuit → Circuit
  | .neg c => c
  | c => c

theorem base_mem_parts (c : Circuit) : c.base ∈ c.parts := by
  cases c with
  | neg d => exact mem_parts_of_input (by simp [inputs]) (mem_parts_self d)
  | _ => exact mem_parts_self _

theorem eq_base_or_neg (c : Circuit) : c = c.base ∨ c = .neg c.base := by
  cases c <;> simp [base]

/-- A literal, a gate, or the negation of a gate. -/
def isTidy : Circuit → Bool
  | .lit _ => true
  | .neg c => c.isGate
  | c => c.isGate

/-- A circuit of gates over literals, zero being one of them, without constants, and with negations
at gates only. -/
abbrev Tidy (c : Circuit) : Prop :=
  c.Everywhere isTidy

theorem isTidy_of_isPlain {c : Circuit} (h : c.isPlain = true) : c.isTidy = true := by
  cases c <;> first | rfl | exact h

theorem Plain.tidy {c : Circuit} (plain : c.Plain) : c.Tidy :=
  fun d hd => isTidy_of_isPlain (plain d hd)

theorem Tidy.ne_const {c : Circuit} (tidy : c.Tidy) (b : Bool) : c ≠ .const b := by
  rintro rfl
  cases tidy _ (mem_parts_self _)

theorem isLit_of_base {c : Circuit} (h : c.isTidy = true) (hlit : c.base.isLit = true) :
    c.isLit = true := by
  cases c with
  | neg d =>
      cases d with
      | lit n => cases h
      | _ => cases hlit
  | _ => exact hlit

theorem isNode_base {c : Circuit} (h : c.isTidy = true) : c.base.isNode = true := by
  cases c with
  | neg d => cases d <;> first | rfl | cases h
  | const b => cases h
  | _ => rfl

theorem isGate_of_isTidy {c : Circuit} (h : c.isTidy = true) (node : c.isNode = true)
    (gate : c.isLit = false) : c.isGate = true := by
  cases c with
  | lit n => cases gate
  | neg d => cases node
  | _ => exact h

/-! ## Levels along the walk -/

section Levels

/-- What is said of circuits and their levels is true of all places that were found. -/
def Walk.Holds (P : Circuit → Nat → Prop) (w : Walk) : Prop :=
  ∀ entry ∈ w.places.entries, P entry.1 entry.2.level

/-- A level is that of the highest among some circuits. -/
structure Highest (P : Circuit → Nat → Prop) (cs : List Circuit) (level : Nat) : Prop where
  le : ∀ c ∈ cs, ∃ own ≤ level, P c.base own
  reached : ∃ c ∈ cs, P c.base level

/-- What is true of literals on the first level, and passes from the inputs of a gate to the gate
one level above them. -/
structure Rises (P : Circuit → Nat → Prop) : Prop where
  literal : ∀ n, P (.lit n) 1
  gate : ∀ c level, c.isNode = true → c.isLit = false → Highest P c.inputs level → P c (level + 1)

namespace Walking

variable {P : Circuit → Nat → Prop} {w u : Walk} {c : Circuit} {cs : List Circuit}

theorem place_holds {level : Nat} (holds : w.Holds P) (h : P c level)
    (run : place c level w = .ok () u) : u.Holds P := by
  cases run
  intro entry hentry
  rcases Table.mem_or_eq_of_mem_put hentry with rfl | hentry
  · exact h
  · exact holds entry hentry

theorem levelOf_of_some {p : Place} (h : w.places.get? c.base = some p) :
    levelOf c w = .ok p.level w := by
  have hget : (get : Walking Walk) w = .ok w w := rfl
  unfold levelOf
  rw [run_bind_of_ok hget]
  cases c <;> simp only [base] at h <;> simp only [h] <;> rfl

theorem levelOf_of_none (h : w.places.get? c.base = none) :
    levelOf c w = .error .missingEntry w := by
  have hget : (get : Walking Walk) w = .ok w w := rfl
  unfold levelOf
  rw [run_bind_of_ok hget]
  cases c <;> simp only [base] at h <;> simp only [h] <;> rfl

theorem levelOf_holds {level : Nat} (holds : w.Holds P) (run : levelOf c w = .ok level u) :
    P c.base level := by
  cases hfound : w.places.get? c.base with
  | none =>
      rw [levelOf_of_none hfound] at run
      cases run
  | some p =>
      rw [levelOf_of_some hfound] at run
      cases run
      exact holds _ (Table.mem_entries_of_get? hfound)

theorem visitAll_holds {level found : Nat}
    (visits : ∀ c ∈ cs, ∀ w u : Walk, w.Holds P → visit c w = .ok () u → u.Holds P)
    (holds : w.Holds P) (run : visitAll cs level w = .ok found u) :
    u.Holds P ∧ level ≤ found ∧ (∀ c ∈ cs, ∃ own ≤ found, P c.base own) ∧
      (found = level ∨ ∃ c ∈ cs, P c.base found) := by
  induction cs generalizing w level with
  | nil =>
      rw [visitAll] at run
      cases run
      exact ⟨holds, le_rfl, by simp, Or.inl rfl⟩
  | cons c cs ih =>
      rw [List.forall_mem_cons] at visits
      rw [visitAll] at run
      obtain ⟨_, v, hvisit, run⟩ := exists_of_run_bind run
      obtain ⟨own, v', hlevel, run⟩ := exists_of_run_bind run
      have hv := visits.1 w v holds hvisit
      have hown := levelOf_holds hv hlevel
      rw [levelOf_run hlevel] at run
      obtain ⟨hu, hle, hall, hreached⟩ := ih visits.2 hv run
      refine ⟨hu, by omega, List.forall_mem_cons.mpr ⟨⟨own, by omega, hown⟩, hall⟩, ?_⟩
      rcases hreached with hfound | ⟨d, hd, hreached⟩
      · by_cases h : own ≤ level
        · exact Or.inl (by omega)
        · have heq : found = own := by omega
          exact Or.inr ⟨c, List.mem_cons_self, heq ▸ hown⟩
      · exact Or.inr ⟨d, List.mem_cons_of_mem c hd, hreached⟩

theorem visit_holds (rises : Rises P) (c : Circuit) (w u : Walk) (holds : w.Holds P)
    (run : visit c w = .ok () u) : u.Holds P := by
  induction c using inputsInduction generalizing w u with
  | step c ih =>
      rcases visit_cases run with ⟨hlit, hplace⟩ | ⟨-, rfl⟩ | ⟨d, rfl, hinput⟩ |
        ⟨hnode, hgate, hfilled, level, v, hinputs, hplace⟩
      · cases c with
        | lit n => exact place_holds holds (rises.literal n) hplace
        | _ => cases hlit
      · exact holds
      · exact ih d (by simp [inputs]) w u holds hinput
      · obtain ⟨hv, -, hall, hreached⟩ := visitAll_holds ih holds hinputs
        refine place_holds hv (rises.gate c level hnode hgate ⟨hall, ?_⟩) hplace
        rcases hreached with rfl | hreached
        · obtain ⟨d, hd⟩ := List.exists_mem_of_ne_nil _ hfilled
          obtain ⟨own, hown, h⟩ := hall d hd
          exact ⟨d, hd, Nat.le_zero.mp hown ▸ h⟩
        · exact hreached

end Walking

theorem places_hold {P : Circuit → Nat → Prop} (rises : Rises P) {c : Circuit}
    {found : Table Circuit Place} (h : places c = .ok found) :
    ∀ entry ∈ found.entries, P entry.1 entry.2.level := by
  unfold places at h
  split at h
  case h_1 walk hrun =>
    cases h
    exact Walking.visit_holds rises c _ _ (by simp [Walk.Holds]) hrun
  case h_2 => cases h

end Levels

/-! ## Depth -/

mutual

/-- The level of a circuit. A negation is on the level of its input. -/
def depth : Circuit → Nat
  | .lit _ => 1
  | .const _ => 1
  | .neg c => depth c
  | .and args => greatestDepth args + 1
  | .or args => greatestDepth args + 1
  | .xor a b => max (depth a) (depth b) + 1
  | .ite c t e => max (depth c) (max (depth t) (depth e)) + 1
  | .other _ args => greatestDepth args + 1

def greatestDepth : List Circuit → Nat
  | [] => 0
  | c :: cs => max (depth c) (greatestDepth cs)

end

theorem greatestDepth_le_iff {cs : List Circuit} {n : Nat} :
    greatestDepth cs ≤ n ↔ ∀ c ∈ cs, c.depth ≤ n := by
  induction cs with
  | nil => simp [greatestDepth]
  | cons c cs ih => rw [greatestDepth, Nat.max_le, ih, List.forall_mem_cons]

theorem depth_base (c : Circuit) : c.base.depth = c.depth := by
  cases c <;> rfl

section Gate

variable {c : Circuit} (node : c.isNode = true) (gate : c.isLit = false)

include node gate

theorem depth_gate : c.depth = greatestDepth c.inputs + 1 := by
  cases c with
  | lit n => cases gate
  | const b | neg d => cases node
  | _ => simp [depth, greatestDepth, inputs]

theorem depth_lt_of_input {d : Circuit} (hd : d ∈ c.inputs) : d.depth < c.depth := by
  rw [depth_gate node gate]
  exact Nat.lt_succ_of_le (greatestDepth_le_iff.mp le_rfl d hd)

end Gate

/-- Every place is on the level of its depth, and gates without inputs have no place. -/
theorem rises_depth : Rises fun c level => level = c.depth ∧ c.isBare = false := by
  refine ⟨fun n => ⟨rfl, rfl⟩, fun c level node gate highest => ?_⟩
  obtain ⟨d, hd, hlevel, -⟩ := highest.reached
  rw [depth_base] at hlevel
  have hle : greatestDepth c.inputs ≤ level := by
    rw [greatestDepth_le_iff]
    intro e he
    obtain ⟨own, hown, heq, -⟩ := highest.le e he
    rw [depth_base] at heq
    omega
  have hlt := depth_lt_of_input node gate hd
  rw [depth_gate node gate] at hlt ⊢
  refine ⟨by omega, ?_⟩
  rw [isBare, List.isEmpty_eq_false_iff.mpr (List.ne_nil_of_mem hd)]
  exact Bool.and_false _

/-! ## Walks that end well -/

namespace Walking

variable {w : Walk} {c : Circuit} {cs : List Circuit}

theorem levelOf_ok (h : c.base ∈ w.places.keys) : ∃ level, levelOf c w = .ok level w := by
  obtain ⟨p, hp⟩ := Option.ne_none_iff_exists'.mp (mt Table.get?_eq_none_iff.mp (not_not_intro h))
  exact ⟨p.level, levelOf_of_some hp⟩

theorem visitAll_ok {level : Nat} (bases : ∀ c ∈ cs, c.base.isNode = true)
    (visits : ∀ c ∈ cs, ∀ w : Walk, w.Closed → ∃ u, visit c w = .ok () u) (closed : w.Closed) :
    ∃ found u, visitAll cs level w = .ok found u := by
  induction cs generalizing w level with
  | nil => exact ⟨level, w, by rw [visitAll]; rfl⟩
  | cons c cs ih =>
      rw [List.forall_mem_cons] at bases visits
      obtain ⟨v, hvisit⟩ := visits.1 w closed
      have hadds := visit_adds c w v closed hvisit
      have hbase : c.base ∈ v.places.keys :=
        (hadds.mem_keys _).mpr (Or.inr ⟨base_mem_parts c, bases.1⟩)
      obtain ⟨own, hlevel⟩ := levelOf_ok hbase
      rw [visitAll, run_bind_of_ok hvisit, run_bind_of_ok hlevel]
      exact ih bases.2 visits.2 hadds.closed

theorem unless_placed_ok {fill : Walking Unit} (h : ∃ u, fill w = .ok () u) :
    ∃ u, (get >>= fun s => if s.places.contains c = true then pure () else fill) w = .ok () u := by
  obtain ⟨u, hu⟩ := h
  by_cases hplaced : w.places.contains c = true
  · exact ⟨w, by rw [run_bind_of_ok (by rfl), if_pos hplaced]; rfl⟩
  · exact ⟨u, by rw [run_bind_of_ok (by rfl), if_neg hplaced, hu]⟩

theorem visit_ok (tidy : c.Tidy) (filled : ∀ d ∈ c.parts, d.isBare = false)
    (closed : w.Closed) : ∃ u, visit c w = .ok () u := by
  induction c using inputsInduction generalizing w with
  | step c ih =>
      have hinputs : ∀ d ∈ c.inputs, ∀ w : Walk, w.Closed → ∃ u, visit d w = .ok () u :=
        fun d hd w closed => ih d hd ((everywhere_iff.mp tidy).2 d hd)
          (fun e he => filled e (mem_parts_of_input hd he)) closed
      have hbases : ∀ d ∈ c.inputs, d.base.isNode = true := fun d hd =>
        isNode_base (tidy d (mem_parts_of_input hd (mem_parts_self d)))
      have hgate (node : c.isNode = true) (gate : c.isLit = false) : ∃ u, visit c w = .ok () u := by
        have hne : c.inputs ≠ [] := by simpa [isBare, gate] using filled c (mem_parts_self c)
        rw [visit_gate node gate hne]
        apply unless_placed_ok
        obtain ⟨found, v, hv⟩ := visitAll_ok hbases hinputs closed
        rw [run_bind_of_ok hv]
        exact ⟨_, rfl⟩
      cases c with
      | lit n => exact ⟨_, by rw [visit]; rfl⟩
      | const b => cases tidy _ (mem_parts_self _)
      | neg d =>
          rw [visit]
          exact unless_placed_ok (hinputs d (by simp [inputs]) w closed)
      | _ => exact hgate rfl rfl

end Walking

/-- The places of a circuit of gates over literals can be found if and only if all its gates have
inputs. -/
theorem places_ok_iff {c : Circuit} (tidy : c.Tidy) :
    (∃ found, places c = .ok found) ↔ ∀ d ∈ c.parts, d.isBare = false := by
  constructor
  · rintro ⟨found, h⟩ d hd
    by_cases node : d.isNode = true
    · have hkey : d ∈ found.keys := ((keys_of_places h).2 d).mpr ⟨hd, node⟩
      obtain ⟨entry, hentry, rfl⟩ := List.mem_map.mp hkey
      exact (places_hold rises_depth h entry hentry).2
    · cases d with
      | neg e => rfl
      | const b => cases tidy _ hd
      | _ => exact absurd rfl node
  · intro filled
    have hempty : ({} : Walk).Closed := ⟨List.nodup_nil, by simp [Table.keys], by simp [Table.keys]⟩
    obtain ⟨u, hu⟩ := Walking.visit_ok tidy filled hempty
    refine ⟨u.places, ?_⟩
    unfold places EStateM.run
    rw [hu]

/-! ## Inputs before gates -/

theorem sorted_pairwise (found : Table Circuit Place) :
    (sorted found).Pairwise fun a b => a.2.level ≤ b.2.level := by
  have hearlier : (sorted found).Pairwise fun a b => isEarlier a b = true :=
    List.pairwise_mergeSort isEarlier_trans isEarlier_total found.entries
  refine hearlier.imp fun {a b} hab => ?_
  simp only [isEarlier, Bool.or_eq_true, Bool.and_eq_true, decide_eq_true_eq] at hab
  omega

theorem mem_sorted {found : Table Circuit Place} {entry : Circuit × Place} :
    entry ∈ sorted found ↔ entry ∈ found.entries :=
  (List.mergeSort_perm found.entries _).mem_iff

/-- Every circuit of a list comes after its inputs, if some circuits are there already. -/
def InOrder : List Circuit → List Circuit → Prop
  | _, [] => True
  | done, c :: rest =>
      (∀ d ∈ c.inputs, d.base.isLit = true ∨ d.base ∈ done) ∧ InOrder (c :: done) rest

theorem inOrder_of_pairwise {gates done : List Circuit}
    (pairwise : gates.Pairwise fun c d => c.depth ≤ d.depth)
    (nodes : ∀ c ∈ gates, c.isNode = true ∧ c.isLit = false)
    (closed : ∀ c ∈ gates, ∀ d ∈ c.inputs,
      d.base.isLit = true ∨ d.base ∈ done ∨ d.base ∈ gates) : InOrder done gates := by
  induction gates generalizing done with
  | nil => trivial
  | cons c rest ih =>
      rw [List.pairwise_cons] at pairwise
      rw [List.forall_mem_cons] at nodes closed
      refine ⟨fun d hd => ?_, ih pairwise.2 nodes.2 fun e he d hd => ?_⟩
      · have hdepth : d.base.depth < c.depth :=
          depth_base d ▸ depth_lt_of_input nodes.1.1 nodes.1.2 hd
        rcases closed.1 d hd with hlit | hdone | hmem
        · exact Or.inl hlit
        · exact Or.inr hdone
        · rcases List.mem_cons.mp hmem with heq | hmem
          · rw [heq] at hdepth
            omega
          · have hle := pairwise.1 _ hmem
            omega
      · have hplace := closed.2 e he d hd
        rw [List.mem_cons] at hplace ⊢
        tauto

/-- In a layout every gate comes after its inputs. -/
theorem inOrder_gates {given : Table Circuit (List String)} {c : Circuit} {l : Layout}
    (tidy : c.Tidy) (h : layout given c = .ok l) : InOrder [] (l.gates.map (·.1)) := by
  obtain ⟨-, hmem⟩ := gates_of_layout h
  refine inOrder_of_pairwise ?_ (fun d hd => ((hmem d).mp hd).2) fun d hd e he => ?_
  · unfold layout at h
    obtain ⟨found, hfound, h⟩ := exists_ok_of_bind h
    obtain ⟨numbers, hnumbers, h⟩ := exists_ok_of_bind h
    cases h
    have hdepth : (sorted found).Pairwise fun a b => a.1.depth ≤ b.1.depth := by
      refine (sorted_pairwise found).imp_of_mem fun {a b} ha hb hle => ?_
      have ha := (places_hold rises_depth hfound a (mem_sorted.mp ha)).1
      have hb := (places_hold rises_depth hfound b (mem_sorted.mp hb)).1
      omega
    exact List.pairwise_map.mpr (hdepth.filter _)
  · have hinput : e ∈ c.parts :=
      mem_parts_trans ((hmem d).mp hd).1 (mem_parts_of_input he (mem_parts_self e))
    have hbase : e.base ∈ c.parts := mem_parts_trans hinput (base_mem_parts e)
    by_cases hlit : e.base.isLit = true
    · exact Or.inl hlit
    · refine Or.inr (Or.inr ((hmem _).mpr ⟨hbase, isNode_base (tidy e hinput), ?_⟩))
      simpa using hlit

end QuantFamily.Circuit
