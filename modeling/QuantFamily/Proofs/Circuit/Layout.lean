import Mathlib.Data.List.Perm.Basic
import Mathlib.Data.List.Sort
import QuantFamily.Circuit.Writer
import QuantFamily.Proofs.Circuit.Value
import QuantFamily.Proofs.Session.Calculus

/-!
# Places and numbers of gates

The walk through a circuit gives a place to each of its literals and gates and to nothing else.
A gate then gets a number from a pool: the numbers from one up to the count of the places, without
those of the variables that occur. Numbers leave the pool when they are given out, so different
gates have different numbers, and none has the number of a variable that occurs.
-/

namespace QuantFamily.Circuit

/-- A literal or a gate: what has a place of its own. Negations share the place of their input. -/
def isNode : Circuit → Bool
  | .neg _ | .const _ => false
  | _ => true

theorem ne_neg_of_isNode {c : Circuit} (h : c.isNode = true) (d : Circuit) : c ≠ .neg d := by
  rintro rfl
  cases h

/-! ## The walk -/

/-- The places that were found have all places inside them. -/
structure Walk.Closed (w : Walk) : Prop where
  nodup : w.places.keys.Nodup
  node : ∀ c ∈ w.places.keys, c.isNode = true
  part : ∀ c ∈ w.places.keys, ∀ d ∈ c.parts, d.isNode = true → d ∈ w.places.keys

/-- Exactly the literals and gates among some circuits have been added. -/
structure Walk.Adds (w u : Walk) (cs : List Circuit) : Prop where
  closed : u.Closed
  mem_keys : ∀ d, d ∈ u.places.keys ↔ d ∈ w.places.keys ∨ (d ∈ cs ∧ d.isNode = true)

namespace Walking

variable {w v u : Walk} {c d : Circuit} {cs ds : List Circuit}

theorem adds_nil (closed : w.Closed) : w.Adds w [] :=
  ⟨closed, by simp⟩

theorem adds_append (first : w.Adds v cs) (second : v.Adds u ds) : w.Adds u (cs ++ ds) := by
  refine ⟨second.closed, fun d => ?_⟩
  rw [second.mem_keys, first.mem_keys, List.mem_append]
  tauto

theorem adds_of_mem (closed : w.Closed) (h : c ∈ w.places.keys) : w.Adds w c.parts := by
  refine ⟨closed, fun d => ⟨Or.inl, ?_⟩⟩
  rintro (hd | ⟨hd, hnode⟩)
  · exact hd
  · exact closed.part c h d hd hnode

theorem place_adds {level : Nat} (node : c.isNode = true)
    (inside : w.Adds v (c.inputs.flatMap parts)) :
    w.Adds { places := v.places.put c ⟨level, v.next⟩, next := v.next + 1 } c.parts := by
  have hkeys : ∀ d, d ∈ (v.places.put c ⟨level, v.next⟩).keys ↔ d ∈ v.places.keys ∨ d = c :=
    fun d => Table.mem_keys_put
  refine ⟨⟨?_, ?_, ?_⟩, fun d => ?_⟩
  · exact Table.nodup_keys_put inside.closed.nodup _ _
  · intro d hd
    rcases (hkeys d).mp hd with hd | rfl
    · exact inside.closed.node d hd
    · exact node
  · intro d hd e he hnode
    rw [hkeys]
    rcases (hkeys d).mp hd with hd | rfl
    · exact Or.inl (inside.closed.part d hd e he hnode)
    · rw [parts_eq, List.mem_cons] at he
      rcases he with rfl | he
      · exact Or.inr rfl
      · exact Or.inl ((inside.mem_keys e).mpr (Or.inr ⟨he, hnode⟩))
  · rw [hkeys, inside.mem_keys, parts_eq, List.mem_cons]
    constructor
    · rintro ((hd | ⟨hd, hnode⟩) | rfl)
      · exact Or.inl hd
      · exact Or.inr ⟨Or.inr hd, hnode⟩
      · exact Or.inr ⟨Or.inl rfl, node⟩
    · rintro (hd | ⟨rfl | hd, hnode⟩)
      · exact Or.inl (Or.inl hd)
      · exact Or.inr rfl
      · exact Or.inl (Or.inr ⟨hd, hnode⟩)

theorem levelOf_run {level : Nat} (run : levelOf c w = .ok level u) : u = w := by
  unfold levelOf at run
  obtain ⟨s, v, hget, run⟩ := exists_of_run_bind run
  cases hget
  generalize w.places.get? _ = found at run
  cases found <;> cases run
  rfl

/-- What a walk through a circuit has to do. -/
def Visits (c : Circuit) : Prop :=
  ∀ w u : Walk, w.Closed → visit c w = .ok () u → w.Adds u c.parts

theorem Visits.peel {α : Type} {a : α} {next : Nat → Walking α} (visits : Visits c)
    (closed : w.Closed)
    (run : (visit c >>= fun _ => levelOf c >>= next) w = .ok a u) :
    ∃ level v, w.Adds v c.parts ∧ next level v = .ok a u := by
  obtain ⟨_, v, hvisit, hrest⟩ := exists_of_run_bind run
  obtain ⟨level, v', hlevel, hnext⟩ := exists_of_run_bind hrest
  rw [levelOf_run hlevel] at hnext
  exact ⟨level, v, visits w v closed hvisit, hnext⟩

theorem visitAll_adds {level found : Nat} (visits : ∀ c ∈ cs, Visits c) (closed : w.Closed)
    (run : visitAll cs level w = .ok found u) : w.Adds u (cs.flatMap parts) := by
  induction cs generalizing w level with
  | nil =>
      rw [visitAll] at run
      cases run
      exact adds_nil closed
  | cons c cs ih =>
      rw [visitAll] at run
      obtain ⟨found, v, hadds, run⟩ := (visits c List.mem_cons_self).peel closed run
      rw [List.flatMap_cons]
      exact adds_append hadds
        (ih (fun d hd => visits d (List.mem_cons_of_mem c hd)) hadds.closed run)

/-- All gates are walked through alike. -/
theorem visit_gate (node : c.isNode = true) (gate : c.isLit = false) (filled : c.inputs ≠ []) :
    visit c = (get >>= fun s => if s.places.contains c = true then pure ()
      else visitAll c.inputs 0 >>= fun level => place c (level + 1)) := by
  cases c with
  | lit n => cases gate
  | const b | neg d => cases node
  | and args | or args | other name args =>
      cases args with
      | nil => exact absurd rfl filled
      | cons d ds => rw [visit]; rfl
  | xor a b => simp [visit, visitAll, inputs]
  | ite d t e => simp [visit, visitAll, inputs, Nat.max_assoc]

theorem run_unless_placed {fill : Walking Unit}
    (run : (get >>= fun s => if s.places.contains c = true then pure () else fill) w =
      .ok () u) : (c ∈ w.places.keys ∧ u = w) ∨ fill w = .ok () u := by
  obtain ⟨s, v, hget, run⟩ := exists_of_run_bind run
  cases hget
  cases hplaced : w.places.contains c <;> rw [hplaced] at run
  · exact Or.inr run
  · cases run
    refine Or.inl ⟨?_, rfl⟩
    by_contra hkey
    rw [Table.contains_eq_false_iff.mpr hkey] at hplaced
    cases hplaced

/-- What a walk does: it puts a literal in its place, finds the circuit in its place, looks
through a negation, or puts a gate in its place after its inputs. -/
theorem visit_cases (run : visit c w = .ok () u) :
    (c.isLit = true ∧ place c 1 w = .ok () u) ∨ (c ∈ w.places.keys ∧ u = w) ∨
      (∃ d, c = .neg d ∧ visit d w = .ok () u) ∨
      (c.isNode = true ∧ c.isLit = false ∧ c.inputs ≠ [] ∧ ∃ level v,
        visitAll c.inputs 0 w = .ok level v ∧ place c (level + 1) v = .ok () u) := by
  have hgate (node : c.isNode = true) (gate : c.isLit = false) (filled : c.inputs ≠ []) :
      (c ∈ w.places.keys ∧ u = w) ∨ ∃ level v,
        visitAll c.inputs 0 w = .ok level v ∧ place c (level + 1) v = .ok () u := by
    rw [visit_gate node gate filled] at run
    exact (run_unless_placed run).imp_right exists_of_run_bind
  cases c with
  | lit n =>
      rw [visit] at run
      exact Or.inl ⟨rfl, run⟩
  | const b =>
      rw [visit] at run
      cases run
  | neg d =>
      rw [visit] at run
      exact Or.inr ((run_unless_placed run).imp_right fun run => Or.inl ⟨d, rfl, run⟩)
  | and args | or args | other name args =>
      cases args with
      | nil =>
          rw [visit] at run
          cases run
      | cons d ds =>
          have filled := List.cons_ne_nil d ds
          exact Or.inr ((hgate rfl rfl filled).imp_right fun run => Or.inr ⟨rfl, rfl, filled, run⟩)
  | xor a b =>
      have filled := List.cons_ne_nil a [b]
      exact Or.inr ((hgate rfl rfl filled).imp_right fun run => Or.inr ⟨rfl, rfl, filled, run⟩)
  | ite d t e =>
      have filled := List.cons_ne_nil d [t, e]
      exact Or.inr ((hgate rfl rfl filled).imp_right fun run => Or.inr ⟨rfl, rfl, filled, run⟩)

theorem visit_adds (c : Circuit) : Visits c := by
  induction c using inputsInduction with
  | step c ih =>
      intro w u closed run
      rcases visit_cases run with ⟨hlit, hplace⟩ | ⟨hplaced, rfl⟩ | ⟨d, rfl, hinput⟩ |
        ⟨hnode, -, -, level, v, hinputs, hplace⟩
      · cases c with
        | lit n =>
            cases hplace
            exact place_adds rfl (adds_nil closed)
        | _ => cases hlit
      · exact adds_of_mem closed hplaced
      · have hadds := ih d (by simp [inputs]) w u closed hinput
        refine ⟨hadds.closed, fun e => ?_⟩
        have hne : e.isNode = true → e ≠ .neg d := fun hnode => ne_neg_of_isNode hnode d
        rw [hadds.mem_keys, parts, List.mem_cons]
        tauto
      · cases hplace
        exact place_adds hnode (visitAll_adds ih closed hinputs)

end Walking

theorem keys_of_places {c : Circuit} {found : Table Circuit Place} (h : places c = .ok found) :
    found.keys.Nodup ∧ ∀ d, d ∈ found.keys ↔ d ∈ c.parts ∧ d.isNode = true := by
  unfold places at h
  have hempty : ({} : Walk).Closed := ⟨List.nodup_nil, by simp [Table.keys], by simp [Table.keys]⟩
  split at h
  case h_1 walk hrun =>
    cases h
    have hadds := Walking.visit_adds c _ _ hempty hrun
    exact ⟨hadds.closed.nodup, fun d => by simpa [Table.keys] using hadds.mem_keys d⟩
  case h_2 => cases h

/-! ## Numbers -/

/-- A table of numbers in which every literal of the variables has a number. A literal or gate has
its own number, if it is such a literal, or a positive number that is not one of the variables;
then its negation has the opposite number, and no other circuit has the same. Nothing else has a
number. -/
structure Numbered (vars : Nat → Prop) (numbers : Table Circuit Int) : Prop where
  literal : ∀ m : Int, vars m.natAbs → ∃ n, numbers.get? (.lit m) = some n
  node : ∀ c n, c.isNode = true → numbers.get? c = some n →
    (∃ m, c = .lit m ∧ vars m.natAbs ∧ n = m) ∨
      ∃ k : Nat, 0 < k ∧ ¬ vars k ∧ n = k ∧ numbers.get? (.neg c) = some (-n)
  apart : ∀ c d (k : Nat), c.isNode = true → d.isNode = true → ¬ vars k →
    numbers.get? c = some (k : Int) → numbers.get? d = some (k : Int) → c = d
  negation : ∀ c n, numbers.get? c = some n →
    c.isNode = true ∨ ∃ d, d.isNode = true ∧ c = .neg d ∧ numbers.get? d = some (-n)

namespace Numbering

/-- Numbers are given out well so far, and the free ones are still unused. -/
structure Sound (vars : Nat → Prop) (s : Numbering) : Prop extends Numbered vars s.numbers where
  free : ∀ k ∈ s.free, 0 < k ∧ ¬ vars k ∧ ∀ c, c.isNode = true → s.numbers.get? c ≠ some (k : Int)

variable {vars : Nat → Prop} {s t : Numbering} {c : Circuit}

theorem get?_assign (s : Numbering) (c d : Circuit) (n : Nat) :
    (s.assign c n).numbers.get? d =
      if d = .neg c then some (-(n : Int)) else if d = c then some (n : Int) else s.numbers.get? d := by
  by_cases hneg : d = .neg c
  · simp [assign, hneg]
  · by_cases hself : d = c
    · subst hself
      simp [assign, Table.get?_put_of_ne _ _ hneg, hneg]
    · simp [assign, Table.get?_put_of_ne _ _ hneg, Table.get?_put_of_ne _ _ hself, hneg, hself]

theorem get?_assign_self (s : Numbering) (n : Nat) (node : c.isNode = true) :
    (s.assign c n).numbers.get? c = some (n : Int) := by
  rw [get?_assign, if_neg (ne_neg_of_isNode node c), if_pos rfl]

/-- Besides a circuit and its negation, all have the numbers they had. -/
theorem get?_assign_of_ne (s : Numbering) (n : Nat) {d : Circuit} (node : d.isNode = true)
    (h : d ≠ c) : (s.assign c n).numbers.get? d = s.numbers.get? d := by
  rw [get?_assign, if_neg (ne_neg_of_isNode node c), if_neg h]

theorem Sound.assign {n : Nat} (sound : s.Sound vars) (node : c.isNode = true) (hn : n ∈ s.free) :
    (s.assign c n).Sound vars := by
  obtain ⟨hpos, hvars, hunused⟩ := sound.free n hn
  have hself := get?_assign_self s n node
  have hother : ∀ d, d.isNode = true → d ≠ c →
      (s.assign c n).numbers.get? d = s.numbers.get? d := fun d => get?_assign_of_ne s n
  refine ⟨⟨?_, ?_, ?_, ?_⟩, ?_⟩
  · intro m hm
    by_cases h : .lit m = c
    · exact ⟨n, h ▸ hself⟩
    · rw [hother _ rfl h]
      exact sound.literal m hm
  · intro d k hd hk
    by_cases h : d = c
    · subst h
      cases hself.symm.trans hk
      exact Or.inr ⟨n, hpos, hvars, rfl, by rw [get?_assign, if_pos rfl]⟩
    · rw [hother d hd h] at hk
      have hopposite : (s.assign c n).numbers.get? (.neg d) = s.numbers.get? (.neg d) := by
        rw [get?_assign, if_neg (by simpa using h), if_neg (ne_neg_of_isNode node d).symm]
      rw [hopposite]
      exact sound.node d k hd hk
  · intro d e k hd he hk hdk hek
    by_cases h : d = c <;> by_cases h' : e = c
    · rw [h, h']
    · rw [hother e he h'] at hek
      rw [h, hself] at hdk
      exact absurd (hek.trans hdk.symm) (hunused e he)
    · rw [hother d hd h] at hdk
      rw [h', hself] at hek
      exact absurd (hdk.trans hek.symm) (hunused d hd)
    · rw [hother d hd h] at hdk
      rw [hother e he h'] at hek
      exact sound.apart d e k hd he hk hdk hek
  · intro d k hk
    by_cases h : d = .neg c
    · rw [get?_assign, if_pos h, Option.some.injEq] at hk
      exact Or.inr ⟨c, node, h, by rw [hself, ← hk, Int.neg_neg]⟩
    · by_cases h' : d = c
      · exact Or.inl (h' ▸ node)
      · rw [get?_assign, if_neg h, if_neg h'] at hk
        refine (sound.negation d k hk).imp_right fun ⟨e, he, hde, hek⟩ => ⟨e, he, hde, ?_⟩
        rw [hother e he fun heq => h (by rw [hde, heq])]
        exact hek
  · intro k hk
    obtain ⟨hk, hne⟩ := List.mem_filter.mp hk
    obtain ⟨hkpos, hkvars, hkunused⟩ := sound.free k hk
    refine ⟨hkpos, hkvars, fun d hd => ?_⟩
    by_cases h : d = c
    · rw [h, hself]
      exact fun heq => of_decide_eq_true hne (Int.ofNat.inj (Option.some.inj heq)).symm
    · rw [hother d hd h]
      exact hkunused d hd

/-- The number that a circuit was first named after. -/
def namedAfter? (given : Table Circuit (List String)) (c : Circuit) : Option Nat :=
  match given.get? c with
  | some (name :: _) => spelled? name
  | _ => none

/-- A circuit that is named after a free number takes it, and no other circuit takes any. -/
theorem takeName_cases (given : Table Circuit (List String)) (s : Numbering) (c : Circuit) :
    (∃ n ∈ s.free, namedAfter? given c = some n ∧ s.takeName given c = s.assign c n) ∨
      (∀ n, namedAfter? given c = some n → n ∉ s.free) ∧ s.takeName given c = s := by
  have heq : s.takeName given c = ((namedAfter? given c).map fun n =>
      if n ∈ s.free then s.assign c n else s).getD s := by
    unfold Numbering.takeName namedAfter?
    rcases given.get? c with _ | _ | ⟨name, _⟩
    · rfl
    · rfl
    · cases hspelled : spelled? name <;> simp [hspelled]
  cases hname : namedAfter? given c with
  | none =>
      rw [hname] at heq
      exact Or.inr ⟨by simp, heq⟩
  | some n =>
      rw [hname] at heq
      by_cases hfree : n ∈ s.free
      · exact Or.inl ⟨n, hfree, rfl, heq.trans (if_pos hfree)⟩
      · exact Or.inr ⟨fun k hk => Option.some.inj hk ▸ hfree, heq.trans (if_neg hfree)⟩

theorem Sound.takeName {given : Table Circuit (List String)} (sound : s.Sound vars)
    (node : c.isNode = true) : (s.takeName given c).Sound vars := by
  rcases takeName_cases given s c with ⟨n, hfree, -, heq⟩ | ⟨-, heq⟩
  · exact heq ▸ sound.assign node hfree
  · exact heq.symm ▸ sound

theorem Sound.takeFree (sound : s.Sound vars) (node : c.isNode = true)
    (h : s.takeFree c = .ok t) :
    t.Sound vars ∧ (c.isLit = false → c ∈ t.numbers.keys) ∧ s.numbers.keys ⊆ t.numbers.keys := by
  unfold Numbering.takeFree at h
  split at h
  case isTrue hskip =>
    cases h
    refine ⟨sound, fun hlit => ?_, fun _ hd => hd⟩
    by_contra hkey
    simp [hlit, Table.contains_eq_false_iff.mpr hkey] at hskip
  case isFalse =>
    split at h <;> cases h
    case h_2 n rest hfree =>
      refine ⟨sound.assign node (hfree ▸ List.mem_cons_self), fun _ => ?_, fun d hd => ?_⟩
      · exact Table.mem_keys_put_of_mem Table.mem_keys_put_self
      · exact Table.mem_keys_put_of_mem (Table.mem_keys_put_of_mem hd)

theorem Sound.foldl_takeName (given : Table Circuit (List String)) {cs : List Circuit}
    (nodes : ∀ c ∈ cs, c.isNode = true) (sound : s.Sound vars) :
    (cs.foldl (Numbering.takeName given) s).Sound vars := by
  induction cs generalizing s with
  | nil => exact sound
  | cons c cs ih =>
      rw [List.forall_mem_cons] at nodes
      exact ih nodes.2 (sound.takeName nodes.1)

theorem Sound.foldlM_takeFree {cs : List Circuit} (nodes : ∀ c ∈ cs, c.isNode = true)
    (sound : s.Sound vars) (h : cs.foldlM Numbering.takeFree s = .ok t) :
    t.Sound vars ∧ (∀ c ∈ cs, c.isLit = false → c ∈ t.numbers.keys) ∧
      s.numbers.keys ⊆ t.numbers.keys := by
  induction cs generalizing s with
  | nil =>
      cases h
      exact ⟨sound, by simp, fun _ hd => hd⟩
  | cons c cs ih =>
      rw [List.forall_mem_cons] at nodes
      rw [List.foldlM_cons] at h
      obtain ⟨s', hstep, h⟩ := exists_ok_of_bind h
      obtain ⟨hsound, hown, hkeep⟩ := sound.takeFree nodes.1 hstep
      obtain ⟨hsound, hrest, hkeep'⟩ := ih nodes.2 hsound h
      exact ⟨hsound, List.forall_mem_cons.mpr ⟨fun hlit => hkeep' (hown hlit), hrest⟩,
        fun d hd => hkeep' (hkeep hd)⟩

end Numbering

/-- The variables of the literals in a list. -/
def Occurs (cs : List Circuit) (v : Nat) : Prop :=
  ∃ n, .lit n ∈ cs ∧ n.natAbs = v

namespace Numbering

/-- The literals that were met have their own numbers, and these are no longer free. -/
@[mk_iff]
structure Kept (start : List Nat) (cs : List Circuit) (s : Numbering) : Prop where
  number : ∀ c n, s.numbers.get? c = some n → ∃ m, c = .lit m ∧ Occurs cs m.natAbs ∧ n = m
  literal : ∀ m : Int, Occurs cs m.natAbs → s.numbers.get? (.lit m) = some m
  free : ∀ k, k ∈ s.free ↔ k ∈ start ∧ ¬ Occurs cs k

variable {start : List Nat} {cs : List Circuit} {s : Numbering} {c : Circuit}

theorem occurs_append_singleton {v : Nat} :
    Occurs (cs ++ [c]) v ↔ Occurs cs v ∨ ∃ n, c = .lit n ∧ n.natAbs = v := by
  simp only [Occurs, List.mem_append, List.mem_singleton, or_and_right, exists_or, eq_comm]

theorem get?_keepLiteral_own {n m : Int} (h : m.natAbs = n.natAbs) :
    (s.keepLiteral (.lit n)).numbers.get? (.lit m) = some m := by
  rcases Int.natAbs_eq_natAbs_iff.mp h with rfl | rfl
  · by_cases hzero : m = -m
    · simp only [Numbering.keepLiteral, ← hzero, Table.get?_put_self]
    · have hne : Circuit.lit m ≠ .lit (-m) := fun heq => hzero (Circuit.lit.inj heq)
      simp only [Numbering.keepLiteral, Table.get?_put_of_ne _ _ hne, Table.get?_put_self]
  · simp only [Numbering.keepLiteral, Table.get?_put_self]

theorem get?_keepLiteral_other {n : Int} {d : Circuit} (h : ∀ m, d = .lit m → m.natAbs ≠ n.natAbs) :
    (s.keepLiteral (.lit n)).numbers.get? d = s.numbers.get? d := by
  have hown : d ≠ .lit n := fun heq => h n heq rfl
  have hopposite : d ≠ .lit (-n) := fun heq => h (-n) heq (Int.natAbs_neg n)
  simp only [Numbering.keepLiteral, Table.get?_put_of_ne _ _ hopposite,
    Table.get?_put_of_ne _ _ hown]

theorem Kept.keepLiteral_lit {n : Int} (kept : s.Kept start cs) :
    (s.keepLiteral (.lit n)).Kept start (cs ++ [.lit n]) := by
  have hoccurs : ∀ v, Occurs (cs ++ [.lit n]) v ↔ Occurs cs v ∨ v = n.natAbs := fun v => by
    rw [occurs_append_singleton]
    simp [eq_comm]
  refine ⟨fun d k hk => ?_, fun m hm => ?_, fun k => ?_⟩
  · by_cases h : ∃ m, d = .lit m ∧ m.natAbs = n.natAbs
    · obtain ⟨m, rfl, hm⟩ := h
      rw [get?_keepLiteral_own hm] at hk
      exact ⟨m, rfl, (hoccurs _).mpr (Or.inr hm), (Option.some.inj hk).symm⟩
    · rw [get?_keepLiteral_other fun m hd hm => h ⟨m, hd, hm⟩] at hk
      obtain ⟨m, hd, hm, hkm⟩ := kept.number d k hk
      exact ⟨m, hd, (hoccurs _).mpr (Or.inl hm), hkm⟩
  · by_cases h : m.natAbs = n.natAbs
    · exact get?_keepLiteral_own h
    · rw [get?_keepLiteral_other fun m' hm' => Circuit.lit.inj hm' ▸ h]
      exact kept.literal m (((hoccurs _).mp hm).resolve_right h)
  · simp only [Numbering.keepLiteral, List.mem_filter, kept.free, hoccurs, decide_eq_true_eq]
    tauto

theorem Kept.keepLiteral (kept : s.Kept start cs) : (s.keepLiteral c).Kept start (cs ++ [c]) := by
  by_cases hlit : ∃ n, c = .lit n
  · obtain ⟨n, rfl⟩ := hlit
    exact kept.keepLiteral_lit
  · have hsame : s.keepLiteral c = s := by
      unfold Numbering.keepLiteral
      split
      · exact absurd ⟨_, rfl⟩ hlit
      · rfl
    have hoccurs : ∀ v, Occurs (cs ++ [c]) v ↔ Occurs cs v := fun v => by
      rw [occurs_append_singleton]
      exact ⟨fun h => h.resolve_right fun ⟨n, hn, _⟩ => hlit ⟨n, hn⟩, Or.inl⟩
    rw [hsame]
    simpa only [kept_iff, hoccurs] using kept

theorem kept_nil (start : List Nat) : Kept start [] { free := start } :=
  ⟨by simp, by simp [Occurs], by simp [Occurs]⟩

theorem Kept.foldl (ds : List Circuit) (kept : s.Kept start cs) :
    (ds.foldl Numbering.keepLiteral s).Kept start (cs ++ ds) := by
  induction ds generalizing s cs with
  | nil => simpa using kept
  | cons d ds ih => simpa using ih (kept.keepLiteral (c := d))

theorem Kept.sound (kept : s.Kept start cs) (positive : ∀ k ∈ start, 0 < k) :
    s.Sound (Occurs cs) := by
  refine ⟨⟨fun m hm => ⟨m, kept.literal m hm⟩, fun c n _ hn => Or.inl (kept.number c n hn), ?_, ?_⟩,
    ?_⟩
  · intro c d k _ _ hk hc _
    obtain ⟨m, _, hm, hkm⟩ := kept.number c k hc
    rw [← hkm] at hm
    exact absurd hm hk
  · intro c n hn
    obtain ⟨m, rfl, -⟩ := kept.number c n hn
    exact Or.inl rfl
  · intro k hk
    obtain ⟨hstart, hk⟩ := (kept.free k).mp hk
    refine ⟨positive k hstart, hk, fun c _ hc => hk ?_⟩
    obtain ⟨m, _, hm, hkm⟩ := kept.number c k hc
    rwa [← hkm] at hm

/-- The numbering in which the literals have their own numbers and nothing else has one. -/
def ofLiterals (cs : List Circuit) : Numbering :=
  cs.foldl Numbering.keepLiteral { free := (List.range cs.length).map (· + 1) }

theorem kept_ofLiterals (cs : List Circuit) :
    (ofLiterals cs).Kept ((List.range cs.length).map (· + 1)) cs := by
  simpa [ofLiterals] using (kept_nil ((List.range cs.length).map (· + 1))).foldl cs

/-- Circuits that can all be given numbers are given numbers well. -/
theorem numbered_of_ofCircuits {given : Table Circuit (List String)} {numbers : Table Circuit Int}
    (nodes : ∀ c ∈ cs, c.isNode = true) (h : ofCircuits given cs = .ok numbers) :
    Numbered (Occurs cs) numbers ∧ ∀ c ∈ cs, ∃ n, numbers.get? c = some n := by
  unfold ofCircuits at h
  obtain ⟨t, hfree, h⟩ := exists_ok_of_bind h
  cases h
  have hsound := ((kept_ofLiterals cs).sound (by simp)).foldl_takeName given nodes
  obtain ⟨hsound, hgates, -⟩ := hsound.foldlM_takeFree nodes hfree
  refine ⟨hsound.toNumbered, fun c hc => ?_⟩
  cases c with
  | lit m => exact hsound.literal m ⟨m, hc, rfl⟩
  | _ => exact Option.ne_none_iff_exists'.mp fun hnone =>
      Table.get?_eq_none_iff.mp hnone (hgates _ hc rfl)

theorem get?_lit_assign {m : Int} {n : Nat} (h : c.isLit = false) :
    (s.assign c n).numbers.get? (.lit m) = s.numbers.get? (.lit m) := by
  have hne : Circuit.lit m ≠ c := by
    rintro rfl
    cases h
  exact get?_assign_of_ne s n rfl hne

theorem free_takeName_subset (given : Table Circuit (List String)) (s : Numbering) (c : Circuit) :
    (s.takeName given c).free ⊆ s.free := by
  rcases takeName_cases given s c with ⟨n, -, -, heq⟩ | ⟨-, heq⟩
  · exact heq.symm ▸ List.filter_subset_self s.free
  · exact heq.symm ▸ fun _ hk => hk

/-- No literal among the circuits is named after a free number. -/
def Spares (given : Table Circuit (List String)) (cs : List Circuit) (s : Numbering) : Prop :=
  ∀ m k, .lit m ∈ cs → namedAfter? given (.lit m) = some k → k ∉ s.free

theorem Spares.takeName {given : Table Circuit (List String)} (spares : s.Spares given (c :: cs)) :
    (s.takeName given c).Spares given cs := fun m k hm hk hfree =>
  spares m k (List.mem_cons_of_mem c hm) hk (free_takeName_subset given s c hfree)

theorem get?_lit_takeName {given : Table Circuit (List String)} {m : Int}
    (spares : s.Spares given (c :: cs)) :
    (s.takeName given c).numbers.get? (.lit m) = s.numbers.get? (.lit m) := by
  rcases takeName_cases given s c with ⟨n, hfree, hname, heq⟩ | ⟨-, heq⟩
  · rw [heq]
    refine get?_lit_assign ?_
    cases c with
    | lit l => exact absurd hfree (spares l n List.mem_cons_self hname)
    | _ => rfl
  · rw [heq]

theorem get?_lit_foldl_takeName {given : Table Circuit (List String)} {m : Int}
    (spares : s.Spares given cs) :
    (cs.foldl (Numbering.takeName given) s).numbers.get? (.lit m) = s.numbers.get? (.lit m) := by
  induction cs generalizing s with
  | nil => rfl
  | cons c cs ih => exact (ih spares.takeName).trans (get?_lit_takeName spares)

theorem get?_lit_takeFree {t : Numbering} {m : Int} (h : s.takeFree c = .ok t) :
    t.numbers.get? (.lit m) = s.numbers.get? (.lit m) := by
  unfold Numbering.takeFree at h
  split at h
  case isTrue => cases h; rfl
  case isFalse hskip =>
    split at h <;> cases h
    exact get?_lit_assign (by simp_all)

theorem get?_lit_foldlM_takeFree {t : Numbering} {m : Int}
    (h : cs.foldlM Numbering.takeFree s = .ok t) :
    t.numbers.get? (.lit m) = s.numbers.get? (.lit m) := by
  induction cs generalizing s with
  | nil =>
      cases h
      rfl
  | cons c cs ih =>
      rw [List.foldlM_cons] at h
      obtain ⟨s', hstep, h⟩ := exists_ok_of_bind h
      exact (ih h).trans (get?_lit_takeFree hstep)

/-- Literals that are not named after a free number keep their numbers. -/
theorem get?_lit_of_ofCircuits {given : Table Circuit (List String)}
    {numbers : Table Circuit Int} (spares : (ofLiterals cs).Spares given cs)
    (h : ofCircuits given cs = .ok numbers) {m : Int} (hm : Occurs cs m.natAbs) :
    numbers.get? (.lit m) = some m := by
  unfold ofCircuits at h
  obtain ⟨t, hrun, h⟩ := exists_ok_of_bind h
  cases h
  rw [get?_lit_foldlM_takeFree hrun]
  exact (get?_lit_foldl_takeName spares).trans ((kept_ofLiterals cs).literal m hm)

end Numbering

/-! ## The order -/

/-- A stable sort puts every member before the first one that it may precede. -/
theorem mergeSort_eq_insertionSort {α : Type} (le : α → α → Bool)
    (trans : ∀ a b c, le a b = true → le b c = true → le a c = true)
    (total : ∀ a b, (le a b || le b a) = true) (xs : List α) :
    xs.mergeSort le = xs.insertionSort fun a b => le a b = true := by
  induction xs with
  | nil => simp
  | cons x xs ih =>
      obtain ⟨before, after, hcons, hrest, hbefore⟩ := List.mergeSort_cons trans total x xs
      have hsorted := List.pairwise_mergeSort trans total (x :: xs)
      rw [hcons, List.pairwise_append, List.pairwise_cons] at hsorted
      have hafter : ∀ y ∈ after, le x y = true := hsorted.2.1.1
      rw [List.insertionSort_cons, ← ih, hrest, hcons]
      clear hcons hrest hsorted ih
      induction before with
      | nil =>
          cases after with
          | nil => rfl
          | cons y after =>
              rw [List.nil_append, List.nil_append, List.orderedInsert_cons,
                if_pos (hafter y List.mem_cons_self)]
      | cons y before ih =>
          rw [List.forall_mem_cons] at hbefore
          rw [List.cons_append, List.cons_append, List.orderedInsert_cons,
            if_neg (by simpa using hbefore.1), ← ih hbefore.2]

def isEarlier (a b : Circuit × Place) : Bool :=
  decide (a.2.level < b.2.level) ||
    (decide (a.2.level = b.2.level) && decide (a.2.index ≤ b.2.index))

theorem isEarlier_trans (a b c : Circuit × Place) (hab : isEarlier a b = true)
    (hbc : isEarlier b c = true) : isEarlier a c = true := by
  simp only [isEarlier, Bool.or_eq_true, Bool.and_eq_true, decide_eq_true_eq] at hab hbc ⊢
  omega

theorem isEarlier_total (a b : Circuit × Place) : (isEarlier a b || isEarlier b a) = true := by
  simp only [isEarlier, Bool.or_eq_true, Bool.and_eq_true, decide_eq_true_eq]
  omega

/-- The order of the circuits in a form that can be evaluated by the kernel. -/
theorem sorted_eq_insertionSort (found : Table Circuit Place) :
    sorted found = found.entries.insertionSort fun a b => isEarlier a b = true :=
  mergeSort_eq_insertionSort isEarlier isEarlier_trans isEarlier_total found.entries

/-! ## The layout -/

section Layout

variable {given : Table Circuit (List String)} {c : Circuit} {l : Layout}

theorem sorted_perm (found : Table Circuit Place) :
    ((sorted found).map (·.1)).Perm found.keys :=
  (List.mergeSort_perm found.entries _).map (·.1)

/-- The order of the circuits has the literals and gates of the circuit, each once. -/
theorem order_of_places {found : Table Circuit Place} (placed : places c = .ok found) :
    ((sorted found).map (·.1)).Nodup ∧
      ∀ d, d ∈ (sorted found).map (·.1) ↔ d ∈ c.parts ∧ d.isNode = true := by
  obtain ⟨hnodup, hkeys⟩ := keys_of_places placed
  refine ⟨(sorted_perm found).nodup_iff.mpr hnodup, fun d => ?_⟩
  rw [(sorted_perm found).mem_iff, hkeys]

/-- A layout comes from a list of the literals and gates of the circuit, each once. -/
theorem exists_order_of_layout (h : layout given c = .ok l) :
    ∃ order : List (Circuit × Place), (order.map (·.1)).Nodup ∧
      (∀ d, d ∈ order.map (·.1) ↔ d ∈ c.parts ∧ d.isNode = true) ∧
      Numbering.ofCircuits given (order.map (·.1)) = .ok l.numbers ∧
      l.gates = order.filter fun entry => !entry.1.isLit := by
  unfold layout at h
  obtain ⟨found, hfound, h⟩ := exists_ok_of_bind h
  obtain ⟨numbers, hnumbers, h⟩ := exists_ok_of_bind h
  cases h
  obtain ⟨hnodup, hmem⟩ := order_of_places hfound
  exact ⟨sorted found, hnodup, hmem, hnumbers, rfl⟩

theorem gates_of_layout (h : layout given c = .ok l) :
    (l.gates.map (·.1)).Nodup ∧
      ∀ d, d ∈ l.gates.map (·.1) ↔ d ∈ c.parts ∧ d.isNode = true ∧ d.isLit = false := by
  obtain ⟨order, hnodup, hmem, -, hgates⟩ := exists_order_of_layout h
  have hfilter : l.gates.map (·.1) = (order.map (·.1)).filter fun d => !d.isLit := by
    rw [hgates, List.filter_map]
    rfl
  rw [hfilter]
  refine ⟨hnodup.filter _, fun d => ?_⟩
  rw [List.mem_filter, hmem, and_assoc, Bool.not_eq_true']

theorem occurs_order {order : List (Circuit × Place)}
    (hmem : ∀ d, d ∈ order.map (·.1) ↔ d ∈ c.parts ∧ d.isNode = true) :
    Occurs (order.map (·.1)) = (· ∈ c.occurrences) := by
  funext v
  simp [Occurs, hmem, mem_occurrences, isNode]

theorem numbers_of_layout (h : layout given c = .ok l) :
    Numbered (· ∈ c.occurrences) l.numbers ∧
      ∀ d ∈ c.parts, d.isNode = true → ∃ n, l.numbers.get? d = some n := by
  obtain ⟨order, -, hmem, hnumbers, -⟩ := exists_order_of_layout h
  obtain ⟨hnumbered, hall⟩ :=
    Numbering.numbered_of_ofCircuits (fun d hd => ((hmem d).mp hd).2) hnumbers
  have hoccurs := occurs_order hmem
  exact ⟨hoccurs ▸ hnumbered, fun d hd hnode => hall d ((hmem d).mpr ⟨hd, hnode⟩)⟩

/-- Every literal of the variables of a circuit has its own number. -/
def KeepsLiterals (numbers : Table Circuit Int) (c : Circuit) : Prop :=
  ∀ n : Int, n.natAbs ∈ c.occurrences → numbers.get? (.lit n) = some n

/-- Literals keep their numbers if no gate has given its name to a literal. -/
theorem keepsLiterals_of_unnamed (unnamed : ∀ n, given.get? (.lit n) = none)
    (h : layout given c = .ok l) : KeepsLiterals l.numbers c := by
  obtain ⟨order, -, hmem, hnumbers, -⟩ := exists_order_of_layout h
  intro n hn
  refine Numbering.get?_lit_of_ofCircuits (fun m k _ hk => ?_) hnumbers ?_
  · simp [Numbering.namedAfter?, unnamed m] at hk
  · rwa [occurs_order hmem]

end Layout

end QuantFamily.Circuit
