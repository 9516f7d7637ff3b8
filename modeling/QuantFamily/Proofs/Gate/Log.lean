import QuantFamily.Proofs.Gate.Text
import QuantFamily.Proofs.State.WellFormed

/-!
# Logs of written gates

A block is written as one gate, or as three if it is a double implication. A log records the
blocks of a board in the order of writing, each with its gates. `Written` says which logs there
can be: no block comes twice, and operands come before their use. That gates are defined once,
apart from the variables and in order, follows by induction along the log.
-/

namespace QuantFamily

/-! ## The gates of one block -/

/-- The gates of a block, when the identifiers after `c` are free. -/
inductive GatesOf (c : Id) (b : Block) : List Gate → Prop
  | implies {x y : Id} (mark : b.mark = some (.operator .implies)) (body : b.body = [x, y]) :
      GatesOf c b [⟨b.id, "or", [-x, y]⟩]
  | iff {x y : Id} (mark : b.mark = some (.operator .iff)) (body : b.body = [x, y]) :
      GatesOf c b [⟨c + 1, "or", [-x, y]⟩, ⟨c + 2, "or", [-y, x]⟩, ⟨b.id, "and", [c + 1, c + 2]⟩]
  | bare (mark : b.mark = none) (short : b.body.length ≤ 1) : GatesOf c b [⟨b.id, "or", b.body⟩]
  | marked {a : Attribute} (mark : b.mark = some a) (notImplies : a ≠ .operator .implies)
      (notIff : a ≠ .operator .iff) (parity : a = .operator .xor → b.body.length = 2)
      (choice : a = .operator .ite → b.body.length = 3) : GatesOf c b [⟨b.id, a.word, b.body⟩]

/-- How many identifiers a block takes for gates of its own. -/
def Block.extra (b : Block) : Int :=
  if b.mark = some (.operator .iff) then 2 else 0

/-! ## Gates in order -/

/-- Gates that can be evaluated one after the other over given inputs: every number is given
to one gate, no gate takes the number of an input, and operands come before their use. -/
structure Sequential (inputs : List Id) (gates : List Gate) : Prop where
  once : (gates.map Gate.id).Nodup
  apart : ∀ g ∈ gates, g.id ∉ inputs
  earlier : ∀ before g after, gates = before ++ g :: after → ∀ e ∈ g.operands,
    (e.natAbs : Int) ∈ inputs ∨ (e.natAbs : Int) ∈ before.map Gate.id

theorem sequential_nil (inputs : List Id) : Sequential inputs [] where
  once := List.nodup_nil
  apart := by simp
  earlier := by simp

theorem Sequential.snoc {inputs : List Id} {gates : List Gate} (h : Sequential inputs gates)
    {g : Gate} (fresh : g.id ∉ gates.map Gate.id) (apart : g.id ∉ inputs)
    (operands : ∀ e ∈ g.operands,
      (e.natAbs : Int) ∈ inputs ∨ (e.natAbs : Int) ∈ gates.map Gate.id) :
    Sequential inputs (gates ++ [g]) where
  once := by
    rw [List.map_append]
    refine List.nodup_append.mpr ⟨h.once, by simp, fun id hid other hother => ?_⟩
    rw [List.map_singleton, List.mem_singleton] at hother
    rintro rfl
    exact fresh (hother ▸ hid)
  apart := by
    intro g' hg'
    rcases List.mem_append.mp hg' with hold | hnew
    · exact h.apart g' hold
    · rw [List.mem_singleton] at hnew
      exact hnew ▸ apart
  earlier := by
    intro before g' after heq
    rcases List.eq_nil_or_concat after with rfl | ⟨front, last, rfl⟩
    · obtain ⟨rfl, hlast⟩ := List.append_inj' heq rfl
      obtain ⟨rfl, -⟩ := List.cons.inj hlast
      exact operands
    · rw [List.concat_eq_append, ← List.cons_append, ← List.append_assoc] at heq
      obtain ⟨hgates, -⟩ := List.append_inj' heq rfl
      exact h.earlier before g' front hgates

theorem Sequential.of_append {inputs : List Id} {gates more : List Gate}
    (h : Sequential inputs (gates ++ more)) : Sequential inputs gates where
  once := (List.nodup_append.mp (List.map_append ▸ h.once)).1
  apart := fun g hg => h.apart g (List.mem_append_left _ hg)
  earlier := fun before g after heq =>
    h.earlier before g (after ++ more) (by rw [heq, List.append_assoc, List.cons_append])

theorem Sequential.restrict {inputs fewer : List Id} {gates : List Gate}
    (h : Sequential inputs gates) (within : fewer ⊆ inputs)
    (used : ∀ g ∈ gates, ∀ e ∈ g.operands, (e.natAbs : Int) ∈ inputs → (e.natAbs : Int) ∈ fewer) :
    Sequential fewer gates where
  once := h.once
  apart := fun g hg hmem => h.apart g hg (within hmem)
  earlier := by
    intro before g after heq e he
    have hg : g ∈ gates := heq ▸ List.mem_append_right _ List.mem_cons_self
    exact (h.earlier before g after heq e he).imp_left (used g hg e he)

/-- The three gates of a double implication. -/
theorem Sequential.iff {inputs : List Id} {gates : List Gate} (h : Sequential inputs gates)
    {left right own x y : Id} (hleft : left ∉ gates.map Gate.id ∧ left ∉ inputs)
    (hright : right ∉ gates.map Gate.id ∧ right ∉ inputs)
    (hown : own ∉ gates.map Gate.id ∧ own ∉ inputs)
    (distinct : right ≠ left ∧ own ≠ left ∧ own ≠ right)
    (nonneg : (0 : Int) ≤ left ∧ (0 : Int) ≤ right)
    (hx : (x.natAbs : Int) ∈ inputs ∨ (x.natAbs : Int) ∈ gates.map Gate.id)
    (hy : (y.natAbs : Int) ∈ inputs ∨ (y.natAbs : Int) ∈ gates.map Gate.id) :
    Sequential inputs (gates ++
      [⟨left, "or", [-x, y]⟩, ⟨right, "or", [-y, x]⟩, ⟨own, "and", [left, right]⟩]) := by
  have hfirst : Sequential inputs (gates ++ [⟨left, "or", [-x, y]⟩]) := by
    refine h.snoc hleft.1 hleft.2 ?_
    simp only [List.mem_cons, List.not_mem_nil, or_false, forall_eq_or_imp, forall_eq,
      Int.natAbs_neg]
    exact ⟨hx, hy⟩
  have hsecond : Sequential inputs
      (gates ++ [⟨left, "or", [-x, y]⟩] ++ [⟨right, "or", [-y, x]⟩]) := by
    refine hfirst.snoc ?_ hright.2 ?_
    · simpa [distinct.1] using hright.1
    · simp only [List.map_append, List.mem_append, List.mem_cons, List.not_mem_nil, or_false,
        forall_eq_or_imp, forall_eq, Int.natAbs_neg]
      exact ⟨hy.imp_right Or.inl, hx.imp_right Or.inl⟩
  have hthird := hsecond.snoc (g := ⟨own, "and", [left, right]⟩)
    (by simpa [distinct.2] using hown.1) hown.2 ?_
  · simpa using hthird
  · simp only [List.mem_cons, List.not_mem_nil, or_false, forall_eq_or_imp, forall_eq,
      Int.natAbs_of_nonneg nonneg.1, Int.natAbs_of_nonneg nonneg.2]
    exact ⟨Or.inr (by simp), Or.inr (by simp)⟩

/-! ## Logs -/

/-- The blocks that were written, each with its gates, in the order of writing. -/
abbrev Log := List (Block × List Gate)

namespace Log

/-- The identifiers of the blocks. -/
def ids (log : Log) : List Id :=
  log.map fun entry => entry.1.id

/-- All gates. -/
def gates (log : Log) : List Gate :=
  log.flatMap fun entry => entry.2

@[simp] theorem ids_append (log new : Log) : (log ++ new).ids = log.ids ++ new.ids :=
  List.map_append

@[simp] theorem ids_singleton (b : Block) (gates : List Gate) : Log.ids [(b, gates)] = [b.id] :=
  rfl

@[simp] theorem gates_append (log new : Log) : (log ++ new).gates = log.gates ++ new.gates :=
  List.flatMap_append

@[simp] theorem gates_singleton (b : Block) (gates : List Gate) : Log.gates [(b, gates)] = gates :=
  List.append_nil gates

end Log

/-- The identifiers that a block takes for gates of its own, when those after `c` are free. -/
def Block.auxiliary (b : Block) (c : Id) : List Id :=
  if b.mark = some (.operator .iff) then [c + 1, c + 2] else []

theorem Block.length_auxiliary (b : Block) (c : Id) :
    (b.auxiliary c).length = if b.mark = some (.operator .iff) then 2 else 0 := by
  unfold Block.auxiliary
  split <;> rfl

theorem Block.lt_of_mem_auxiliary {b : Block} {c id : Id} (h : id ∈ b.auxiliary c) : c < id := by
  unfold Block.auxiliary at h
  split at h
  · simp only [List.mem_cons, List.not_mem_nil, or_false] at h
    grind
  · cases h

theorem GatesOf.map_id {c : Id} {b : Block} {gates : List Gate} (h : GatesOf c b gates) :
    gates.map Gate.id = b.auxiliary c ++ [b.id] := by
  cases h with
  | implies mark body => simp [Block.auxiliary, mark]
  | iff mark body => simp [Block.auxiliary, mark]
  | bare mark short => simp [Block.auxiliary, mark]
  | marked mark notImplies notIff parity choice => simp [Block.auxiliary, mark, notIff]

theorem Attribute.word_letters (a : Attribute) :
    a.word ≠ "" ∧ ∀ c ∈ a.word.toList, c.isAlpha = true := by
  have hall : a.word ≠ "" ∧ a.word.toList.all Char.isAlpha = true := by
    rcases a with (_ | _) | (_ | _ | _ | _ | _ | _) <;> decide
  exact ⟨hall.1, List.all_eq_true.mp hall.2⟩

theorem GatesOf.legible {c : Id} {b : Block} {gates : List Gate} (h : GatesOf c b gates)
    (hid : (0 : Int) ≤ b.id) (hc : (0 : Int) ≤ c) {g : Gate} (hg : g ∈ gates) : g.Legible := by
  have hor := (Attribute.operator .or).word_letters
  have hand := (Attribute.operator .and).word_letters
  cases h with
  | implies mark body =>
      cases List.mem_singleton.mp hg
      exact ⟨hid, hor.1, hor.2⟩
  | bare mark short =>
      cases List.mem_singleton.mp hg
      exact ⟨hid, hor.1, hor.2⟩
  | @marked a mark notImplies notIff parity choice =>
      cases List.mem_singleton.mp hg
      exact ⟨hid, a.word_letters.1, a.word_letters.2⟩
  | iff mark body =>
      simp only [List.mem_cons, List.not_mem_nil, or_false] at hg
      rcases hg with rfl | rfl | rfl
      · exact ⟨by grind, hor.1, hor.2⟩
      · exact ⟨by grind, hor.1, hor.2⟩
      · exact ⟨hid, hand.1, hand.2⟩

/-- The operands of the gates of a block are its bricks and identifiers given out for it. -/
theorem GatesOf.operand {c : Id} {b : Block} {gates : List Gate} (h : GatesOf c b gates) {g : Gate}
    (hg : g ∈ gates) {e : Int} (he : e ∈ g.operands) :
    (∃ d ∈ b.body, d.natAbs = e.natAbs) ∨ c < e := by
  cases h with
  | implies mark body =>
      cases List.mem_singleton.mp hg
      rw [body]
      simp only [List.mem_cons, List.not_mem_nil, or_false] at he
      rcases he with rfl | rfl <;> simp
  | bare mark short =>
      cases List.mem_singleton.mp hg
      exact Or.inl ⟨e, he, rfl⟩
  | marked mark notImplies notIff parity choice =>
      cases List.mem_singleton.mp hg
      exact Or.inl ⟨e, he, rfl⟩
  | iff mark body =>
      rw [body]
      simp only [List.mem_cons, List.not_mem_nil, or_false] at hg
      rcases hg with rfl | rfl | rfl <;>
        simp only [List.mem_cons, List.not_mem_nil, or_false] at he <;> rcases he with rfl | rfl
      · simp
      · simp
      · simp
      · simp
      · exact Or.inr (by grind)
      · exact Or.inr (by grind)

/-- The logs of boards: each entry holds a block that was not written before, with operands
that were. The identifier is the last one given out. -/
inductive Written (φ : Formula) : Log → Id → Prop
  | nil : Written φ [] φ.counter
  | snoc {log : Log} {c : Id} {b : Block} {gates : List Gate} (earlier : Written φ log c)
      (held : φ.contents.get? b.id = some b) (fresh : b.id ∉ log.ids)
      (operands : ∀ e ∈ b.body,
        (e.natAbs : Int) ∈ φ.vars.values ∨ (e.natAbs : Int) ∈ log.ids)
      (lines : GatesOf c b gates) : Written φ (log ++ [(b, gates)]) (c + b.extra)

namespace Written

variable {φ : Formula} {log : Log} {c : Id}

theorem counter_le (h : Written φ log c) : φ.counter ≤ c := by
  induction h with
  | nil => exact Int.le_refl _
  | @snoc log c b gates earlier held fresh operands lines ih =>
      refine Int.le_trans ih (Int.le_add_of_nonneg_right ?_)
      unfold Block.extra
      split <;> decide

/-- Each block was written at some time: its operands were written before, and its gates are as
they were when the identifiers up to some point were given out. -/
theorem entry (h : Written φ log c) {entry : Block × List Gate} (hentry : entry ∈ log) :
    φ.contents.get? entry.1.id = some entry.1 ∧
      (∀ e ∈ entry.1.body, (e.natAbs : Int) ∈ φ.vars.values ∨ (e.natAbs : Int) ∈ log.ids) ∧
      ∃ c', φ.counter ≤ c' ∧ GatesOf c' entry.1 entry.2 := by
  induction h with
  | nil => cases hentry
  | snoc earlier held fresh operands lines ih =>
      rw [Log.ids_append]
      rcases List.mem_append.mp hentry with hold | hnew
      · obtain ⟨hheld, hoperands, hlines⟩ := ih hold
        exact ⟨hheld, fun e he => (hoperands e he).imp_right (List.mem_append_left _), hlines⟩
      · rw [List.mem_singleton] at hnew
        subst hnew
        exact ⟨held, fun e he => (operands e he).imp_right (List.mem_append_left _), _,
          earlier.counter_le, lines⟩

theorem held (h : Written φ log c) {entry : Block × List Gate} (hentry : entry ∈ log) :
    φ.contents.get? entry.1.id = some entry.1 :=
  (h.entry hentry).1

theorem operands (h : Written φ log c) {entry : Block × List Gate} (hentry : entry ∈ log) {e : Id}
    (he : e ∈ entry.1.body) :
    (e.natAbs : Int) ∈ φ.vars.values ∨ (e.natAbs : Int) ∈ log.ids :=
  (h.entry hentry).2.1 e he

theorem gatesOf (h : Written φ log c) {entry : Block × List Gate} (hentry : entry ∈ log) :
    ∃ c', φ.counter ≤ c' ∧ GatesOf c' entry.1 entry.2 :=
  (h.entry hentry).2.2

/-- Every block has a gate with its identifier. -/
theorem mem_gates (h : Written φ log c) {id : Id} (hid : id ∈ log.ids) :
    id ∈ log.gates.map Gate.id := by
  induction h with
  | nil => cases hid
  | snoc earlier held fresh operands lines ih =>
      rw [Log.gates_append, List.map_append, Log.gates_singleton, lines.map_id]
      rw [Log.ids_append, Log.ids_singleton] at hid
      rcases List.mem_append.mp hid with hold | hnew
      · exact List.mem_append_left _ (ih hold)
      · exact List.mem_append_right _ (List.mem_append_right _ hnew)

/-- The other gates have identifiers that were given out for them. -/
theorem mem_ids_or_fresh (h : Written φ log c) {id : Id} (hid : id ∈ log.gates.map Gate.id) :
    id ∈ log.ids ∨ φ.counter < id ∧ id ≤ c := by
  induction h with
  | nil => cases hid
  | @snoc log c b gates earlier held fresh operands lines ih =>
      have hle := earlier.counter_le
      rw [Log.gates_append, List.map_append, Log.gates_singleton, lines.map_id,
        List.mem_append, List.mem_append] at hid
      rw [Log.ids_append, Log.ids_singleton, List.mem_append]
      unfold Block.extra
      unfold Block.auxiliary at hid
      rcases hid with hold | haux | hown
      · rcases ih hold with hold | hbetween
        · exact Or.inl (Or.inl hold)
        · refine Or.inr ⟨hbetween.1, ?_⟩
          split <;> grind
      · split at haux
        · rename_i hiff
          rw [if_pos hiff]
          simp only [List.mem_cons, List.not_mem_nil, or_false] at haux
          grind
        · cases haux
      · exact Or.inl (Or.inr hown)

theorem fresh_not_mem (h : Written φ log c) (hφ : φ.WellFormed) {id : Id} (hid : c < id) :
    id ∉ log.gates.map Gate.id ∧ id ∉ φ.vars.values := by
  have hle := h.counter_le
  constructor
  · intro hmem
    rcases h.mem_ids_or_fresh hmem with hblock | hbetween
    · obtain ⟨entry, hentry, rfl⟩ := List.mem_map.mp hblock
      have hrange := hφ.held_range (h.held hentry)
      grind
    · grind
  · intro hvar
    have hrange := hφ.inRange id (List.mem_append_left _ hvar)
    grind

theorem own_not_mem (h : Written φ log c) (hφ : φ.WellFormed) {b : Block}
    (held : φ.contents.get? b.id = some b) (fresh : b.id ∉ log.ids) :
    b.id ∉ log.gates.map Gate.id := by
  intro hmem
  rcases h.mem_ids_or_fresh hmem with hblock | hbetween
  · exact fresh hblock
  · have hrange := hφ.held_range held
    grind

/-- What is written can be evaluated from the first gate to the last. -/
theorem sequential (h : Written φ log c) (hφ : φ.WellFormed) :
    Sequential φ.vars.values log.gates := by
  induction h with
  | nil => exact sequential_nil _
  | @snoc log c b gates earlier held fresh operands lines ih =>
      have hvar := hφ.not_variable held
      have hown := earlier.own_not_mem hφ held fresh
      have hoperands : ∀ e ∈ b.body,
          (e.natAbs : Int) ∈ φ.vars.values ∨ (e.natAbs : Int) ∈ log.gates.map Gate.id :=
        fun e he => (operands e he).imp_right earlier.mem_gates
      rw [Log.gates_append, Log.gates_singleton]
      cases lines with
      | implies mark body =>
          refine ih.snoc hown hvar ?_
          simpa [body] using hoperands
      | bare mark short => exact ih.snoc hown hvar hoperands
      | marked mark notImplies notIff parity choice => exact ih.snoc hown hvar hoperands
      | @iff x y mark body =>
          have hleft := earlier.fresh_not_mem hφ (show c < c + 1 by grind)
          have hright := earlier.fresh_not_mem hφ (show c < c + 2 by grind)
          have hrange := hφ.held_range held
          have hle := earlier.counter_le
          rw [body] at hoperands
          exact ih.iff hleft hright ⟨hown, hvar⟩ (by grind) (by grind)
            (hoperands x (by simp)) (hoperands y (by simp))

/-- What is written can be read. -/
theorem legible (h : Written φ log c) (hφ : φ.WellFormed) {g : Gate} (hg : g ∈ log.gates) :
    g.Legible := by
  induction h with
  | nil => cases hg
  | @snoc log c b gates earlier held fresh operands lines ih =>
      have hrange := hφ.held_range held
      have hle := earlier.counter_le
      rw [Log.gates_append, Log.gates_singleton] at hg
      rcases List.mem_append.mp hg with hold | hnew
      · exact ih hold
      · exact lines.legible (by grind) (by grind) hnew

theorem nodup_blocks (h : Written φ log c) : (log.map Prod.fst).Nodup := by
  induction h with
  | nil => exact List.nodup_nil
  | @snoc log c b gates earlier held fresh operands lines ih =>
      have hb : b ∉ log.map Prod.fst := by
        intro hmem
        obtain ⟨entry, hentry, rfl⟩ := List.mem_map.mp hmem
        exact fresh (List.mem_map_of_mem hentry)
      rw [List.map_append, List.nodup_append]
      refine ⟨ih, by simp, ?_⟩
      intro x hx y hy
      rw [show y = b from List.mem_singleton.mp hy]
      intro hxb
      exact hb (hxb ▸ hx)

end Written

end QuantFamily
