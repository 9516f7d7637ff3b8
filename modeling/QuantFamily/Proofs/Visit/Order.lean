import QuantFamily.Proofs.Gate.Log
import QuantFamily.Proofs.Visit.Levels

/-!
# The order of visited gates

Gates that are visited breadth first are written in reverse. They can be evaluated in the order of
their lines exactly when, on the way down from the start, every block comes up before the blocks it
refers to. Blocks are told apart by their names, which is the same as telling them apart.
-/

namespace QuantFamily

/-- A block comes later in a list without repetitions. -/
theorem idxOf_lt_idxOf_iff_mem {α : Type} [DecidableEq α] {before after : List α} {a b : α}
    (h : (before ++ a :: after).Nodup) (hb : b ∈ before ++ a :: after) :
    (before ++ a :: after).idxOf a < (before ++ a :: after).idxOf b ↔ b ∈ after := by
  grind

namespace Formula

variable {φ : Formula} {b c : Block}

/-- Identifiers tell blocks with contents apart, and so do names. -/
theorem eq_of_id_eq (hb : φ.contents.get? b.id = some b) (hc : φ.contents.get? c.id = some c)
    (h : b.id = c.id) : b = c := by
  rw [h, hc] at hb
  exact (Option.some.inj hb).symm

theorem WellFormed.name_eq_iff (hφ : φ.WellFormed) (hb : φ.contents.get? b.id = some b)
    (hc : φ.contents.get? c.id = some c) : b.name = c.name ↔ b = c := by
  constructor
  · intro hname
    have hbname := (hφ.filed b.id b (Table.mem_entries_of_get? hb)).2
    have hcname := (hφ.filed c.id c (Table.mem_entries_of_get? hc)).2
    rw [hname, hcname] at hbname
    exact eq_of_id_eq hb hc (Option.some.inj hbname).symm
  · rintro rfl
    rfl

/-- The names of the visited blocks tell whether a block has been visited. -/
theorem WellFormed.contains_names (hφ : φ.WellFormed) {met : List Block}
    (hmet : ∀ c ∈ met, φ.contents.get? c.id = some c) (hb : φ.contents.get? b.id = some b) :
    (met.reverse.map Block.name).contains b.name = decide (b ∈ met) := by
  rw [List.contains_eq_mem]
  congr 1
  rw [eq_iff_iff, List.mem_map]
  constructor
  · rintro ⟨c, hc, hname⟩
    rw [List.mem_reverse] at hc
    exact (hφ.name_eq_iff (hmet c hc) hb).mp hname ▸ hc
  · intro hmem
    exact ⟨b, List.mem_reverse.mpr hmem, rfl⟩

/-- How the gate of a block is written: under the identifier of the block, with operands that are
variables or blocks that are visited after it. -/
structure Renders (φ : Formula) (next : Block → List Block) (gate : Block → Gate) (b : Block) :
    Prop where
  id : (gate b).id = b.id
  held : ∀ c ∈ next b, φ.contents.get? c.id = some c
  operand : ∀ e ∈ (gate b).operands,
    (e.natAbs : Int) ∈ φ.vars.values ∨ ∃ c ∈ next b, c.id = (e.natAbs : Int)
  used : ∀ c ∈ next b, ∃ e ∈ (gate b).operands, (e.natAbs : Int) = c.id

/-- A visit, with the gates that its record stands for. -/
structure Visit (φ : Formula) (next : Block → List Block) (gate : Block → Gate) (root : Block)
    (record : List Block) : Prop where
  breadth : BreadthFirst next [] [root] record
  root : φ.contents.get? root.id = some root
  renders : ∀ b ∈ record, φ.Renders next gate b

namespace Visit

variable {next : Block → List Block} {gate : Block → Gate} {root : Block} {record : List Block}

theorem nodup (h : φ.Visit next gate root record) : record.Nodup := by
  simpa using h.breadth.nodup List.nodup_nil

theorem closed (h : φ.Visit next gate root record) (hb : b ∈ record) (hc : c ∈ next b) :
    c ∈ record := by
  rw [h.breadth.mem_iff] at hb ⊢
  exact hb.tail hc

theorem held (h : φ.Visit next gate root record) (hb : b ∈ record) :
    φ.contents.get? b.id = some b := by
  rcases Relation.ReflTransGen.cases_tail (h.breadth.mem_iff.mp hb) with hroot | ⟨c, hc, hstep⟩
  · exact hroot ▸ h.root
  · exact (h.renders c (h.breadth.mem_iff.mpr hc)).held b hstep

theorem map_id (h : φ.Visit next gate root record) :
    (record.reverse.map gate).map Gate.id = record.reverse.map Block.id := by
  rw [List.map_map]
  exact List.map_congr_left fun b hb => (h.renders b (List.mem_reverse.mp hb)).id

theorem nodup_ids (h : φ.Visit next gate root record) : (record.reverse.map Block.id).Nodup := by
  refine List.Nodup.map_on ?_ (List.nodup_reverse.mpr h.nodup)
  intro b hb c hc hid
  exact eq_of_id_eq (h.held (List.mem_reverse.mp hb)) (h.held (List.mem_reverse.mp hc)) hid

theorem id_mem_iff (h : φ.Visit next gate root record) (hc : c ∈ record) {part : List Block}
    (hpart : part ⊆ record) : c.id ∈ (part.map gate).map Gate.id ↔ c ∈ part := by
  rw [List.map_map, List.mem_map]
  constructor
  · rintro ⟨d, hd, hid⟩
    have hsame : d.id = c.id := (h.renders d (hpart hd)).id.symm.trans hid
    exact eq_of_id_eq (h.held (hpart hd)) (h.held hc) hsame ▸ hd
  · intro hmem
    exact ⟨c, hmem, (h.renders c hc).id⟩

/-- The gates of a visit are those of the blocks that can be reached. -/
theorem mem_gates_iff (h : φ.Visit next gate root record) {g : Gate} :
    g ∈ record.reverse.map gate ↔ ∃ b, Reaches next root b ∧ gate b = g := by
  simp only [List.mem_map, List.mem_reverse, h.breadth.mem_iff]

/-- Operands come before their use exactly when every block is visited before those it refers to. -/
theorem sequential_iff_idxOf (h : φ.Visit next gate root record) (hφ : φ.WellFormed) :
    Sequential φ.vars.values (record.reverse.map gate) ↔
      ∀ b ∈ record, ∀ c ∈ next b, record.idxOf b < record.idxOf c := by
  constructor
  · intro hsequential b hb c hc
    obtain ⟨before, after, rfl⟩ := List.append_of_mem hb
    have hcmem := h.closed hb hc
    obtain ⟨e, he, hid⟩ := (h.renders b hb).used c hc
    have hsplit : (before ++ b :: after).reverse.map gate =
        after.reverse.map gate ++ gate b :: before.reverse.map gate := by simp
    have hearlier := hsequential.earlier _ _ _ hsplit e he
    rw [hid] at hearlier
    rcases hearlier with hvar | hgate
    · exact absurd hvar (hφ.not_variable (h.held hcmem))
    · rw [h.id_mem_iff hcmem (by simp), List.mem_reverse] at hgate
      exact (idxOf_lt_idxOf_iff_mem h.nodup hcmem).mpr hgate
  · intro horder
    refine ⟨?_, ?_, ?_⟩
    · rw [h.map_id]
      exact h.nodup_ids
    · intro g hg
      obtain ⟨b, hb, rfl⟩ := List.mem_map.mp hg
      rw [(h.renders b (List.mem_reverse.mp hb)).id]
      exact hφ.not_variable (h.held (List.mem_reverse.mp hb))
    · intro first g rest hsplit e he
      obtain ⟨after, others, hrecord, rfl, hothers⟩ := List.map_eq_append_iff.mp hsplit
      obtain ⟨b, before, rfl, rfl, rfl⟩ := List.map_eq_cons_iff.mp hothers
      have hlist : record = before.reverse ++ b :: after.reverse := by
        rw [← List.reverse_reverse record, hrecord]
        simp
      have hb : b ∈ record := by simp [hlist]
      rcases (h.renders b hb).operand e he with hvar | ⟨c, hc, hid⟩
      · exact Or.inl hvar
      · have hcmem := h.closed hb hc
        have hafter := horder b hb c hc
        have hnodup := h.nodup
        rw [hlist] at hafter hnodup hcmem
        rw [idxOf_lt_idxOf_iff_mem hnodup hcmem, List.mem_reverse] at hafter
        rw [← hlist] at hcmem
        rw [← hid, h.id_mem_iff hcmem (by simp [hlist])]
        exact Or.inr hafter

/-- The gates of a visit, written in reverse, can be evaluated one after the other exactly when
every block comes up before the blocks it refers to. -/
theorem sequential_iff (h : φ.Visit next gate root record) (hφ : φ.WellFormed) :
    Sequential φ.vars.values (record.reverse.map gate) ↔
      ∀ b c, Reaches next root b → c ∈ next b → ComesBefore next root b c := by
  rw [h.sequential_iff_idxOf hφ]
  constructor
  · intro horder b c hb hc
    exact h.breadth.idxOf_lt_iff.mp (horder b (h.breadth.mem_iff.mpr hb) c hc)
  · intro hcomes b hb c hc
    exact h.breadth.idxOf_lt_iff.mpr (hcomes b c (h.breadth.mem_iff.mp hb) hc)

end Visit

end Formula

end QuantFamily
