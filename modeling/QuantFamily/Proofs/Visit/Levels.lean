import Mathlib.Logic.Relation
import QuantFamily.Proofs.Sequence

/-!
# Breadth-first visits

A queue is worked off from its front. What has been met before is dropped; anything else is
recorded, and what it leads to joins the queue at its end. The record of a visit holds all that can
be reached, each once, and its order is that of the levels below the start: what fewer steps lead to
comes first, and what equally many steps lead to comes from left to right. Only first occurrences
count, so something that is reached on ways of several lengths stands where the shortest way leads.
-/

namespace QuantFamily

/-! ## Visits -/

section Visits

variable {α : Type} {next : α → List α} {met queue record : List α} {root a b : α}

/-- Working off a queue, when some things have been met: what was met is dropped, and what is new is
recorded and sends what it leads to to the end of the queue. -/
inductive BreadthFirst (next : α → List α) : List α → List α → List α → Prop
  | nil (met : List α) : BreadthFirst next met [] []
  | skip {met queue record : List α} {a : α} (old : a ∈ met)
      (rest : BreadthFirst next met queue record) : BreadthFirst next met (a :: queue) record
  | visit {met queue record : List α} {a : α} (fresh : a ∉ met)
      (rest : BreadthFirst next (met ++ [a]) (queue ++ next a) record) :
      BreadthFirst next met (a :: queue) (a :: record)

/-- Any number of steps lead from one to the other. -/
def Reaches (next : α → List α) : α → α → Prop :=
  Relation.ReflTransGen fun a b => b ∈ next a

/-- What at most so many steps lead to. What fewer steps lead to comes first, and what equally many
steps lead to comes from left to right. -/
def levels (next : α → List α) (root : α) : Nat → List α
  | 0 => [root]
  | n + 1 => root :: (levels next root n).flatMap next

theorem exists_levels_of_reaches (h : Reaches next root a) : ∃ n, a ∈ levels next root n := by
  induction h with
  | refl => exact ⟨0, List.mem_singleton_self root⟩
  | @tail a b _ hstep ih =>
      obtain ⟨n, hn⟩ := ih
      exact ⟨n + 1, List.mem_cons_of_mem root (List.mem_flatMap.mpr ⟨a, hn, hstep⟩)⟩

namespace BreadthFirst

theorem nodup (h : BreadthFirst next met queue record) (hmet : met.Nodup) :
    (met ++ record).Nodup := by
  induction h with
  | nil met => simpa using hmet
  | skip old rest ih => exact ih hmet
  | @visit met queue record a fresh rest ih =>
      have hlonger : (met ++ [a]).Nodup := by
        rw [List.nodup_append]
        simpa [hmet] using fun x hx => ne_of_mem_of_not_mem hx fresh
      simpa using ih hlonger

theorem reaches (h : BreadthFirst next met queue record) (hb : b ∈ record) :
    ∃ a ∈ queue, Reaches next a b := by
  induction h with
  | nil => cases hb
  | skip old rest ih =>
      obtain ⟨a, ha, hreaches⟩ := ih hb
      exact ⟨a, List.mem_cons_of_mem _ ha, hreaches⟩
  | @visit met queue record c fresh rest ih =>
      by_cases hbc : b = c
      · subst hbc
        exact ⟨b, List.mem_cons_self, .refl⟩
      · obtain ⟨a, ha, hreaches⟩ := ih ((List.mem_cons.mp hb).resolve_left hbc)
        rcases List.mem_append.mp ha with hold | hnew
        · exact ⟨a, List.mem_cons_of_mem c hold, hreaches⟩
        · exact ⟨c, List.mem_cons_self, Relation.ReflTransGen.head hnew hreaches⟩

variable [DecidableEq α]

/-- The record is what the queue and the record lead to, without repetitions. -/
theorem eraseDups_eq (h : BreadthFirst next met queue record) (hmet : met.Nodup) :
    (met ++ queue ++ record.flatMap next).eraseDups = met ++ record := by
  induction h with
  | nil met => simpa using eraseDups_of_nodup hmet
  | @skip met queue record a old rest ih =>
      rw [List.append_assoc, List.cons_append, eraseDups_append_cons_of_mem old,
        ← List.append_assoc, ih hmet]
  | @visit met queue record a fresh rest ih =>
      have hlonger : (met ++ [a]).Nodup := by
        have hall := (BreadthFirst.visit fresh rest).nodup hmet
        rw [List.append_cons] at hall
        exact (List.nodup_append.mp hall).1
      simpa using ih hlonger

variable (h : BreadthFirst next [] [root] record)

include h

theorem eraseDups_root : (root :: record.flatMap next).eraseDups = record := by
  simpa using h.eraseDups_eq List.nodup_nil

theorem mem_iff : b ∈ record ↔ Reaches next root b := by
  constructor
  · intro hb
    obtain ⟨a, ha, hreaches⟩ := h.reaches hb
    exact List.mem_singleton.mp ha ▸ hreaches
  · intro hreaches
    induction hreaches with
    | refl =>
        rw [← h.eraseDups_root, List.mem_eraseDups]
        exact List.mem_cons_self
    | @tail a b _ hstep ih =>
        rw [← h.eraseDups_root, List.mem_eraseDups]
        exact List.mem_cons_of_mem root (List.mem_flatMap.mpr ⟨a, ih, hstep⟩)

/-- The record begins with the upper levels, as far down as one likes. -/
theorem starts_with_levels (n : Nat) : (levels next root n).eraseDups <+: record := by
  induction n with
  | zero =>
      have hroot : [root] <+: root :: record.flatMap next := ⟨record.flatMap next, rfl⟩
      have hstart := eraseDups_mono hroot
      rwa [h.eraseDups_root] at hstart
  | succ n ih =>
      obtain ⟨more, hmore⟩ := ih
      have hbelow : root :: (levels next root n).eraseDups.flatMap next <+:
          root :: record.flatMap next := by
        rw [← hmore, List.flatMap_append]
        exact ⟨more.flatMap next, rfl⟩
      have hstart := eraseDups_mono hbelow
      rw [h.eraseDups_root, ← List.singleton_append, eraseDups_append_flatMap] at hstart
      exact hstart

end BreadthFirst

/-- On the way down from the root, level by level, one comes up before the other. -/
def ComesBefore [DecidableEq α] (next : α → List α) (root a b : α) : Prop :=
  ∃ n, (levels next root n).idxOf a < (levels next root n).idxOf b

theorem root_mem_levels (next : α → List α) (root : α) (n : Nat) : root ∈ levels next root n := by
  cases n with
  | zero => exact List.mem_singleton_self root
  | succ n => exact List.mem_cons_self

/-- Once nothing new comes up, the levels so far tell the order of everything. -/
theorem comesBefore_of_closed [DecidableEq α] {n : Nat}
    (closed : ∀ a ∈ levels next root n, ∀ b ∈ next a, b ∈ levels next root n)
    (order : ∀ a ∈ levels next root n, ∀ b ∈ next a,
      (levels next root n).idxOf a < (levels next root n).idxOf b)
    (ha : Reaches next root a) (hb : b ∈ next a) : ComesBefore next root a b := by
  have hmem : a ∈ levels next root n := by
    clear hb
    induction ha with
    | refl => exact root_mem_levels next root n
    | tail _ hstep ih => exact closed _ ih _ hstep
  exact ⟨n, order a hmem b hb⟩

/-- The record has the order in which things come up on the way down. -/
theorem BreadthFirst.idxOf_lt_iff [DecidableEq α] (h : BreadthFirst next [] [root] record) :
    record.idxOf a < record.idxOf b ↔ ComesBefore next root a b := by
  constructor
  · intro hlt
    have ha : a ∈ record :=
      List.idxOf_lt_length_iff.mp (Nat.lt_of_lt_of_le hlt List.idxOf_le_length)
    obtain ⟨n, hn⟩ := exists_levels_of_reaches (h.mem_iff.mp ha)
    refine ⟨n, (idxOf_eraseDups_lt_iff _ a b).mp ?_⟩
    have hstart := h.starts_with_levels n
    rw [hstart.idxOf_eq_of_mem (List.mem_eraseDups.mpr hn)]
    by_cases hb : b ∈ (levels next root n).eraseDups
    · rwa [hstart.idxOf_eq_of_mem hb]
    · have hinside := List.idxOf_lt_length_iff.mpr (List.mem_eraseDups.mpr hn)
      rw [hstart.idxOf_eq_of_mem (List.mem_eraseDups.mpr hn)] at hinside
      rwa [List.idxOf_eq_length_iff.mpr hb]
  · rintro ⟨n, hlt⟩
    rw [← idxOf_eraseDups_lt_iff] at hlt
    have ha := List.idxOf_lt_length_iff.mp (Nat.lt_of_lt_of_le hlt List.idxOf_le_length)
    have hstart := h.starts_with_levels n
    rw [hstart.idxOf_eq_of_mem ha] at hlt
    exact Nat.lt_of_lt_of_le hlt (hstart.idxOf_le b)

end Visits

end QuantFamily
