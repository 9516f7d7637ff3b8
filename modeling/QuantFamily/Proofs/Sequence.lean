import Mathlib.Data.List.Basic
import Mathlib.Data.List.Forall2
import Mathlib.Data.List.Induction
import Mathlib.Data.List.Infix
import Mathlib.Data.List.Nodup

/-!
# Sequences

Bodies, groupings and visits all collect what they come across and leave out what they have met
before. What they end up with is a list without its repetitions, in the order of first occurrences.
-/

namespace QuantFamily

theorem exists_of_mem_forall₂ {β γ : Type} {R : β → γ → Prop} {xs : List β} {ys : List γ} {y : γ}
    (h : List.Forall₂ R xs ys) (hy : y ∈ ys) : ∃ x ∈ xs, R x y := by
  induction h with
  | nil => cases hy
  | cons hxy hrest ih =>
      rcases List.mem_cons.mp hy with rfl | hy
      · exact ⟨_, List.mem_cons_self, hxy⟩
      · obtain ⟨x, hx, hR⟩ := ih hy
        exact ⟨x, List.mem_cons_of_mem _ hx, hR⟩

/-! ## First occurrences -/

/-- What comes first with some property is the same however the list is split there. -/
theorem eq_of_first {β : Type} {P : β → Prop} {before before' after after' : List β} {x y : β}
    (h : before ++ x :: after = before' ++ y :: after') (hx : P x) (hy : P y)
    (hbefore : ∀ z ∈ before, ¬ P z) (hbefore' : ∀ z ∈ before', ¬ P z) : x = y := by
  induction before generalizing before' with
  | nil =>
      cases before' with
      | nil => exact (List.cons.inj h).1
      | cons z rest =>
          rw [(List.cons.inj h).1] at hx
          exact absurd hx (hbefore' z List.mem_cons_self)
  | cons z rest ih =>
      cases before' with
      | nil =>
          rw [← (List.cons.inj h).1] at hy
          exact absurd hy (hbefore z List.mem_cons_self)
      | cons z' rest' =>
          exact ih (List.cons.inj h).2 (fun w hw => hbefore w (List.mem_cons_of_mem z hw))
            fun w hw => hbefore' w (List.mem_cons_of_mem z' hw)

variable {α : Type} [DecidableEq α]

theorem eraseDups_append_of_subset {xs ys : List α} (h : ys ⊆ xs) :
    (xs ++ ys).eraseDups = xs.eraseDups := by
  have hnone : ys.removeAll xs = [] := by
    simpa [List.removeAll, List.filter_eq_nil_iff] using fun y hy => h hy
  rw [List.eraseDups_append, hnone]
  exact List.append_nil _

theorem eraseDups_append_singleton (xs : List α) (x : α) :
    (xs ++ [x]).eraseDups = if x ∈ xs then xs.eraseDups else xs.eraseDups ++ [x] := by
  by_cases hx : x ∈ xs
  · rw [if_pos hx]
    exact eraseDups_append_of_subset (by simpa using hx)
  · have hsingle : [x].eraseDups = [x] := rfl
    rw [if_neg hx, List.eraseDups_append]
    simp [List.removeAll, hx, hsingle]

theorem nodup_eraseDups (xs : List α) : xs.eraseDups.Nodup := by
  induction xs using List.reverseRecOn with
  | nil => exact List.nodup_nil
  | append_singleton xs x ih =>
      rw [eraseDups_append_singleton]
      split
      · exact ih
      · rename_i hx
        refine List.nodup_append.mpr ⟨ih, List.nodup_singleton x, ?_⟩
        rintro a ha b hb rfl
        cases List.mem_singleton.mp hb
        exact hx (List.mem_eraseDups.mp ha)

theorem eraseDups_of_nodup {xs : List α} (h : xs.Nodup) : xs.eraseDups = xs := by
  induction xs using List.reverseRecOn with
  | nil => rfl
  | append_singleton xs x ih =>
      rw [List.nodup_append] at h
      have hx : x ∉ xs := fun hmem => h.2.2 x hmem x (List.mem_singleton_self x) rfl
      rw [eraseDups_append_singleton, if_neg hx, ih h.1]

theorem nodup_of_length_eraseDups {xs : List α} (h : xs.eraseDups.length = xs.length) :
    xs.Nodup := by
  have hshort : ∀ ys : List α, ys.eraseDups.length ≤ ys.length := by
    intro ys
    induction ys using List.reverseRecOn with
    | nil => exact Nat.le_refl 0
    | append_singleton ys y ih =>
        rw [eraseDups_append_singleton]
        split <;> simp only [List.length_append, List.length_singleton] <;> omega
  induction xs using List.reverseRecOn with
  | nil => exact List.nodup_nil
  | append_singleton xs x ih =>
      have hle := hshort xs
      rw [eraseDups_append_singleton] at h
      split at h
      · simp only [List.length_append, List.length_singleton] at h
        omega
      · rename_i hx
        simp only [List.length_append, List.length_singleton] at h
        refine List.nodup_append.mpr ⟨ih (by omega), List.nodup_singleton x, ?_⟩
        rintro a ha b hb rfl
        cases List.mem_singleton.mp hb
        exact hx ha

/-- What stands behind a list depends on the list only through its members. -/
theorem eraseDups_append_congr {xs ys : List α} (h : xs.eraseDups = ys.eraseDups) (zs : List α) :
    (xs ++ zs).eraseDups = (ys ++ zs).eraseDups := by
  have hmem : ∀ z, z ∈ xs ↔ z ∈ ys := by
    intro z
    rw [← List.mem_eraseDups, h, List.mem_eraseDups]
  have hrest : zs.removeAll xs = zs.removeAll ys := by
    simp [List.removeAll, hmem]
  rw [List.eraseDups_append, List.eraseDups_append, h, hrest]

theorem eraseDups_append_cons_of_mem {xs : List α} {x : α} (h : x ∈ xs) (ys : List α) :
    (xs ++ x :: ys).eraseDups = (xs ++ ys).eraseDups := by
  have hsame : (xs ++ [x]).eraseDups = xs.eraseDups :=
    eraseDups_append_of_subset (by simpa using h)
  rw [List.append_cons]
  exact eraseDups_append_congr hsame ys

/-- A repeated member leads to nothing that did not come up before. -/
theorem eraseDups_append_flatMap (ys xs : List α) (next : α → List α) :
    (ys ++ xs.eraseDups.flatMap next).eraseDups = (ys ++ xs.flatMap next).eraseDups := by
  induction xs using List.reverseRecOn with
  | nil => rfl
  | append_singleton xs x ih =>
      rw [eraseDups_append_singleton, List.flatMap_append, ← List.append_assoc]
      by_cases hx : x ∈ xs
      · have hold : [x].flatMap next ⊆ ys ++ xs.flatMap next := by
          intro y hy
          rw [List.flatMap_singleton] at hy
          exact List.mem_append_right ys (List.mem_flatMap.mpr ⟨x, hx, hy⟩)
        rw [if_pos hx, ih, eraseDups_append_of_subset hold]
      · rw [if_neg hx, List.flatMap_append, ← List.append_assoc]
        exact eraseDups_append_congr ih _

theorem eraseDups_mono {xs ys : List α} (h : xs <+: ys) : xs.eraseDups <+: ys.eraseDups := by
  obtain ⟨zs, rfl⟩ := h
  rw [List.eraseDups_append]
  exact List.prefix_append _ _

/-- Dropping repetitions leaves the order of first occurrences as it is. -/
theorem idxOf_eraseDups_lt_iff (xs : List α) (a b : α) :
    xs.eraseDups.idxOf a < xs.eraseDups.idxOf b ↔ xs.idxOf a < xs.idxOf b := by
  induction xs using List.reverseRecOn with
  | nil => rfl
  | append_singleton xs x ih =>
      have hplace : ∀ y, (y ∈ xs → xs.idxOf y < xs.length) ∧ (y ∉ xs → xs.idxOf y = xs.length) :=
        fun y => ⟨List.idxOf_lt_length_iff.mpr, List.idxOf_eq_length_iff.mpr⟩
      have hkept : ∀ y, (y ∈ xs → xs.eraseDups.idxOf y < xs.eraseDups.length) ∧
          (y ∉ xs → xs.eraseDups.idxOf y = xs.eraseDups.length) := fun y =>
        ⟨fun hy => List.idxOf_lt_length_iff.mpr (List.mem_eraseDups.mpr hy),
          fun hy => List.idxOf_eq_length_iff.mpr (mt List.mem_eraseDups.mp hy)⟩
      have ha := hplace a
      have hb := hplace b
      have ha' := hkept a
      have hb' := hkept b
      rw [eraseDups_append_singleton]
      by_cases hx : x ∈ xs
      · rw [if_pos hx]
        grind
      · rw [if_neg hx]
        grind

end QuantFamily
