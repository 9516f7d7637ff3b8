/-!
# Insertion-ordered tables

A table keeps its entries in the order in which their keys were first written.
Writing to a key that is already present replaces the value and keeps its place.
-/

namespace QuantFamily

/-- A finite map that remembers the order in which its keys were first written. -/
structure Table (κ : Type) (α : Type) where
  entries : List (κ × α) := []

namespace Table

variable {κ α : Type}

/-- The keys, oldest first. -/
def keys (table : Table κ α) : List κ :=
  table.entries.map (·.1)

/-- The values, in the order of their keys. -/
def values (table : Table κ α) : List α :=
  table.entries.map (·.2)

/-- The number of keys. -/
def size (table : Table κ α) : Nat :=
  table.entries.length

variable [DecidableEq κ]

/-- The value of the first entry with the given key. -/
def findEntry (key : κ) : List (κ × α) -> Option α
  | [] => none
  | entry :: rest => if entry.1 = key then some entry.2 else findEntry key rest

/-- The value stored at a key. -/
def get? (table : Table κ α) (key : κ) : Option α :=
  findEntry key table.entries

/-- Whether a key has a value. -/
def contains (table : Table κ α) (key : κ) : Bool :=
  (table.get? key).isSome

/-- Replace the value at the first entry with this key, or add an entry at the end. -/
def putEntry (key : κ) (value : α) : List (κ × α) -> List (κ × α)
  | [] => [(key, value)]
  | entry :: rest =>
      if entry.1 = key then (key, value) :: rest
      else entry :: putEntry key value rest

/-- Write a value at a key. -/
def put (table : Table κ α) (key : κ) (value : α) : Table κ α :=
  { entries := putEntry key value table.entries }

/-- Write several values, the later ones last. -/
def putAll (table : Table κ α) (entries : List (κ × α)) : Table κ α :=
  entries.foldl (fun acc entry => acc.put entry.1 entry.2) table

/-- The table with the given entries, written from left to right. -/
def ofList (entries : List (κ × α)) : Table κ α :=
  ({} : Table κ α).putAll entries

/-- Remove the entry of a key. -/
def erase (table : Table κ α) (key : κ) : Table κ α :=
  { entries := table.entries.filter (fun entry => decide (entry.1 ≠ key)) }

@[simp] theorem get?_empty (key : κ) : ({} : Table κ α).get? key = none := rfl

theorem findEntry_putEntry_self (key : κ) (value : α) (entries : List (κ × α)) :
    findEntry key (putEntry key value entries) = some value := by
  induction entries with
  | nil => simp [putEntry, findEntry]
  | cons entry rest ih =>
      by_cases h : entry.1 = key <;> simp [putEntry, findEntry, h, ih]

theorem findEntry_putEntry_of_ne {key other : κ} (value : α) (entries : List (κ × α))
    (h : other ≠ key) :
    findEntry other (putEntry key value entries) = findEntry other entries := by
  induction entries with
  | nil => simp [putEntry, findEntry, Ne.symm h]
  | cons entry rest ih =>
      by_cases hk : entry.1 = key
      · simp [putEntry, findEntry, hk, Ne.symm h]
      · by_cases ho : entry.1 = other <;> grind [putEntry, findEntry]

@[simp] theorem get?_put_self (table : Table κ α) (key : κ) (value : α) :
    (table.put key value).get? key = some value :=
  findEntry_putEntry_self key value table.entries

theorem get?_put_of_ne (table : Table κ α) {key other : κ} (value : α)
    (h : other ≠ key) : (table.put key value).get? other = table.get? other :=
  findEntry_putEntry_of_ne value table.entries h

/-- What is found after a write is the new entry or an old one of another key. -/
theorem eq_or_get?_of_get?_put {table : Table κ α} {key other : κ} {value found : α}
    (h : (table.put key value).get? other = some found) :
    (other = key ∧ found = value) ∨ (other ≠ key ∧ table.get? other = some found) := by
  by_cases hkey : other = key
  · subst hkey
    rw [get?_put_self] at h
    exact Or.inl ⟨rfl, (Option.some.inj h).symm⟩
  · rw [get?_put_of_ne _ _ hkey] at h
    exact Or.inr ⟨hkey, h⟩

/-! ## Keys and values -/

theorem findEntry_eq_none_iff {key : κ} {entries : List (κ × α)} :
    findEntry key entries = none ↔ key ∉ entries.map (·.1) := by
  induction entries with
  | nil => simp [findEntry]
  | cons entry rest ih =>
      by_cases h : entry.1 = key
      · simp [findEntry, h]
      · simp [findEntry, h, ih, Ne.symm h]

theorem mem_of_findEntry {key : κ} {value : α} {entries : List (κ × α)}
    (h : findEntry key entries = some value) : (key, value) ∈ entries := by
  induction entries with
  | nil => simp [findEntry] at h
  | cons entry rest ih =>
      by_cases hk : entry.1 = key
      · simp only [findEntry, hk, if_true, Option.some.injEq] at h
        subst h hk
        exact List.mem_cons_self
      · simp only [findEntry, hk, if_false] at h
        exact List.mem_cons_of_mem entry (ih h)

theorem putEntry_of_not_mem {key : κ} {value : α} {entries : List (κ × α)}
    (h : key ∉ entries.map (·.1)) : putEntry key value entries = entries ++ [(key, value)] := by
  induction entries with
  | nil => rfl
  | cons entry rest ih =>
      rw [List.map_cons, List.mem_cons, not_or] at h
      simp [putEntry, Ne.symm h.1, ih h.2]

theorem map_putEntry_of_mem {key : κ} {value : α} {entries : List (κ × α)}
    (h : key ∈ entries.map (·.1)) :
    (putEntry key value entries).map (·.1) = entries.map (·.1) := by
  induction entries with
  | nil => simp at h
  | cons entry rest ih =>
      by_cases hk : entry.1 = key
      · simp [putEntry, hk]
      · have hrest : key ∈ rest.map (·.1) := by
          simpa [Ne.symm hk] using h
        simp [putEntry, hk, ih hrest]

theorem mem_or_eq_of_mem_putEntry {key : κ} {value : α} {entry : κ × α}
    {entries : List (κ × α)} (h : entry ∈ putEntry key value entries) :
    entry = (key, value) ∨ entry ∈ entries := by
  induction entries with
  | nil => exact Or.inl (List.mem_singleton.mp h)
  | cons first rest ih =>
      by_cases hk : first.1 = key
      · rw [putEntry, if_pos hk] at h
        rcases List.mem_cons.mp h with h | h
        · exact Or.inl h
        · exact Or.inr (List.mem_cons_of_mem first h)
      · rw [putEntry, if_neg hk] at h
        rcases List.mem_cons.mp h with h | h
        · exact Or.inr (h ▸ List.mem_cons_self)
        · exact (ih h).imp_right (List.mem_cons_of_mem first)

theorem mem_or_eq_of_mem_put {table : Table κ α} {key : κ} {value : α} {entry : κ × α}
    (h : entry ∈ (table.put key value).entries) :
    entry = (key, value) ∨ entry ∈ table.entries :=
  mem_or_eq_of_mem_putEntry h

theorem mem_entries_of_get? {table : Table κ α} {key : κ} {value : α}
    (h : table.get? key = some value) : (key, value) ∈ table.entries :=
  mem_of_findEntry h

theorem get?_eq_none_iff {table : Table κ α} {key : κ} :
    table.get? key = none ↔ key ∉ table.keys :=
  findEntry_eq_none_iff

theorem mem_keys_of_get? {table : Table κ α} {key : κ} {value : α}
    (h : table.get? key = some value) : key ∈ table.keys :=
  List.mem_map.mpr ⟨(key, value), mem_of_findEntry h, rfl⟩

/-- A write under a new key leaves all entries as they were. -/
theorem get?_put_of_get? {table : Table κ α} {key other : κ} {found : α} (value : α)
    (fresh : key ∉ table.keys) (h : table.get? other = some found) :
    (table.put key value).get? other = some found := by
  have hne : other ≠ key := by
    rintro rfl
    exact fresh (mem_keys_of_get? h)
  exact (get?_put_of_ne table value hne).trans h

theorem mem_values_of_get? {table : Table κ α} {key : κ} {value : α}
    (h : table.get? key = some value) : value ∈ table.values :=
  List.mem_map.mpr ⟨(key, value), mem_of_findEntry h, rfl⟩

theorem contains_eq_false_iff {table : Table κ α} {key : κ} :
    table.contains key = false ↔ key ∉ table.keys := by
  rw [← get?_eq_none_iff]
  cases h : table.get? key <;> simp [contains, h]

theorem entries_put_of_not_mem {table : Table κ α} {key : κ} (value : α)
    (h : key ∉ table.keys) : (table.put key value).entries = table.entries ++ [(key, value)] :=
  putEntry_of_not_mem h

theorem keys_put_of_not_mem {table : Table κ α} {key : κ} (value : α)
    (h : key ∉ table.keys) : (table.put key value).keys = table.keys ++ [key] := by
  simp [keys, entries_put_of_not_mem value h]

theorem keys_put_of_mem {table : Table κ α} {key : κ} (value : α)
    (h : key ∈ table.keys) : (table.put key value).keys = table.keys :=
  map_putEntry_of_mem h

/-- Writing to a key that has a value replaces one entry. -/
theorem exists_entries_put_of_get? {table : Table κ α} {key : κ} {old : α}
    (h : table.get? key = some old) :
    ∃ before after, table.entries = before ++ (key, old) :: after ∧
      ∀ value, (table.put key value).entries = before ++ (key, value) :: after := by
  obtain ⟨entries⟩ := table
  change findEntry key entries = some old at h
  change ∃ before after, entries = before ++ (key, old) :: after ∧
    ∀ value, putEntry key value entries = before ++ (key, value) :: after
  induction entries with
  | nil => cases h
  | cons entry rest ih =>
      by_cases hkey : entry.1 = key
      · rw [findEntry, if_pos hkey, Option.some.injEq] at h
        refine ⟨[], rest, ?_, fun value => ?_⟩
        · rw [List.nil_append, ← h, ← hkey]
        · rw [putEntry, if_pos hkey, List.nil_append]
      · rw [findEntry, if_neg hkey] at h
        obtain ⟨before, after, hentries, hput⟩ := ih h
        refine ⟨entry :: before, after, by rw [hentries, List.cons_append], fun value => ?_⟩
        rw [putEntry, if_neg hkey, hput, List.cons_append]

theorem mem_keys_put {table : Table κ α} {key other : κ} {value : α} :
    other ∈ (table.put key value).keys ↔ other ∈ table.keys ∨ other = key := by
  by_cases hkey : key ∈ table.keys
  · rw [keys_put_of_mem value hkey]
    exact ⟨Or.inl, fun h => h.elim id fun heq => heq ▸ hkey⟩
  · rw [keys_put_of_not_mem value hkey, List.mem_append, List.mem_singleton]

theorem mem_keys_put_self {table : Table κ α} {key : κ} {value : α} :
    key ∈ (table.put key value).keys :=
  mem_keys_put.mpr (Or.inr rfl)

theorem mem_keys_put_of_mem {table : Table κ α} {key other : κ} {value : α}
    (h : other ∈ table.keys) : other ∈ (table.put key value).keys :=
  mem_keys_put.mpr (Or.inl h)

theorem nodup_keys_put {table : Table κ α} (h : table.keys.Nodup) (key : κ) (value : α) :
    (table.put key value).keys.Nodup := by
  by_cases hkey : key ∈ table.keys
  · rwa [keys_put_of_mem value hkey]
  · rw [keys_put_of_not_mem value hkey, List.nodup_append]
    refine ⟨h, List.pairwise_singleton _ key, fun a ha b hb => ?_⟩
    rw [List.mem_singleton.mp hb]
    exact fun heq => hkey (heq ▸ ha)

theorem get?_of_mem_entries {table : Table κ α} (h : table.keys.Nodup) {entry : κ × α}
    (hentry : entry ∈ table.entries) : table.get? entry.1 = some entry.2 := by
  obtain ⟨entries⟩ := table
  simp only [keys, get?] at h ⊢
  induction entries with
  | nil => cases hentry
  | cons first rest ih =>
      rw [List.map_cons, List.nodup_cons] at h
      rcases List.mem_cons.mp hentry with rfl | hentry
      · simp [findEntry]
      · have hne : first.1 ≠ entry.1 := fun heq => h.1 (heq ▸ List.mem_map_of_mem hentry)
        simpa [findEntry, hne] using ih h.2 hentry

/-- With distinct keys, the last entry of a key is its only one. -/
theorem find?_reverse_entries {table : Table κ α} (h : table.keys.Nodup) (key : κ) :
    (table.entries.reverse.find? fun entry => decide (entry.1 = key)).map Prod.snd =
      table.get? key := by
  obtain ⟨entries⟩ := table
  simp only [keys, get?] at h ⊢
  induction entries with
  | nil => rfl
  | cons entry rest ih =>
      rw [List.map_cons, List.nodup_cons] at h
      rw [List.reverse_cons, List.find?_append, findEntry]
      by_cases hkey : entry.1 = key
      · have hrest : rest.reverse.find? (fun entry => decide (entry.1 = key)) = none := by
          rw [List.find?_eq_none]
          intro other hother heq
          refine h.1 (List.mem_map.mpr ⟨other, List.mem_reverse.mp hother, ?_⟩)
          exact (of_decide_eq_true heq).trans hkey.symm
        simp [hrest, hkey]
      · rw [if_neg hkey, ← ih h.2]
        simp [hkey]

theorem values_put_of_not_mem {table : Table κ α} {key : κ} (value : α)
    (h : key ∉ table.keys) : (table.put key value).values = table.values ++ [value] := by
  simp [values, entries_put_of_not_mem value h]

/-! ## Several values at once -/

theorem findEntry_append_of_some {key : κ} {value : α} {entries : List (κ × α)}
    (h : findEntry key entries = some value) (more : List (κ × α)) :
    findEntry key (entries ++ more) = some value := by
  induction entries with
  | nil => cases h
  | cons entry rest ih =>
      rw [List.cons_append]
      by_cases hkey : entry.1 = key
      · rw [findEntry, if_pos hkey] at h ⊢
        exact h
      · rw [findEntry, if_neg hkey] at h ⊢
        exact ih h

theorem get?_putAll_of_not_mem {table : Table κ α} {entries : List (κ × α)} {key : κ}
    (h : key ∉ entries.map (·.1)) : (table.putAll entries).get? key = table.get? key := by
  induction entries generalizing table with
  | nil => rfl
  | cons entry rest ih =>
      rw [List.map_cons, List.mem_cons, not_or] at h
      exact (ih h.2).trans (get?_put_of_ne table entry.2 h.1)

theorem get?_putAll_of_mem {table : Table κ α} {entries : List (κ × α)}
    (hnodup : (entries.map (·.1)).Nodup) {entry : κ × α} (h : entry ∈ entries) :
    (table.putAll entries).get? entry.1 = some entry.2 := by
  induction entries generalizing table with
  | nil => cases h
  | cons first rest ih =>
      rw [List.map_cons, List.nodup_cons] at hnodup
      rcases List.mem_cons.mp h with rfl | h
      · exact (get?_putAll_of_not_mem hnodup.1).trans (get?_put_self table entry.1 entry.2)
      · exact ih hnodup.2 h

theorem nodup_keys_putAll {table : Table κ α} (h : table.keys.Nodup) (entries : List (κ × α)) :
    (table.putAll entries).keys.Nodup := by
  induction entries generalizing table with
  | nil => exact h
  | cons entry rest ih => exact ih (nodup_keys_put h entry.1 entry.2)

end Table

end QuantFamily
