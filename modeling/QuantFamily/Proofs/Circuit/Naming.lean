import QuantFamily.Proofs.Circuit.Listing

/-!
# Names in comments

A comment that names a variable is read as it was written. After the comments have been read, each
variable that they name still has its number as its name, so it can be renamed. The names that were
read can be written in comments again.
-/

namespace QuantFamily.Circuit

open Reader

/-! ## Comments -/

/-- A name that a comment can give to a variable. -/
def IsGivenName (name : String) : Prop :=
  name ≠ "" ∧ ∀ c ∈ name.toList, isGivenNameChar c = true

instance (name : String) : Decidable (IsGivenName name) :=
  inferInstanceAs (Decidable (name ≠ "" ∧ ∀ c ∈ name.toList, isGivenNameChar c = true))

theorem isGivenNameChar_iff {c : Char} :
    isGivenNameChar c = true ↔ 42 ≤ c.toNat ∧ c.toNat ≤ 122 := by
  simp only [isGivenNameChar, Bool.and_eq_true, decide_eq_true_eq]
  exact Iff.rfl

theorem isBlank_of_isGivenNameChar {c : Char} (h : isGivenNameChar c = true) :
    Text.isBlank c = false := by
  have hrange := isGivenNameChar_iff.mp h
  simp only [Text.isBlank, Text.inRanges, Text.blankRanges, List.any_cons, List.any_nil,
    Bool.or_false, Bool.or_eq_false_iff, Bool.and_eq_false_iff, decide_eq_false_iff_not]
  omega

theorem IsGivenName.oneLine {name : String} (h : IsGivenName name) : OneLine name.toList := by
  intro c hc
  have hrange := isGivenNameChar_iff.mp (h.2 c hc)
  constructor <;> (rintro rfl; revert hrange; decide)

section Names

variable {k : Nat} {name : String}

theorem toList_nameText (k : Nat) (name : String) :
    (nameText (k, name)).toList = "#VarName ".toList ++
      (List.replicate (3 - (Nat.repr k).length) ' ' ++
        (Nat.toDigits 10 k ++ ' ' :: ':' :: ' ' :: name.toList)) := by
  simp [nameText, threeColumns, Text.toList_pushn]

theorem givenName?_nameText (h : IsGivenName name) :
    givenName? (nameText (k, name)).toList = some (k, name) := by
  have hdigits : ∀ c ∈ Nat.toDigits 10 k, c.isDigit = true := fun c hc =>
    Text.isDigit_of_mem_toDigits hc
  generalize hrest : Nat.toDigits 10 k ++ ' ' :: ':' :: ' ' :: name.toList = rest
  have hstart : Text.dropStart? "#VarName".toList (nameText (k, name)).toList =
      some (' ' :: (List.replicate (3 - (Nat.repr k).length) ' ' ++ rest)) := by
    rw [toList_nameText, hrest]
    rfl
  have hspaces : spaces? (' ' :: (List.replicate (3 - (Nat.repr k).length) ' ' ++ rest)) =
      some rest := by
    obtain ⟨d, others, hd⟩ :=
      List.exists_cons_of_ne_nil (Nat.toDigits_ne_nil : Nat.toDigits 10 k ≠ [])
    have hspace : d ≠ ' ' := by
      rintro rfl
      cases hdigits ' ' (hd ▸ List.mem_cons_self)
    rw [spaces?, List.dropWhile_append_of_pos (by simp), ← hrest, hd]
    simp [hspace]
  have hrun : run? Char.isDigit rest =
      some (Nat.toDigits 10 k, ' ' :: ':' :: ' ' :: name.toList) := by
    rw [← hrest]
    exact Gate.run?_append Nat.toDigits_ne_nil hdigits (by decide) _
  have hcolon : (' ' :: ':' :: ' ' :: name.toList).dropWhile Text.isBlank =
      ':' :: ' ' :: name.toList := by
    rw [List.dropWhile_cons_of_pos (by decide), List.dropWhile_cons_of_neg (by decide)]
  have hblank : (' ' :: name.toList).dropWhile Text.isBlank = name.toList := by
    rw [List.dropWhile_cons_of_pos (by decide)]
    exact Text.dropWhile_isBlank_eq_self fun c hc => isBlank_of_isGivenNameChar (h.2 c hc)
  have hall : name.toList.all isGivenNameChar = true := List.all_eq_true.mpr h.2
  have hempty : name.toList.isEmpty = false := by simpa using h.1
  unfold givenName?
  simp only [hstart, hspaces, hrun, Option.bind_eq_bind, Option.bind_some, hcolon, hblank, hall,
    hempty, Text.readDigits_toDigits, String.ofList_toList]
  rfl

theorem trim_nameText (h : IsGivenName name) :
    Text.trim (nameText (k, name)).toList = (nameText (k, name)).toList := by
  have htext : (nameText (k, name)).toList =
      '#' :: ("VarName ".toList ++ (threeColumns k).toList ++ " : ".toList ++ name.toList) := by
    simp [nameText]
  rw [htext]
  exact Text.trim_of_solid_end (by decide) (by simpa using h.1)
    (fun c hc => isBlank_of_isGivenNameChar (h.2 c hc)) _

theorem givenNames_nameText (h : IsGivenName name) (number : Nat) (rest : List (Nat × List Char))
    (names : Table Nat String) :
    givenNames ((number, (nameText (k, name)).toList) :: rest) names =
      givenNames rest (names.put k name) := by
  have hstart : Text.startsWith "#VarName ".toList (nameText (k, name)).toList = true := by
    rw [toList_nameText]
    exact List.isPrefixOf_iff_prefix.mpr (List.prefix_append _ _)
  rw [givenNames, trim_nameText h, hstart, givenName?_nameText h]
  rfl

theorem givenNames_largest (largest : Int) (number : Nat) (rest : List (Nat × List Char))
    (names : Table Nat String) :
    givenNames ((number, ("#QCIR-G14 " ++ Text.showInt largest).toList) :: rest) names =
      givenNames rest names := by
  have htext : ("#QCIR-G14 " ++ Text.showInt largest).toList =
      '#' :: ("QCIR-G14 ".toList ++ (Text.showInt largest).toList) := by
    simp
  rw [givenNames, htext, Text.trim_of_solid_end (by decide) (Text.showInt_ne_nil largest)
    fun c hc => Text.isBlank_eq_false_of_mem_showInt hc]
  simp [Text.startsWith, List.isPrefixOf]

/-- Comments that name variables are read one by one. -/
theorem givenNames_names {entries : List (Nat × String)} {lines : List (Nat × List Char)}
    {others : List (List Char)} (h : ∀ entry ∈ entries, IsGivenName entry.2)
    (names : Table Nat String)
    (hlines : lines.map Prod.snd = entries.map (fun entry => (nameText entry).toList) ++ others) :
    ∃ rest, rest.map Prod.snd = others ∧
      givenNames lines names = givenNames rest (names.putAll entries) := by
  induction entries generalizing lines names with
  | nil => exact ⟨lines, hlines, rfl⟩
  | cons entry entries ih =>
      rw [List.forall_mem_cons] at h
      rw [List.map_cons, List.cons_append] at hlines
      obtain ⟨⟨number, line⟩, lines, rfl, hline, hrest⟩ := List.map_eq_cons_iff.mp hlines
      dsimp only at hline
      obtain ⟨rest, hothers, hread⟩ := ih h.2 (names.put entry.1 entry.2) hrest
      exact ⟨rest, hothers, by rw [hline, givenNames_nameText h.1, hread]; rfl⟩

theorem heading_names {entries : List (Nat × String)} {lines : List (Nat × List Char)}
    {others : List (List Char)} (last : Nat) (before : List (Binder × List String))
    (hlines : lines.map Prod.snd = entries.map (fun entry => (nameText entry).toList) ++ others) :
    ∃ rest, rest.map Prod.snd = others ∧ heading last lines before = heading last rest before := by
  induction entries generalizing lines with
  | nil => exact ⟨lines, hlines, rfl⟩
  | cons entry entries ih =>
      rw [List.map_cons, List.cons_append] at hlines
      obtain ⟨⟨number, line⟩, lines, rfl, hline, hrest⟩ := List.map_eq_cons_iff.mp hlines
      dsimp only at hline
      obtain ⟨rest, hothers, hread⟩ := ih hrest
      refine ⟨rest, hothers, ?_⟩
      rw [hline, toList_nameText]
      exact (heading_comment _).trans hread

end Names

/-! ## Renaming -/

theorem get?_namesByNumber {names : List String} {numbers : Table String Int} {name : String}
    {k : Int} (hallot : allot names = .ok numbers) (h : numbers.get? name = some k) :
    (namesByNumber numbers).get? k.toNat = some name := by
  have hkeys := nodup_keys_of_allot hallot
  obtain ⟨-, hrange, hapart, -⟩ := numbers_of_allot hallot
  have hget : ∀ entry ∈ numbers.entries, numbers.get? entry.1 = some entry.2 := fun entry hentry =>
    Table.get?_of_mem_entries hkeys hentry
  have hnodup : (numbers.entries.map fun entry => entry.2.toNat).Nodup := by
    refine List.Nodup.map_on (fun a ha b hb heq => ?_) (List.Nodup.of_map _ hkeys)
    have hsame : a.2 = b.2 := by
      have ha := hrange _ _ (hget a ha)
      have hb := hrange _ _ (hget b hb)
      omega
    exact Prod.ext (hapart _ _ _ (hget a ha) (hsame ▸ hget b hb)) hsame
  have hperm := List.mergeSort_perm (numbers.entries.map fun entry => (entry.2.toNat, entry.1))
    fun a b => decide (a.1 ≤ b.1)
  have hentry := hperm.mem_iff.mpr
    (List.mem_map_of_mem (f := fun entry => (entry.2.toNat, entry.1)) (Table.mem_entries_of_get? h))
  refine Table.get?_putAll_of_mem ?_ hentry
  rw [(hperm.map _).nodup_iff, List.map_map]
  exact hnodup

/-- Variables whose names are their numbers can be renamed, once each. -/
theorem foldlM_rename {vars : List String} {entries : List (Nat × String)}
    {names : Table Nat String} (nodup : (entries.map (·.1)).Nodup)
    (h : ∀ entry ∈ entries, Nat.repr entry.1 ∈ vars →
      names.get? entry.1 = some (Nat.repr entry.1)) :
    ∃ renamed, entries.foldlM (rename vars) names = .ok renamed := by
  induction entries generalizing names with
  | nil => exact ⟨names, rfl⟩
  | cons entry entries ih =>
      rw [List.map_cons, List.nodup_cons] at nodup
      rw [List.forall_mem_cons] at h
      by_cases hvar : Nat.repr entry.1 ∈ vars
      · have hstep : rename vars names entry = .ok (names.put entry.1 entry.2) := by
          simp [rename, hvar, h.1 hvar]
        rw [List.foldlM_cons, hstep]
        refine ih nodup.2 fun other hother hmem => ?_
        have hne : other.1 ≠ entry.1 := fun heq => nodup.1 (heq ▸ List.mem_map_of_mem hother)
        rw [Table.get?_put_of_ne _ _ hne]
        exact h.2 other hother hmem
      · have hstep : rename vars names entry = .ok names := by
          simp [rename, hvar]
        rw [List.foldlM_cons, hstep]
        exact ih nodup.2 h.2

/-! ## Names that were read -/

theorem isGivenName_of_isName {name : String} (h : isName name.toList = true) :
    IsGivenName name := by
  simp only [isName, Bool.and_eq_true, Bool.not_eq_true', List.isEmpty_eq_false_iff,
    List.all_eq_true] at h
  refine ⟨fun hempty => h.1 (by rw [hempty]; rfl), fun c hc => isGivenNameChar_iff.mpr ?_⟩
  have hchar := h.2 c hc
  simp only [isNameChar, Char.isAlphanum, Bool.or_eq_true, decide_eq_true_eq] at hchar
  rcases hchar with (halpha | hdigit) | rfl
  · have hrange := Text.toNat_of_isAlpha halpha
    omega
  · have hrange := Text.toNat_of_isDigit hdigit
    omega
  · decide

theorem isGivenName_of_givenName? {line : List Char} {index : Nat} {name : String}
    (h : givenName? line = some (index, name)) : IsGivenName name := by
  unfold givenName? at h
  simp only [Option.bind_eq_bind, Option.bind_eq_some_iff] at h
  obtain ⟨rest, -, after, -, run, -, h⟩ := h
  split at h
  · split at h
    · rename_i hname
      obtain ⟨_, -, heq⟩ := Option.bind_eq_some_iff.mp h
      cases heq
      simp only [Bool.and_eq_true, Bool.not_eq_true', List.isEmpty_eq_false_iff,
        List.all_eq_true] at hname
      exact ⟨by simpa using hname.1, by simpa using hname.2⟩
    · cases h
  · cases h

/-- All names in a table are such as comments give. -/
def GivenNames (names : Table Nat String) : Prop :=
  ∀ entry ∈ names.entries, IsGivenName entry.2

theorem GivenNames.put {names : Table Nat String} {index : Nat} {name : String}
    (given : GivenNames names) (h : IsGivenName name) : GivenNames (names.put index name) := by
  intro entry hentry
  rcases Table.mem_or_eq_of_mem_put hentry with rfl | hentry
  · exact h
  · exact given entry hentry

theorem givenNames_given {lines rest : List (Nat × List Char)} {names found : Table Nat String}
    (given : GivenNames names) (h : givenNames lines names = .ok (found, rest)) :
    GivenNames found := by
  induction lines generalizing names with
  | nil =>
      cases h
      exact given
  | cons line lines ih =>
      rw [givenNames] at h
      split at h
      · split at h
        · rename_i hname
          exact ih (given.put (isGivenName_of_givenName? hname)) h
        · cases h
      · split at h
        · exact ih given h
        · cases h
          exact given

theorem heading_given {last : Nat} {lines : List (Nat × List Char)}
    {scopes : List (Binder × List String)} {found : Heading}
    (given : ∀ name ∈ scopes.flatMap (·.2), IsGivenName name)
    (h : heading last lines scopes = .ok found) :
    ∀ name ∈ found.scopes.flatMap (·.2), IsGivenName name := by
  induction lines generalizing scopes with
  | nil => cases h
  | cons line lines ih =>
      rw [heading] at h
      split at h
      · exact ih given h
      · split at h
        · cases h
        · split at h <;> cases h
          exact given
        · split at h
          · cases h
          · split at h
            · cases h
            · dsimp only at h
              split at h
              · cases h
              · rename_i hnames
                refine ih (fun name hname => ?_) h
                rw [List.flatMap_append, List.mem_append] at hname
                rcases hname with hname | hname
                · exact given name hname
                · simp only [List.flatMap_cons, List.flatMap_nil, List.append_nil] at hname
                  obtain ⟨item, hitem, rfl⟩ := List.mem_map.mp hname
                  have hall := List.find?_eq_none.mp hnames item hitem
                  exact isGivenName_of_isName (by simpa using hall)

theorem namesByNumber_given {numbers : Table String Int}
    (h : ∀ name ∈ numbers.keys, IsGivenName name) : GivenNames (namesByNumber numbers) := by
  have hputAll : ∀ (entries : List (Nat × String)) (names : Table Nat String), GivenNames names →
      (∀ entry ∈ entries, IsGivenName entry.2) → GivenNames (names.putAll entries) := by
    intro entries
    induction entries with
    | nil => exact fun names given _ => given
    | cons entry entries ih =>
        intro names given hentries
        rw [List.forall_mem_cons] at hentries
        exact ih _ (given.put hentries.1) hentries.2
  refine hputAll _ _ (by simp [GivenNames]) fun entry hentry => ?_
  rw [List.mem_mergeSort, List.mem_map] at hentry
  obtain ⟨old, hold, rfl⟩ := hentry
  exact h old.1 (List.mem_map_of_mem hold)

theorem rename_given {vars : List String} {names renamed : Table Nat String}
    {entry : Nat × String} (given : GivenNames names) (hentry : IsGivenName entry.2)
    (h : rename vars names entry = .ok renamed) : GivenNames renamed := by
  unfold rename at h
  dsimp only at h
  split at h
  · split at h
    · cases h
    · split at h <;> cases h
      exact given.put hentry
  · cases h
    exact given

/-- The names of the variables of a text that was read can be written in comments. -/
theorem variableNames_of_read {heedNames : Bool} {text : String} {document : Document}
    (h : Document.read heedNames text = .ok document) : GivenNames document.variableNames := by
  rw [Document.read_eq] at h
  obtain ⟨⟨found, lines⟩, hfound, h⟩ := exists_ok_of_bind h
  have hgiven : GivenNames found := by
    split at hfound
    · exact givenNames_given (by simp [GivenNames]) hfound
    · cases hfound
      simp [GivenNames]
  unfold Document.readAfter at h
  obtain ⟨heading, hheading, h⟩ := exists_ok_of_bind h
  obtain ⟨numbers, hallot, h⟩ := exists_ok_of_bind h
  obtain ⟨renamed, hrenamed, h⟩ := exists_ok_of_bind h
  obtain ⟨known, -, h⟩ := exists_ok_of_bind h
  obtain ⟨output, -, h⟩ := exists_ok_of_bind h
  rw [← Except.ok.inj h]
  have hvars := heading_given (by simp) hheading
  exact invariant_of_foldlM (I := GivenNames)
    (fun _ entry hentry _ given => rename_given given (hgiven entry hentry))
    (namesByNumber_given fun name hname => hvars name (allot_within hallot hname)) hrenamed

end QuantFamily.Circuit
