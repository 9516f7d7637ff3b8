import Mathlib.Data.List.Nodup
import Mathlib.Data.List.Perm.Basic
import Mathlib.Data.List.Perm.Subperm
import QuantFamily.Circuit.Reader
import QuantFamily.Proofs.Session.Calculus

/-!
# Numbers of variables

The variables of a text get the numbers from one up to their count, each its own. Two rounds are
made over them: in the first one a variable whose name is a small enough number takes this number,
in the second one the others take what is left. If the names are different positive numbers,
nothing can go wrong.
-/

namespace QuantFamily.Circuit.Reader

variable {n : Nat} {a b : Allotment} {name other : String} {k : Int}

/-- Numbers are given out once each, and together with the free ones they are those from one to
`n`. -/
structure Allotment.Sound (n : Nat) (a : Allotment) : Prop where
  keys : a.numbers.keys.Nodup
  nodup : a.free.Nodup
  free : ∀ k ∈ a.free, 1 ≤ k ∧ k ≤ n
  number : ∀ name k, a.numbers.get? name = some k → 1 ≤ k ∧ k ≤ n ∧ k ∉ a.free
  apart : ∀ name other k, a.numbers.get? name = some k → a.numbers.get? other = some k →
    name = other
  covers : ∀ k : Int, 1 ≤ k → k ≤ n → k ∈ a.free ∨ ∃ name, a.numbers.get? name = some k
  count : a.numbers.keys.length + a.free.length = n

/-- The numbers that were given out stay. -/
def Allotment.Extends (a b : Allotment) : Prop :=
  ∀ name k, a.numbers.get? name = some k → b.numbers.get? name = some k

theorem Allotment.extends_put {free : List Int} (hname : name ∉ a.numbers.keys) :
    a.Extends { numbers := a.numbers.put name k, free := free } := by
  intro other j hj
  exact Table.get?_put_of_get? k hname hj

theorem Allotment.Sound.put {rest : List Int} (sound : a.Sound n) (hname : name ∉ a.numbers.keys)
    (hfree : a.free.Perm (k :: rest)) :
    ({ numbers := a.numbers.put name k, free := rest } : Allotment).Sound n := by
  have hk : k ∈ a.free := hfree.mem_iff.mpr List.mem_cons_self
  have hrest : ∀ j ∈ rest, j ∈ a.free := fun j hj => hfree.mem_iff.mpr (List.mem_cons_of_mem k hj)
  have hnodup := hfree.nodup_iff.mp sound.nodup
  refine ⟨?_, (List.nodup_cons.mp hnodup).2, fun j hj => sound.free j (hrest j hj), ?_, ?_, ?_,
    ?_⟩
  · exact Table.nodup_keys_put sound.keys name k
  · intro other j hj
    rcases Table.eq_or_get?_of_get?_put hj with ⟨rfl, rfl⟩ | ⟨-, hj⟩
    · exact ⟨(sound.free j hk).1, (sound.free j hk).2, (List.nodup_cons.mp hnodup).1⟩
    · obtain ⟨hlow, hhigh, hused⟩ := sound.number other j hj
      exact ⟨hlow, hhigh, fun hmem => hused (hrest j hmem)⟩
  · intro first second j hfirst hsecond
    rcases Table.eq_or_get?_of_get?_put hfirst with ⟨hname₁, hj₁⟩ | ⟨-, hget₁⟩ <;>
      rcases Table.eq_or_get?_of_get?_put hsecond with ⟨hname₂, hj₂⟩ | ⟨-, hget₂⟩
    · rw [hname₁, hname₂]
    · exact absurd (hj₁ ▸ hk) (sound.number second j hget₂).2.2
    · exact absurd (hj₂ ▸ hk) (sound.number first j hget₁).2.2
    · exact sound.apart first second j hget₁ hget₂
  · intro j hlow hhigh
    rcases sound.covers j hlow hhigh with hj | ⟨other, hj⟩
    · rcases List.mem_cons.mp (hfree.mem_iff.mp hj) with rfl | hj
      · exact Or.inr ⟨name, Table.get?_put_self _ _ _⟩
      · exact Or.inl hj
    · exact Or.inr ⟨other, Allotment.extends_put hname other j hj⟩
  · have hlength := hfree.length_eq
    have hcount := sound.count
    rw [List.length_cons] at hlength
    simp only [Table.keys_put_of_not_mem _ hname, List.length_append, List.length_singleton]
    omega

/-! ## The first round -/

/-- In the first round a variable has the number that its name spells. -/
def Allotment.Spells (a : Allotment) : Prop :=
  ∀ name k, a.numbers.get? name = some k → Text.readInt? name.toList = some k

theorem keepNumber_sound (sound : a.Sound n) (spells : a.Spells)
    (h : keepNumber n a name = .ok b) :
    b.Sound n ∧ b.Spells ∧ a.Extends b ∧
      ∀ k, Text.readInt? name.toList = some k → k ≤ n → b.numbers.get? name = some k := by
  unfold keepNumber at h
  split at h
  · rename_i hread
    cases h
    refine ⟨sound, spells, fun _ _ hk => hk, fun k hk => ?_⟩
    rw [hread] at hk
    cases hk
  · rename_i k hread
    split at h
    · rename_i hlarge
      cases h
      refine ⟨sound, spells, fun _ _ hk => hk, fun j hj hle => ?_⟩
      rw [hread] at hj
      cases hj
      omega
    · split at h <;> cases h
      rename_i hfree
      -- A name that has a number has the number it spells, and that one is not free any more.
      have hname : name ∉ a.numbers.keys := by
        intro hkey
        obtain ⟨j, hj⟩ := Option.ne_none_iff_exists'.mp fun hnone =>
          Table.get?_eq_none_iff.mp hnone hkey
        have hspell := spells name j hj
        rw [hread] at hspell
        cases hspell
        exact (sound.number name k hj).2.2 hfree
      have hperm := List.perm_cons_erase hfree
      rw [sound.nodup.erase_eq_filter] at hperm
      refine ⟨sound.put hname ?_, ?_, Allotment.extends_put hname, ?_⟩
      · simpa [bne, beq_eq_decide] using hperm
      · intro other j hj
        rcases Table.eq_or_get?_of_get?_put hj with ⟨rfl, rfl⟩ | ⟨-, hj⟩
        · exact hread
        · exact spells other j hj
      · intro j hj _
        rw [hread] at hj
        cases hj
        exact Table.get?_put_self _ _ _

theorem foldlM_keepNumber_sound {names : List String} (sound : a.Sound n) (spells : a.Spells)
    (h : names.foldlM (keepNumber n) a = .ok b) :
    b.Sound n ∧ b.Spells ∧ a.Extends b ∧ ∀ name ∈ names, ∀ k,
      Text.readInt? name.toList = some k → k ≤ n → b.numbers.get? name = some k := by
  induction names generalizing a with
  | nil =>
      cases h
      exact ⟨sound, spells, fun _ _ hk => hk, by simp⟩
  | cons name names ih =>
      rw [List.foldlM_cons] at h
      obtain ⟨c, hstep, h⟩ := exists_ok_of_bind h
      obtain ⟨hsound, hspells, hextends, hown⟩ := keepNumber_sound sound spells hstep
      obtain ⟨hsound, hspells, hextends', hrest⟩ := ih hsound hspells h
      refine ⟨hsound, hspells, fun other k hk => hextends' other k (hextends other k hk), ?_⟩
      rw [List.forall_mem_cons]
      exact ⟨fun k hread hle => hextends' name k (hown k hread hle), hrest⟩

/-! ## The second round -/

theorem takeNumber_sound (sound : a.Sound n) (h : takeNumber a name = .ok b) :
    b.Sound n ∧ a.Extends b ∧ ∃ k, b.numbers.get? name = some k := by
  unfold takeNumber at h
  split at h
  · rename_i hcontains
    cases h
    exact ⟨sound, fun _ _ hk => hk, Option.isSome_iff_exists.mp hcontains⟩
  · rename_i hcontains
    have hname : name ∉ a.numbers.keys :=
      Table.contains_eq_false_iff.mp (Bool.not_eq_true _ ▸ hcontains)
    split at h <;> cases h
    rename_i k rest hfree
    exact ⟨sound.put hname (hfree ▸ List.Perm.refl _), Allotment.extends_put hname, k,
      Table.get?_put_self _ _ _⟩

theorem foldlM_takeNumber_sound {names : List String} (sound : a.Sound n)
    (h : names.foldlM takeNumber a = .ok b) :
    b.Sound n ∧ a.Extends b ∧ ∀ name ∈ names, ∃ k, b.numbers.get? name = some k := by
  induction names generalizing a with
  | nil =>
      cases h
      exact ⟨sound, fun _ _ hk => hk, by simp⟩
  | cons name names ih =>
      rw [List.foldlM_cons] at h
      obtain ⟨c, hstep, h⟩ := exists_ok_of_bind h
      obtain ⟨hsound, hextends, k, hk⟩ := takeNumber_sound sound hstep
      obtain ⟨hsound, hextends', hrest⟩ := ih hsound h
      refine ⟨hsound, fun other k hk => hextends' other k (hextends other k hk), ?_⟩
      rw [List.forall_mem_cons]
      exact ⟨⟨k, hextends' name k hk⟩, hrest⟩

theorem sound_start (n : Nat) :
    ({ free := (List.range n).map fun k => Int.ofNat (k + 1) } : Allotment).Sound n := by
  refine ⟨List.nodup_nil, ?_, ?_, by simp, by simp, ?_, by simp [Table.keys]⟩
  · refine List.nodup_range.map fun i j hij => ?_
    simp only [Int.ofNat_eq_natCast] at hij
    omega
  · simp only [List.mem_map, List.mem_range, forall_exists_index, and_imp, Int.ofNat_eq_natCast]
    omega
  · intro k hlow hhigh
    refine Or.inl (List.mem_map.mpr ⟨(k - 1).toNat, List.mem_range.mpr (by omega), ?_⟩)
    simp only [Int.ofNat_eq_natCast]
    omega

section Allotted

variable {names : List String} {numbers : Table String Int}

/-- The numbers given out are those of a sound allotment in which every name has a number. -/
theorem sound_of_allot (h : allot names = .ok numbers) :
    (∃ free, ({ numbers := numbers, free := free } : Allotment).Sound names.length) ∧
      (∀ name ∈ names, ∃ k, numbers.get? name = some k) ∧
      ∀ name ∈ names, ∀ k, Text.readInt? name.toList = some k → k ≤ names.length →
        numbers.get? name = some k := by
  unfold allot at h
  obtain ⟨a, hkeep, h⟩ := exists_ok_of_bind h
  obtain ⟨b, htake, h⟩ := exists_ok_of_bind h
  cases h
  obtain ⟨hsound, -, -, hkept⟩ :=
    foldlM_keepNumber_sound (sound_start names.length) (by intro _ _ hk; cases hk) hkeep
  obtain ⟨hsound, hextends, hall⟩ := foldlM_takeNumber_sound hsound htake
  exact ⟨⟨b.free, hsound⟩, hall,
    fun name hname k hread hle => hextends name k (hkept name hname k hread hle)⟩

theorem nodup_keys_of_allot (h : allot names = .ok numbers) : numbers.keys.Nodup := by
  obtain ⟨⟨free, hsound⟩, -⟩ := sound_of_allot h
  exact hsound.keys

/-- Every variable gets its own number, not greater than the number of variables. A name that
spells such a number is the name of this number. -/
theorem numbers_of_allot (h : allot names = .ok numbers) :
    (∀ name ∈ names, ∃ k, numbers.get? name = some k) ∧
      (∀ name k, numbers.get? name = some k → 1 ≤ k ∧ k ≤ names.length) ∧
      (∀ name other k, numbers.get? name = some k → numbers.get? other = some k → name = other) ∧
      ∀ name ∈ names, ∀ k, Text.readInt? name.toList = some k → k ≤ names.length →
        numbers.get? name = some k := by
  obtain ⟨⟨free, hsound⟩, hall, hkept⟩ := sound_of_allot h
  exact ⟨hall, fun name k hk => ⟨(hsound.number name k hk).1, (hsound.number name k hk).2.1⟩,
    hsound.apart, hkept⟩

end Allotted

/-! ## Names that are different numbers -/

section Total

variable {names : List String}

/-- Only names that were met have numbers. -/
def Allotment.Within (names : List String) (a : Allotment) : Prop :=
  a.numbers.keys ⊆ names

theorem Allotment.Within.put {free : List Int} (within : a.Within names) (hname : name ∈ names) :
    ({ numbers := a.numbers.put name k, free := free } : Allotment).Within names := by
  intro other hother
  rcases Table.mem_keys_put.mp hother with hother | rfl
  · exact within hother
  · exact hname

theorem keepNumber_within (within : a.Within names) (hname : name ∈ names)
    (h : keepNumber n a name = .ok b) : b.Within names := by
  unfold keepNumber at h
  split at h
  · cases h; exact within
  · split at h
    · cases h; exact within
    · split at h <;> cases h
      exact within.put hname

theorem takeNumber_within (within : a.Within names) (hname : name ∈ names)
    (h : takeNumber a name = .ok b) : b.Within names := by
  unfold takeNumber at h
  split at h
  · cases h
    exact within
  · split at h <;> cases h
    exact within.put hname

theorem allot_within {numbers : Table String Int} (h : allot names = .ok numbers) :
    numbers.keys ⊆ names := by
  unfold allot at h
  obtain ⟨a, hkeep, h⟩ := exists_ok_of_bind h
  obtain ⟨b, htake, h⟩ := exists_ok_of_bind h
  cases h
  have hstart : ({ free := (List.range names.length).map fun n => Int.ofNat (n + 1) } :
      Allotment).Within names := List.nil_subset names
  have ha : a.Within names := invariant_of_foldlM (I := Allotment.Within names)
    (fun _ name hname _ within => keepNumber_within within hname) hstart hkeep
  exact invariant_of_foldlM (I := Allotment.Within names)
    (fun _ name hname _ within => takeNumber_within within hname) ha htake

theorem keepNumber_ok (sound : a.Sound n) (spells : a.Spells)
    (fresh : ∀ k, Text.readInt? name.toList = some k → 1 ≤ k ∧
      ∀ other ∈ a.numbers.keys, Text.readInt? other.toList ≠ some k) :
    ∃ b, keepNumber n a name = .ok b := by
  unfold keepNumber
  split
  · exact ⟨a, rfl⟩
  · rename_i k hread
    obtain ⟨hlow, hfresh⟩ := fresh k hread
    split
    · exact ⟨a, rfl⟩
    · rename_i hhigh
      have hfree : k ∈ a.free := by
        rcases sound.covers k hlow (by omega) with hfree | ⟨other, hother⟩
        · exact hfree
        · exact absurd (spells other k hother) (hfresh other (Table.mem_keys_of_get? hother))
      rw [if_pos hfree]
      exact ⟨_, rfl⟩

theorem foldlM_keepNumber_ok (done rest : List String) (sound : a.Sound n) (spells : a.Spells)
    (within : a.Within done)
    (low : ∀ name ∈ rest, ∀ k, Text.readInt? name.toList = some k → 1 ≤ k)
    (distinct : (done ++ rest).Pairwise fun name other =>
      ∀ k, Text.readInt? name.toList = some k → Text.readInt? other.toList ≠ some k) :
    ∃ b, rest.foldlM (keepNumber n) a = .ok b ∧ b.Within (done ++ rest) := by
  induction rest generalizing a done with
  | nil => exact ⟨a, rfl, by simpa using within⟩
  | cons name rest ih =>
      rw [List.forall_mem_cons] at low
      have hfresh : ∀ k, Text.readInt? name.toList = some k → 1 ≤ k ∧
          ∀ other ∈ a.numbers.keys, Text.readInt? other.toList ≠ some k := by
        intro k hk
        refine ⟨low.1 k hk, fun other hother hread => ?_⟩
        exact (List.pairwise_append.mp distinct).2.2 other (within hother) name
          List.mem_cons_self k hread hk
      obtain ⟨b, hstep⟩ := keepNumber_ok sound spells hfresh
      obtain ⟨hsound, hspells, -, -⟩ := keepNumber_sound sound spells hstep
      have hwithin : b.Within (done ++ [name]) :=
        keepNumber_within (fun _ h => List.mem_append_left _ (within h)) (by simp) hstep
      obtain ⟨c, hrun, hc⟩ := ih (done ++ [name]) hsound hspells hwithin low.2
        (by simpa using distinct)
      refine ⟨c, ?_, by simpa using hc⟩
      rw [List.foldlM_cons, hstep]
      exact hrun

theorem takeNumber_ok (sound : a.Sound names.length) (within : a.Within names)
    (hname : name ∈ names) : ∃ b, takeNumber a name = .ok b ∧ b.Within names := by
  unfold takeNumber
  split
  · exact ⟨a, rfl, within⟩
  · rename_i hcontains
    have hkey : name ∉ a.numbers.keys :=
      Table.contains_eq_false_iff.mp (Bool.not_eq_true _ ▸ hcontains)
    -- There are more names than numbers given out, so a number is left.
    have hlength : (name :: a.numbers.keys).length ≤ names.length :=
      (List.Nodup.subperm (List.nodup_cons.mpr ⟨hkey, sound.keys⟩)
        (List.cons_subset.mpr ⟨hname, within⟩)).length_le
    cases hfree : a.free with
    | nil =>
        have hcount := sound.count
        rw [hfree, List.length_nil] at hcount
        rw [List.length_cons] at hlength
        omega
    | cons k rest => exact ⟨_, rfl, within.put hname⟩

theorem foldlM_takeNumber_ok {rest : List String} (sound : a.Sound names.length)
    (within : a.Within names) (hrest : rest ⊆ names) :
    ∃ b, rest.foldlM takeNumber a = .ok b ∧ b.Within names := by
  induction rest generalizing a with
  | nil => exact ⟨a, rfl, within⟩
  | cons name rest ih =>
      rw [List.cons_subset] at hrest
      obtain ⟨b, hstep, hwithin⟩ := takeNumber_ok sound within hrest.1
      obtain ⟨c, hrun, hc⟩ := ih (takeNumber_sound sound hstep).1 hwithin hrest.2
      refine ⟨c, ?_, hc⟩
      rw [List.foldlM_cons, hstep]
      exact hrun

/-- Names that are different positive numbers can be given numbers, and no others get them. -/
theorem allot_ok (low : ∀ name ∈ names, ∀ k, Text.readInt? name.toList = some k → 1 ≤ k)
    (distinct : names.Pairwise fun name other =>
      ∀ k, Text.readInt? name.toList = some k → Text.readInt? other.toList ≠ some k) :
    ∃ numbers, allot names = .ok numbers ∧ numbers.keys ⊆ names := by
  have hspells : ({ free := (List.range names.length).map fun k => Int.ofNat (k + 1) } :
      Allotment).Spells := by
    intro _ _ hk
    cases hk
  have hstart := sound_start names.length
  obtain ⟨a, hkeep, hwithin⟩ := foldlM_keepNumber_ok [] names hstart hspells (List.nil_subset _)
    low distinct
  obtain ⟨hsound, -, -, -⟩ := foldlM_keepNumber_sound hstart hspells hkeep
  obtain ⟨b, htake, hb⟩ := foldlM_takeNumber_ok hsound hwithin (List.Subset.refl _)
  refine ⟨b.numbers, ?_, hb⟩
  simp only [allot, hkeep, htake, bind, Except.bind, pure, Except.pure]

end Total

end QuantFamily.Circuit.Reader
