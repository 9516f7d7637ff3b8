import Mathlib.Data.List.TakeWhile
import QuantFamily.Proofs.Benchmark.Separation

/-!
# Members and entries in another order

The members of a set count by their digests in ascending order, so their order does not matter. The
entries of a table are sorted by the fingerprints of their keys, and entries whose keys have one
fingerprint stay in the order in which they were given. So the order of a table does not matter
exactly if such entries can change places without changing the bytes.
-/

namespace QuantFamily.Benchmark

open Digest

namespace Value

/-! ## Sorting by key -/

/-- The order that keyed parts are sorted by. -/
def keyLe (a b : String × Bytes) : Bool :=
  a.1 ≤ b.1

theorem keyLe_trans (a b c : String × Bytes) (hab : keyLe a b = true) (hbc : keyLe b c = true) :
    keyLe a c = true := by
  rw [keyLe, decide_eq_true_eq] at *
  exact String.le_trans hab hbc

theorem keyLe_total (a b : String × Bytes) : (keyLe a b || keyLe b a) = true := by
  rw [keyLe, keyLe, Bool.or_eq_true, decide_eq_true_eq, decide_eq_true_eq]
  exact String.le_total a.1 b.1

/-- Whether the key of the second part is lower. -/
def lowerThan (a b : String × Bytes) : Bool :=
  !keyLe a b

theorem lowerThan_of_fst_eq {a b : String × Bytes} (h : a.1 = b.1) : lowerThan a = lowerThan b := by
  funext c
  rw [lowerThan, lowerThan, keyLe, keyLe, h]

theorem not_lowerThan_of_fst_eq {a b : String × Bytes} (h : a.1 = b.1) :
    ¬ lowerThan a b = true := by
  have hab : keyLe a b = true := decide_eq_true (h ▸ String.le_refl a.1)
  rw [lowerThan, hab]
  exact Bool.false_ne_true

/-- A part is put behind all parts whose keys are lower and in front of the others. -/
theorem mergeSort_cons_eq (a : String × Bytes) (l : List (String × Bytes)) :
    (a :: l).mergeSort keyLe = (l.mergeSort keyLe).takeWhile (lowerThan a) ++
      a :: (l.mergeSort keyLe).dropWhile (lowerThan a) := by
  obtain ⟨low, high, hcons, hl, hlow⟩ := List.mergeSort_cons keyLe_trans keyLe_total a l
  have hsorted := List.pairwise_mergeSort keyLe_trans keyLe_total (a :: l)
  rw [hcons, List.pairwise_append, List.pairwise_cons] at hsorted
  have hlow : ∀ b ∈ low, lowerThan a b = true := hlow
  rw [hcons, hl, List.takeWhile_append_of_pos hlow, List.dropWhile_append_of_pos hlow]
  cases high with
  | nil => simp
  | cons b high =>
      have hb : ¬ lowerThan a b = true := by simp [lowerThan, hsorted.2.1.1 b List.mem_cons_self]
      rw [List.takeWhile_cons_of_neg hb, List.dropWhile_cons_of_neg hb, List.append_nil]

/-- Two parts with one key come to stand next to each other, in the order in which they came. -/
theorem mergeSort_cons_cons_of_tied {a b : String × Bytes} (h : a.1 = b.1)
    (l : List (String × Bytes)) :
    (a :: b :: l).mergeSort keyLe = (l.mergeSort keyLe).takeWhile (lowerThan b) ++
      a :: b :: (l.mergeSort keyLe).dropWhile (lowerThan b) := by
  have hlow : ∀ c ∈ (l.mergeSort keyLe).takeWhile (lowerThan b), lowerThan b c = true :=
    fun c hc => List.mem_takeWhile_imp hc
  have hb : ¬ lowerThan b b = true := not_lowerThan_of_fst_eq rfl
  rw [mergeSort_cons_eq, lowerThan_of_fst_eq h, mergeSort_cons_eq,
    List.takeWhile_append_of_pos hlow, List.dropWhile_append_of_pos hlow,
    List.takeWhile_cons_of_neg hb, List.dropWhile_cons_of_neg hb, List.append_nil]

/-- Parts with one key give the same bytes in either order. -/
def Commuting (l : List (String × Bytes)) : Prop :=
  ∀ a ∈ l, ∀ b ∈ l, a.1 = b.1 → a.2 ++ b.2 = b.2 ++ a.2

theorem flatten_append_comm {parts : List Bytes} {part : Bytes}
    (h : ∀ other ∈ parts, part ++ other = other ++ part) :
    part ++ parts.flatten = parts.flatten ++ part := by
  induction parts with
  | nil => simp
  | cons other parts ih =>
      rw [List.forall_mem_cons] at h
      rw [List.flatten_cons, ← List.append_assoc, h.1, List.append_assoc, ih h.2,
        List.append_assoc]

/-- Two sorted arrangements of parts of which those with one key commute give the same bytes: what
stands in front of the first part of one arrangement in the other has the same key. -/
theorem flatten_eq_of_sorted {l l' : List (String × Bytes)} (hperm : l.Perm l')
    (hl : l.Pairwise fun a b => keyLe a b = true) (hl' : l'.Pairwise fun a b => keyLe a b = true)
    (hties : Commuting l) : (l.map Prod.snd).flatten = (l'.map Prod.snd).flatten := by
  induction l generalizing l' with
  | nil => rw [List.nil_perm.mp hperm]
  | cons a l ih =>
      obtain ⟨front, back, rfl⟩ := List.append_of_mem (hperm.mem_iff.mp List.mem_cons_self)
      rw [List.pairwise_cons] at hl
      rw [List.pairwise_append, List.pairwise_cons] at hl'
      have hrest : l.Perm (front ++ back) := (hperm.trans List.perm_middle).cons_inv
      have hfront : ∀ b ∈ front, a.2 ++ b.2 = b.2 ++ a.2 := by
        intro b hb
        have hmem : b ∈ l := hrest.mem_iff.mpr (List.mem_append_left back hb)
        have hab := of_decide_eq_true (hl.1 b hmem)
        have hba := of_decide_eq_true (hl'.2.2 b hb a List.mem_cons_self)
        exact hties a List.mem_cons_self b (List.mem_cons_of_mem a hmem)
          (String.le_antisymm hab hba)
      have hpairwise : (front ++ back).Pairwise fun a b => keyLe a b = true :=
        List.pairwise_append.mpr ⟨hl'.1, hl'.2.1.2, fun b hb c hc =>
          hl'.2.2 b hb c (List.mem_cons_of_mem a hc)⟩
      have hties' : Commuting l := fun b hb c hc =>
        hties b (List.mem_cons_of_mem a hb) c (List.mem_cons_of_mem a hc)
      have hcomm : a.2 ++ (front.map Prod.snd).flatten = (front.map Prod.snd).flatten ++ a.2 :=
        flatten_append_comm (List.forall_mem_map.mpr hfront)
      rw [List.map_cons, List.flatten_cons, ih hrest hl.2 hpairwise hties', List.map_append,
        List.map_append, List.map_cons, List.flatten_append, List.flatten_append,
        List.flatten_cons, ← List.append_assoc, hcomm, List.append_assoc]

theorem flatten_mergeSort_eq {l l' : List (String × Bytes)} (hperm : l.Perm l')
    (hties : Commuting l) :
    ((l.mergeSort keyLe).map Prod.snd).flatten = ((l'.mergeSort keyLe).map Prod.snd).flatten := by
  have hsorted := List.pairwise_mergeSort keyLe_trans keyLe_total
  have hmem : ∀ {a}, a ∈ l.mergeSort keyLe → a ∈ l := List.mem_mergeSort.mp
  exact flatten_eq_of_sorted
    ((l.mergeSort_perm keyLe).trans (hperm.trans (l'.mergeSort_perm keyLe).symm)) (hsorted l)
    (hsorted l') fun a ha b hb => hties a (hmem ha) b (hmem hb)

/-! ## Tables -/

/-- The bytes of an entry of a table. -/
def entryBytes (depth : Nat) (entry : Value × Value) : Bytes :=
  entry.1.stream depth ++ entry.2.stream depth

/-- The entries of a table as they are sorted: the fingerprint of the key with the bytes of both. -/
def keyed (depth : Nat) (entries : List (Value × Value)) : List (String × Bytes) :=
  entries.map fun entry => (entry.1.fingerprint, entryBytes depth entry)

/-- Entries whose keys have one fingerprint give the same bytes in either order. -/
def Interchangeable (depth : Nat) (entries : List (Value × Value)) : Prop :=
  ∀ e ∈ entries, ∀ f ∈ entries, e.1.fingerprint = f.1.fingerprint →
    entryBytes depth e ++ entryBytes depth f = entryBytes depth f ++ entryBytes depth e

theorem commuting_keyed_iff {depth : Nat} {entries : List (Value × Value)} :
    Commuting (keyed depth entries) ↔ Interchangeable depth entries := by
  simp only [Commuting, keyed, List.forall_mem_map, Interchangeable]

theorem streamPairs_eq_map (depth : Nat) (entries : List (Value × Value)) :
    streamPairs depth entries =
      entries.map fun entry => (entry.1.stream 0, entryBytes depth entry) := by
  induction entries with
  | nil => rfl
  | cons entry entries ih => rw [streamPairs, ih, List.map_cons, entryBytes]

theorem sortedByKey_streamPairs (depth : Nat) (entries : List (Value × Value)) :
    sortedByKey (streamPairs depth entries) =
      ((keyed depth entries).mergeSort keyLe).map Prod.snd := by
  rw [sortedByKey, streamPairs_eq_map, List.map_map]
  rfl

theorem stream_table (depth : Nat) (entries : List (Value × Value)) :
    (table entries).stream depth = if depthLimit < depth then [] else
      bytesOf ("D" ++ Nat.repr entries.length) ++
        (((keyed (depth + 1) entries).mergeSort keyLe).map Prod.snd).flatten := by
  rw [stream, sortedByKey_streamPairs, framed, List.length_map, List.length_mergeSort, keyed,
    List.length_map]

theorem stream_table_eq_of_perm {depth : Nat} {entries entries' : List (Value × Value)}
    (hperm : entries.Perm entries') (h : Interchangeable (depth + 1) entries) :
    (table entries').stream depth = (table entries).stream depth := by
  have hkeyed : (keyed (depth + 1) entries).Perm (keyed (depth + 1) entries') := hperm.map _
  rw [stream_table, stream_table, hperm.length_eq,
    flatten_mergeSort_eq hkeyed (commuting_keyed_iff.mpr h)]

theorem exists_perm_of_mem {entries : List (Value × Value)} {e f : Value × Value}
    (he : e ∈ entries) (hf : f ∈ entries) (hne : f ≠ e) :
    ∃ rest, entries.Perm (e :: f :: rest) := by
  obtain ⟨front, back, rfl⟩ := List.append_of_mem he
  have hmem : f ∈ front ++ back := by
    have hor := (List.perm_middle.mem_iff.mp hf : f ∈ e :: (front ++ back))
    exact (List.mem_cons.mp hor).resolve_left hne
  obtain ⟨front', back', hrest⟩ := List.append_of_mem hmem
  refine ⟨front' ++ back', List.perm_middle.trans (List.Perm.cons e ?_)⟩
  rw [hrest]
  exact List.perm_middle

/-- The bytes of a table that starts with two entries whose keys have one fingerprint. -/
theorem stream_table_of_tied {e f : Value × Value} (htied : e.1.fingerprint = f.1.fingerprint)
    (rest : List (Value × Value)) :
    let others := (keyed 1 rest).mergeSort keyLe
    let lower := lowerThan (f.1.fingerprint, entryBytes 1 f)
    (table (e :: f :: rest)).stream 0 = bytesOf ("D" ++ Nat.repr (rest.length + 2)) ++
      ((others.takeWhile lower).map Prod.snd).flatten ++ (entryBytes 1 e ++ entryBytes 1 f) ++
        ((others.dropWhile lower).map Prod.snd).flatten := by
  intro others lower
  have hsorted : (keyed 1 (e :: f :: rest)).mergeSort keyLe = others.takeWhile lower ++
      (e.1.fingerprint, entryBytes 1 e) :: (f.1.fingerprint, entryBytes 1 f) ::
        others.dropWhile lower := by
    rw [keyed, List.map_cons, List.map_cons]
    apply mergeSort_cons_cons_of_tied
    exact htied
  rw [stream_table, if_neg (by decide), hsorted]
  simp

/-- The bytes of a table do not depend on the order of its entries exactly if entries whose keys
have one fingerprint can change places. -/
theorem interchangeable_iff {entries : List (Value × Value)} :
    Interchangeable 1 entries ↔ ∀ entries', entries.Perm entries' →
      (table entries').stream 0 = (table entries).stream 0 := by
  refine ⟨fun h entries' hperm => stream_table_eq_of_perm hperm h, fun h e he f hf htied => ?_⟩
  by_cases hne : f = e
  · rw [hne]
  · obtain ⟨rest, hperm⟩ := exists_perm_of_mem he hf hne
    have hsame := (h _ hperm).trans (h _ (hperm.trans (List.Perm.swap f e rest))).symm
    have hlower : lowerThan (e.1.fingerprint, entryBytes 1 e) =
        lowerThan (f.1.fingerprint, entryBytes 1 f) := lowerThan_of_fst_eq htied
    rw [stream_table_of_tied htied, stream_table_of_tied htied.symm, hlower] at hsame
    exact List.append_cancel_left (List.append_cancel_right hsame)

/-! ## Sets -/

theorem streams_eq_map (depth : Nat) (items : List Value) :
    streams depth items = items.map (stream depth) := by
  induction items with
  | nil => rfl
  | cons item items ih => rw [streams, ih, List.map_cons]

theorem sortedDigests_eq_of_perm {parts parts' : List Bytes} (h : parts.Perm parts') :
    sortedDigests parts' = sortedDigests parts := by
  have htrans : ∀ a b c : String, decide (a ≤ b) = true → decide (b ≤ c) = true →
      decide (a ≤ c) = true := by
    intro a b c hab hbc
    exact decide_eq_true (String.le_trans (of_decide_eq_true hab) (of_decide_eq_true hbc))
  have htotal : ∀ a b : String, (decide (a ≤ b) || decide (b ≤ a)) = true := by
    intro a b
    rw [Bool.or_eq_true, decide_eq_true_eq, decide_eq_true_eq]
    exact String.le_total a b
  rw [sortedDigests, sortedDigests]
  refine congrArg (List.map bytesOf) (List.Perm.eq_of_pairwise ?_
    (List.pairwise_mergeSort htrans htotal _) (List.pairwise_mergeSort htrans htotal _) ?_)
  · intro a b _ _ hab hba
    exact String.le_antisymm (of_decide_eq_true hab) (of_decide_eq_true hba)
  · exact (List.mergeSort_perm _ _).trans ((h.symm.map _).trans (List.mergeSort_perm _ _).symm)

theorem stream_set_eq_of_perm {depth : Nat} {kind : String} {items items' : List Value}
    (h : items.Perm items') : (set kind items').stream depth = (set kind items).stream depth := by
  rw [stream, stream, streams_eq_map, streams_eq_map, sortedDigests_eq_of_perm (h.map _)]

/-! ## Orders inside a value -/

/-- A value and what it becomes when the members of sets and the entries of tables, of the value
itself or anywhere inside it, change places. -/
inductive Reordered : Value → Value → Prop
  | refl (v : Value) : Reordered v v
  | trans {u v w : Value} (first : Reordered u v) (second : Reordered v w) : Reordered u w
  | members {kind : String} {items items' : List Value} (h : items.Perm items') :
      Reordered (.set kind items) (.set kind items')
  | entries {entries entries' : List (Value × Value)} (h : entries.Perm entries') :
      Reordered (.table entries) (.table entries')
  | inList {v w : Value} (before after : List Value) (h : Reordered v w) :
      Reordered (.list (before ++ v :: after)) (.list (before ++ w :: after))
  | inTuple {v w : Value} (before after : List Value) (h : Reordered v w) :
      Reordered (.tuple (before ++ v :: after)) (.tuple (before ++ w :: after))
  | inSet {v w : Value} (kind : String) (before after : List Value) (h : Reordered v w) :
      Reordered (.set kind (before ++ v :: after)) (.set kind (before ++ w :: after))
  | inKey {v w : Value} (value : Value) (before after : List (Value × Value))
      (h : Reordered v w) :
      Reordered (.table (before ++ (v, value) :: after)) (.table (before ++ (w, value) :: after))
  | inValue {v w : Value} (key : Value) (before after : List (Value × Value))
      (h : Reordered v w) :
      Reordered (.table (before ++ (key, v) :: after)) (.table (before ++ (key, w) :: after))
  | inField {v w : Value} (name : String) (before after : List (String × Value))
      (h : Reordered v w) :
      Reordered (.record (before ++ (name, v) :: after)) (.record (before ++ (name, w) :: after))

mutual

/-- In all tables of a value that stands at a depth, entries whose keys have one fingerprint can
change places. -/
def Settled (depth : Nat) : Value → Prop
  | .list items => SettledAll (depth + 1) items
  | .tuple items => SettledAll (depth + 1) items
  | .set _ items => SettledAll 0 items
  | .table entries => Interchangeable (depth + 1) entries ∧ SettledPairs (depth + 1) entries
  | .record fields => SettledFields (depth + 1) fields
  | _ => True

/-- The same for several values. -/
def SettledAll (depth : Nat) : List Value → Prop
  | [] => True
  | item :: items => Settled depth item ∧ SettledAll depth items

/-- The same for keys and values. A key also counts on its own. -/
def SettledPairs (depth : Nat) : List (Value × Value) → Prop
  | [] => True
  | (key, value) :: entries =>
      (Settled 0 key ∧ Settled depth key ∧ Settled depth value) ∧ SettledPairs depth entries

/-- The same for named values. -/
def SettledFields (depth : Nat) : List (String × Value) → Prop
  | [] => True
  | (_, value) :: fields => Settled depth value ∧ SettledFields depth fields

end

theorem settledAll_iff {depth : Nat} {items : List Value} :
    SettledAll depth items ↔ ∀ item ∈ items, item.Settled depth := by
  induction items with
  | nil => simp [SettledAll]
  | cons item items ih => rw [SettledAll, ih, List.forall_mem_cons]

theorem settledPairs_iff {depth : Nat} {entries : List (Value × Value)} :
    SettledPairs depth entries ↔ ∀ entry ∈ entries,
      entry.1.Settled 0 ∧ entry.1.Settled depth ∧ entry.2.Settled depth := by
  induction entries with
  | nil => simp [SettledPairs]
  | cons entry entries ih => rw [SettledPairs, ih, List.forall_mem_cons]

theorem settledFields_iff {depth : Nat} {fields : List (String × Value)} :
    SettledFields depth fields ↔ ∀ field ∈ fields, field.2.Settled depth := by
  induction fields with
  | nil => simp [SettledFields]
  | cons field fields ih => rw [SettledFields, ih, List.forall_mem_cons]

theorem streamFields_eq_map (depth : Nat) (fields : List (String × Value)) :
    streamFields depth fields = fields.map fun field =>
      (streamText 0 field.1, streamText depth field.1 ++ field.2.stream depth) := by
  induction fields with
  | nil => rfl
  | cons field fields ih => rw [streamFields, ih, List.map_cons]

theorem forall_mem_middle {α : Type} {P : α → Prop} {before after : List α} {a b : α}
    (h : ∀ x ∈ before ++ a :: after, P x) (hb : P b) : ∀ x ∈ before ++ b :: after, P x := by
  rw [List.forall_mem_append, List.forall_mem_cons] at h ⊢
  exact ⟨h.1, hb, h.2.2⟩

/-- An entry of a settled table can be replaced by another settled one of the same bytes. -/
theorem settled_table_middle {depth : Nat} {e f : Value × Value}
    {before after : List (Value × Value)} (hv : (table (before ++ e :: after)).Settled depth)
    (hf : f.1.Settled 0 ∧ f.1.Settled (depth + 1) ∧ f.2.Settled (depth + 1))
    (hkey : f.1.stream 0 = e.1.stream 0)
    (hbytes : entryBytes (depth + 1) f = entryBytes (depth + 1) e) :
    (table (before ++ f :: after)).Settled depth ∧
      (table (before ++ f :: after)).stream depth =
        (table (before ++ e :: after)).stream depth := by
  have hkeyed : keyed (depth + 1) (before ++ f :: after) =
      keyed (depth + 1) (before ++ e :: after) := by
    simp [keyed, fingerprint, hkey, hbytes]
  rw [Settled, settledPairs_iff, ← commuting_keyed_iff, ← hkeyed] at hv
  rw [Settled, settledPairs_iff, ← commuting_keyed_iff]
  refine ⟨⟨hv.1, forall_mem_middle hv.2 hf⟩, ?_⟩
  rw [stream_table, stream_table, hkeyed, List.length_append, List.length_append,
    List.length_cons, List.length_cons]

/-- Wherever members and entries of a settled value change places, the value stays settled and keeps
its bytes. -/
theorem Reordered.settled_and_stream_eq {v w : Value} (h : Reordered v w) {depth : Nat}
    (hv : v.Settled depth) : w.Settled depth ∧ w.stream depth = v.stream depth := by
  induction h generalizing depth with
  | refl v => exact ⟨hv, rfl⟩
  | trans _ _ ih ih' =>
      obtain ⟨hmiddle, hfirst⟩ := ih hv
      obtain ⟨hlast, hsecond⟩ := ih' hmiddle
      exact ⟨hlast, hsecond.trans hfirst⟩
  | members h =>
      rw [Settled, settledAll_iff] at hv ⊢
      exact ⟨fun item hitem => hv item (h.mem_iff.mpr hitem), stream_set_eq_of_perm h⟩
  | entries h =>
      rw [Settled, settledPairs_iff] at hv ⊢
      exact ⟨⟨fun e he f hf => hv.1 e (h.mem_iff.mpr he) f (h.mem_iff.mpr hf),
        fun entry hentry => hv.2 entry (h.mem_iff.mpr hentry)⟩, stream_table_eq_of_perm h hv.1⟩
  | inList before after _ ih | inTuple before after _ ih =>
      rw [Settled, settledAll_iff] at hv ⊢
      obtain ⟨hsettled, hstream⟩ := ih (hv _ (by simp))
      exact ⟨forall_mem_middle hv hsettled, by simp [stream, streams_eq_map, hstream]⟩
  | inSet kind before after _ ih =>
      rw [Settled, settledAll_iff] at hv ⊢
      obtain ⟨hsettled, hstream⟩ := ih (hv _ (by simp))
      exact ⟨forall_mem_middle hv hsettled, by simp [stream, streams_eq_map, hstream]⟩
  | @inKey v w value before after _ ih =>
      have hentry := hv
      rw [Settled, settledPairs_iff] at hentry
      obtain ⟨hown, hkey, hvalue⟩ := hentry.2 (v, value) (by simp)
      exact settled_table_middle hv ⟨(ih hown).1, (ih hkey).1, hvalue⟩ (ih hown).2
        (congrArg (· ++ value.stream (depth + 1)) (ih hkey).2)
  | @inValue v w key before after _ ih =>
      have hentry := hv
      rw [Settled, settledPairs_iff] at hentry
      obtain ⟨hown, hkey, hvalue⟩ := hentry.2 (key, v) (by simp)
      exact settled_table_middle hv ⟨hown, hkey, (ih hvalue).1⟩ rfl
        (congrArg (key.stream (depth + 1) ++ ·) (ih hvalue).2)
  | @inField v w name before after _ ih =>
      rw [Settled, settledFields_iff] at hv ⊢
      obtain ⟨hsettled, hstream⟩ := ih (hv (name, v) (by simp))
      exact ⟨forall_mem_middle hv hsettled, by simp [stream, streamFields_eq_map, hstream]⟩

/-! ## Fingerprints -/

/-- Different keys all of whose ends show have different fingerprints, unless their bytes have one
digest. -/
theorem interchangeable_or_collide {depth : Nat} {entries : List (Value × Value)}
    (hkeys : ∀ e ∈ entries, Plain depthLimit e.1 ∧ e.1.Delimited)
    (hone : ∀ e ∈ entries, ∀ f ∈ entries, e.1.asLists = f.1.asLists → e = f) :
    Interchangeable depth entries ∨
      ∃ e ∈ entries, ∃ f ∈ entries, Collide (e.1.stream 0) (f.1.stream 0) := by
  by_cases hcollide : ∃ e ∈ entries, ∃ f ∈ entries, Collide (e.1.stream 0) (f.1.stream 0)
  · exact .inr hcollide
  · refine .inl fun e he f hf htied => ?_
    obtain ⟨hplain, hdelimited⟩ := hkeys e he
    have hplain' : Plain depthLimit f.1 := (hkeys f hf).1
    have hstream : e.1.stream 0 = f.1.stream 0 :=
      (eq_or_collide htied).resolve_right fun h => hcollide ⟨e, he, f, hf, h⟩
    have hsame : e.1.asLists = f.1.asLists :=
      (hplain.parts_eq_iff hplain').mp (hdelimited.parts_eq hplain hplain' hstream)
    rw [hone e he f hf hsame]

theorem entryBytes_eq {room depth : Nat} {key value : Value} (hkey : Plain room key)
    (hvalue : Plain room value) (hdepth : depth + room ≤ depthLimit) :
    entryBytes depth (key, value) =
      bytesOf (String.ofList (Part.written (key.parts ++ value.parts))) := by
  rw [entryBytes, hkey.stream_eq hdepth, hvalue.stream_eq hdepth, Part.written_append,
    bytesOf_ofList_append]

end Value

end QuantFamily.Benchmark
