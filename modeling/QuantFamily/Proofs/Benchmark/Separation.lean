import Mathlib.Data.List.Chain
import QuantFamily.Proofs.Benchmark.Parts

/-!
# Where one part ends and the next begins

The kind of a part shows in its first character, but only the first characters of the parts say
where the parts before them end. So two values with the same bytes are the same, unless a count, a
number or a text of one of them begins a longer count, number or text of the other.
-/

namespace QuantFamily.Benchmark

namespace Part

/-- Two counts, two numbers or two texts, of which the second is written like the first and goes
on. -/
inductive Begins : Part → Part → Prop
  | count {m n : Nat} {more : String} (h : Nat.repr n = Nat.repr m ++ more) (hmore : more ≠ "") :
      Begins (.count m) (.count n)
  | whole {m n : Int} {more : String} (h : Text.showInt n = Text.showInt m ++ more)
      (hmore : more ≠ "") : Begins (.whole m) (.whole n)
  | text {s more : String} (hmore : more ≠ "") : Begins (.text s) (.text (s ++ more))

/-! ## Kinds -/

/-- A number for the kind of a part. -/
def kind : Part → Nat
  | none => 0
  | truth _ => 1
  | count _ => 2
  | text _ => 3
  | whole _ => 4

/-- The kind of the parts that start with a character. -/
def kindOf (c : Char) : Nat :=
  if c = 'N' then 0
  else if c = 'T' ∨ c = 'F' then 1
  else if c = 'L' then 2
  else if c = 's' then 3
  else 4

theorem kindOf_of_isDigit {c : Char} (h : c.isDigit = true) : kindOf c = 4 := by
  have hne : ∀ d : Char, d.isDigit = false → c ≠ d := by
    rintro d hd rfl
    rw [hd] at h
    cases h
  rw [kindOf, if_neg (hne 'N' rfl), if_neg (not_or.mpr ⟨hne 'T' rfl, hne 'F' rfl⟩),
    if_neg (hne 'L' rfl), if_neg (hne 's' rfl)]

/-- The first character of a part shows its kind, and only numbers that are not negative start with
a digit. -/
theorem exists_first (p : Part) : ∃ c rest, p.shown.toList = c :: rest ∧ kindOf c = p.kind ∧
    (c.isDigit = true → ∃ n, p = whole n ∧ 0 ≤ n) := by
  cases p with
  | none => exact ⟨'N', ['o', 'n', 'e'], rfl, rfl, by simp⟩
  | truth b =>
      cases b
      · exact ⟨'F', ['a', 'l', 's', 'e'], rfl, rfl, by simp⟩
      · exact ⟨'T', ['r', 'u', 'e'], rfl, rfl, by simp⟩
  | count n => exact ⟨'L', (Nat.repr n).toList, by simp [shown], rfl, by simp⟩
  | text s => exact ⟨'s', s.toList, by simp [shown], rfl, by simp⟩
  | whole n =>
      rcases Int.lt_or_le n 0 with hn | hn
      · exact ⟨'-', _, Text.toList_showInt_of_neg hn, rfl, by simp⟩
      · obtain ⟨c, rest, hc⟩ := List.exists_cons_of_ne_nil (Text.showInt_ne_nil n)
        have hdigit : c.isDigit = true :=
          Text.isDigit_of_mem_showInt hn (hc ▸ List.mem_cons_self)
        exact ⟨c, rest, hc, kindOf_of_isDigit hdigit, fun _ => ⟨n, rfl, hn⟩⟩

theorem written_eq_nil_iff {ps : List Part} : written ps = [] ↔ ps = [] := by
  cases ps with
  | nil => simp
  | cons p ps =>
      obtain ⟨c, rest, hc, -⟩ := p.exists_first
      simp [hc]

/-! ## Parts that begin alike -/

theorem Begins.exists_more {p q : Part} (h : p.Begins q) :
    ∃ more, more ≠ [] ∧ q.shown.toList = p.shown.toList ++ more := by
  have hchars : ∀ {more : String}, more ≠ "" → more.toList ≠ [] := by
    intro more hmore hnil
    exact hmore (String.toList_eq_nil_iff.mp hnil)
  cases h with
  | @count m n more h hmore => exact ⟨more.toList, hchars hmore, by simp [shown, h]⟩
  | @whole m n more h hmore => exact ⟨more.toList, hchars hmore, by simp [shown, h]⟩
  | @text s more hmore => exact ⟨more.toList, hchars hmore, by simp [shown]⟩

theorem Begins.kind_eq {p q : Part} (h : p.Begins q) : p.kind = q.kind := by
  cases h <;> rfl

theorem Begins.ne {p q : Part} (h : p.Begins q) : p ≠ q := by
  rintro rfl
  obtain ⟨more, hmore, heq⟩ := h.exists_more
  exact hmore (List.append_right_eq_self.mp heq.symm)

theorem begins_of_shown_append {p q : Part} {more : List Char} (hne : p ≠ q)
    (h : q.shown.toList = p.shown.toList ++ more) : p.Begins q := by
  have hkind : p.kind = q.kind := by
    obtain ⟨c, rest, hc, hp, -⟩ := p.exists_first
    obtain ⟨d, rest', hd, hq, -⟩ := q.exists_first
    rw [hc, hd] at h
    rw [← hp, ← hq, (List.cons.inj h).1]
  cases p with
  | none =>
      cases q with
      | none => exact absurd rfl hne
      | _ => simp [kind] at hkind
  | truth b =>
      cases q with
      | truth b' => cases b <;> cases b' <;> simp_all [shown, Value.boolText]
      | _ => simp [kind] at hkind
  | count m =>
      cases q with
      | count n =>
          have hrepr : Nat.repr n = Nat.repr m ++ String.ofList more := by
            apply String.toList_injective
            simpa [shown] using h
          refine .count hrepr fun hnil => hne ?_
          rw [hnil, String.append_empty] at hrepr
          exact congrArg count (Int.ofNat.inj (Text.showInt_injective hrepr.symm))
      | _ => simp [kind] at hkind
  | whole m =>
      cases q with
      | whole n =>
          have hshown : Text.showInt n = Text.showInt m ++ String.ofList more := by
            apply String.toList_injective
            simpa [shown] using h
          refine .whole hshown fun hnil => hne ?_
          rw [hnil, String.append_empty] at hshown
          exact congrArg whole (Text.showInt_injective hshown.symm)
      | _ => simp [kind] at hkind
  | text s =>
      cases q with
      | text t =>
          have htext : t = s ++ String.ofList more := by
            apply String.toList_injective
            simpa [shown] using h
          subst htext
          refine .text fun hnil => hne ?_
          rw [hnil, String.append_empty]
      | _ => simp [kind] at hkind

/-- At the first difference of two sequences that are written alike, one part begins the other. -/
theorem exists_begins_of_written_eq {ps qs : List Part} (h : written ps = written qs)
    (hne : ps ≠ qs) : ∃ common p q rest rest', ps = common ++ p :: rest ∧
      qs = common ++ q :: rest' ∧ (p.Begins q ∨ q.Begins p) := by
  induction ps generalizing qs with
  | nil => exact absurd (written_eq_nil_iff.mp h.symm).symm hne
  | cons p ps ih =>
      cases qs with
      | nil => exact absurd (written_eq_nil_iff.mp h) hne
      | cons q qs =>
          rw [written_cons, written_cons] at h
          by_cases hpq : p = q
          · subst hpq
            obtain ⟨common, p', q', rest, rest', hps, hqs, hbegins⟩ :=
              ih (List.append_cancel_left h) fun heq => hne (congrArg (p :: ·) heq)
            exact ⟨p :: common, p', q', rest, rest', congrArg (p :: ·) hps,
              congrArg (p :: ·) hqs, hbegins⟩
          · refine ⟨[], p, q, ps, qs, rfl, rfl, ?_⟩
            rcases List.append_eq_append_iff.mp h with ⟨more, hq, -⟩ | ⟨more, hp, -⟩
            · exact .inl (begins_of_shown_append hpq hq)
            · exact .inr (begins_of_shown_append (Ne.symm hpq) hp)

/-! ## Parts whose ends show -/

/-- The end of a part shows in front of another part: a text has no end, and a count or a number
goes on as far as there are digits. -/
def EndShows : Part → Part → Prop
  | text _, _ => False
  | count _, whole n => n < 0
  | whole _, whole n => n < 0
  | _, _ => True

theorem le_ofDigitChars (digits : List Char) (n : Nat) : n ≤ Nat.ofDigitChars 10 digits n := by
  induction digits generalizing n with
  | nil => exact Nat.le_of_eq Nat.ofDigitChars_nil.symm
  | cons c digits ih =>
      rw [Nat.ofDigitChars_cons]
      exact Nat.le_trans (by omega) (ih _)

theorem isDigit_of_mem_tail_showInt {n : Int} {c d : Char} {rest : List Char}
    (h : (Text.showInt n).toList = c :: rest) (hd : d ∈ rest) : d.isDigit = true := by
  rw [Text.toList_showInt] at h
  split at h
  · rw [← (List.cons.inj h).2] at hd
    exact Text.isDigit_of_mem_toDigits hd
  · rw [List.nil_append] at h
    exact Text.isDigit_of_mem_toDigits (h ▸ List.mem_cons_of_mem c hd)

/-- What goes on behind a count or a number are digits, and the longer count is not lower. -/
theorem Begins.exists_digits {p q : Part} (h : p.Begins q) (hp : p.kind ≠ 3) :
    ∃ more, more ≠ [] ∧ (∀ c ∈ more, c.isDigit = true) ∧
      q.shown.toList = p.shown.toList ++ more ∧ p.arity ≤ q.arity := by
  obtain ⟨more, hmore, hshown⟩ := h.exists_more
  cases h with
  | @count m n =>
      have hdigits : Nat.toDigits 10 n = Nat.toDigits 10 m ++ more := by
        simpa [shown] using hshown
      refine ⟨more, hmore, fun c hc => ?_, hshown, ?_⟩
      · exact Text.isDigit_of_mem_toDigits (hdigits ▸ List.mem_append_right _ hc)
      · calc
          m ≤ Nat.ofDigitChars 10 more m := le_ofDigitChars more m
          _ = Nat.ofDigitChars 10 (Nat.toDigits 10 m ++ more) 0 := by
            rw [Nat.ofDigitChars_append, Nat.ofDigitChars_ten_toDigits]
          _ = n := by rw [← hdigits, Nat.ofDigitChars_ten_toDigits]
  | @whole m n =>
      obtain ⟨d, rest, hd, -⟩ := (Part.whole m).exists_first
      refine ⟨more, hmore, fun c hc => ?_, hshown, Nat.le_refl _⟩
      rw [hd] at hshown
      exact isDigit_of_mem_tail_showInt hshown (List.mem_append_right rest hc)
  | text => exact absurd rfl hp

theorem neg_of_endShows {p q : Part} (h : p.Begins q ∨ q.Begins p) {n : Int}
    (hn : p.EndShows (.whole n)) : n < 0 := by
  cases p with
  | count | whole => exact hn
  | text => exact hn.elim
  | none | truth => rcases h with h | h <;> cases h

/-- Where the end of a count or a number shows, no digit follows. -/
theorem isDigit_eq_false_of_isChain {p q : Part} (h : p.Begins q ∨ q.Begins p) {ps : List Part}
    (hchain : (p :: ps).IsChain EndShows) {c : Char} {rest : List Char}
    (hps : written ps = c :: rest) : c.isDigit = false := by
  cases ps with
  | nil => cases hps
  | cons next ps =>
      obtain ⟨d, tail, hd, -, hdigit⟩ := next.exists_first
      rw [written_cons, hd] at hps
      rw [← (List.cons.inj hps).1, ← Bool.not_eq_true]
      intro hc
      obtain ⟨n, rfl, hn⟩ := hdigit hc
      exact absurd (neg_of_endShows h (List.isChain_cons_cons.mp hchain).1) (Int.not_lt.mpr hn)

/-- The parts that a run of digits is cut into are numbers, each of them a value of its own. -/
theorem Complete.exists_after_digits {digits rest : List Char} {pending : Nat} {qs : List Part}
    (hqs : Complete pending qs) (h : written qs = digits ++ rest) (hne : digits ≠ [])
    (hdigits : ∀ c ∈ digits, c.isDigit = true)
    (hrest : ∀ c tail, rest = c :: tail → c.isDigit = false) :
    ∃ pending' qs', pending' < pending ∧ Complete pending' qs' ∧ written qs' = rest := by
  induction qs generalizing pending digits with
  | nil => exact absurd (List.append_eq_nil_iff.mp h.symm).1 hne
  | cons q qs ih =>
      obtain ⟨c, tail, hq, -, hwhole⟩ := q.exists_first
      obtain ⟨d, digits', rfl⟩ := List.exists_cons_of_ne_nil hne
      rw [written_cons] at h
      have hcd : c = d := by
        rw [hq] at h
        exact (List.cons.inj h).1
      obtain ⟨n, rfl, hn⟩ := hwhole (hcd ▸ hdigits d List.mem_cons_self)
      obtain ⟨left, rfl, hqs⟩ := hqs.exists_of_cons
      rcases List.append_eq_append_iff.mp h with ⟨more, hmore, hrun⟩ | ⟨extra, hextra, hover⟩
      · by_cases hnil : more = []
        · subst hnil
          exact ⟨left, qs, Nat.lt_succ_self _, hqs, hrun⟩
        · obtain ⟨pending', qs', hlt, hcomplete, hwritten⟩ := ih hqs hrun hnil fun c hc =>
            hdigits c (hmore ▸ List.mem_append_right _ hc)
          exact ⟨pending', qs', Nat.lt_succ_of_lt hlt, hcomplete, hwritten⟩
      · cases extra with
        | nil => exact ⟨left, qs, Nat.lt_succ_self _, hqs, hover.symm⟩
        | cons e extra =>
            have hmem : e ∈ (whole n).shown.toList := by simp [hextra]
            have hdigit := Text.isDigit_of_mem_showInt hn hmem
            rw [hrest e _ hover] at hdigit
            cases hdigit

/-- Nothing follows a text whose end shows. -/
theorem eq_nil_of_isChain {p : Part} {ps : List Part} (hp : p.kind = 3)
    (hchain : (p :: ps).IsChain EndShows) : ps = [] := by
  cases ps with
  | nil => rfl
  | cons next ps =>
      have hends := (List.isChain_cons_cons.mp hchain).1
      cases p with
      | text s => exact hends.elim
      | _ => simp [kind] at hp

/-- A part whose end shows does not go on. -/
theorem written_ne_of_begins {p q : Part} (h : p.Begins q) {ps qs : List Part}
    (hchain : (p :: ps).IsChain EndShows) : written (p :: ps) ≠ written (q :: qs) := by
  intro hwritten
  obtain ⟨more, hmore, hshown⟩ := h.exists_more
  rw [written_cons, written_cons, hshown, List.append_assoc] at hwritten
  have hrest := List.append_cancel_left hwritten
  by_cases hp : p.kind = 3
  · rw [eq_nil_of_isChain hp hchain] at hrest
    exact hmore (List.append_eq_nil_iff.mp hrest.symm).1
  · obtain ⟨more', -, hdigits, hshown', -⟩ := h.exists_digits hp
    obtain rfl : more = more' := List.append_cancel_left (hshown.symm.trans hshown')
    obtain ⟨c, tail, rfl⟩ := List.exists_cons_of_ne_nil hmore
    have hc := isDigit_eq_false_of_isChain (.inl h) hchain hrest
    rw [hdigits c List.mem_cons_self] at hc
    cases hc

/-- A text is not cut short if no value is to follow. -/
theorem written_ne_of_text_begins {p q : Part} (h : q.Begins p) (hp : p.kind = 3) {qs : List Part}
    (hqs : Complete q.arity qs) : written [p] ≠ written (q :: qs) := by
  intro hwritten
  obtain ⟨more, hmore, hshown⟩ := h.exists_more
  cases h with
  | count | whole => simp [kind] at hp
  | text =>
      cases qs with
      | nil =>
          rw [written_cons, written_cons, hshown, List.append_assoc] at hwritten
          exact hmore (List.append_eq_nil_iff.mp (List.append_cancel_left hwritten)).1
      | cons next qs => exact hqs.elim

/-- A sequence in which all ends show is the only one that is written so. Any other way to cut it
turns some of its digits into numbers, and so leaves too few parts for the values that have been
announced. -/
theorem eq_of_written_eq {ps qs : List Part} {pending pending' : Nat}
    (hps : Complete pending ps) (hqs : Complete pending' qs) (hle : pending' ≤ pending)
    (hchain : ps.IsChain EndShows) (h : written ps = written qs) :
    ps = qs ∧ pending' = pending := by
  induction ps generalizing qs pending pending' with
  | nil =>
      obtain rfl := written_eq_nil_iff.mp h.symm
      exact ⟨rfl, hqs.trans hps.symm⟩
  | cons p ps ih =>
      cases qs with
      | nil => exact absurd (written_eq_nil_iff.mp h) (List.cons_ne_nil p ps)
      | cons q qs =>
          obtain ⟨left, rfl, hleft⟩ := hps.exists_of_cons
          obtain ⟨left', rfl, hleft'⟩ := hqs.exists_of_cons
          by_cases hpq : p = q
          · subst hpq
            have hrest : written ps = written qs := List.append_cancel_left h
            obtain ⟨rfl, hsame⟩ := ih hleft hleft' (by omega) hchain.tail hrest
            exact ⟨rfl, by omega⟩
          · exfalso
            rcases List.append_eq_append_iff.mp h with ⟨more, hq, -⟩ | ⟨more, hp, hrest⟩
            · exact written_ne_of_begins (begins_of_shown_append hpq hq) hchain h
            · have hbegins : q.Begins p := begins_of_shown_append (Ne.symm hpq) hp
              by_cases hkind : p.kind = 3
              · obtain rfl := eq_nil_of_isChain hkind hchain
                have hnone : left + p.arity = 0 := hleft
                obtain rfl : left' = 0 := by omega
                rw [Nat.zero_add] at hleft'
                exact written_ne_of_text_begins hbegins hkind hleft' h
              · obtain ⟨more', hmore, hdigits, hp', harity⟩ :=
                  hbegins.exists_digits (hbegins.kind_eq ▸ hkind)
                obtain rfl : more = more' := List.append_cancel_left (hp.symm.trans hp')
                -- The digits that `p` has more become numbers behind `q`.
                obtain ⟨fewer, qs', hlt, hqs', hwritten⟩ := hleft'.exists_after_digits hrest hmore
                  hdigits fun c tail => isDigit_eq_false_of_isChain (.inr hbegins) hchain
                have hsame := (ih hleft hqs' (by omega) hchain.tail hwritten.symm).2
                omega

end Part

/-! ## Values with the same bytes -/

namespace Value

open Digest

/-- Where the parts of two values first differ, one part begins the other. -/
def Overruns (v w : Value) : Prop :=
  ∃ common p q rest rest', v.parts = common ++ p :: rest ∧ w.parts = common ++ q :: rest' ∧
    (p.Begins q ∨ q.Begins p)

/-- All ends of parts show: a text is the last part, and no number that is not negative stands right
behind a count or a number. -/
def Delimited (v : Value) : Prop :=
  v.parts.IsChain Part.EndShows

theorem Overruns.parts_ne {v w : Value} (h : v.Overruns w) : v.parts ≠ w.parts := by
  obtain ⟨common, p, q, rest, rest', hv, hw, hbegins⟩ := h
  intro hparts
  rw [hv, hw] at hparts
  obtain rfl : p = q := (List.cons.inj (List.append_cancel_left hparts)).1
  rcases hbegins with hbegins | hbegins <;> exact hbegins.ne rfl

theorem overruns_of_stream_eq {v w : Value} (hv : Plain depthLimit v) (hw : Plain depthLimit w)
    (h : v.stream 0 = w.stream 0) (hne : v.parts ≠ w.parts) : v.Overruns w :=
  Part.exists_begins_of_written_eq ((stream_eq_iff hv hw).mp h) hne

theorem stream_eq_of_asLists_eq {v w : Value} (hv : Plain depthLimit v) (hw : Plain depthLimit w)
    (h : v.asLists = w.asLists) : v.stream 0 = w.stream 0 := by
  rw [stream_eq_iff hv hw, (hv.parts_eq_iff hw).mpr h]

theorem Delimited.parts_eq {v w : Value} (hdelimited : v.Delimited) (hv : Plain depthLimit v)
    (hw : Plain depthLimit w) (h : v.stream 0 = w.stream 0) : v.parts = w.parts := by
  have hparts := hv.complete_parts 0 [] rfl
  have hparts' := hw.complete_parts 0 [] rfl
  rw [List.append_nil] at hparts hparts'
  exact (Part.eq_of_written_eq hparts hparts' (Nat.le_refl _) hdelimited
    ((stream_eq_iff hv hw).mp h)).1

theorem fingerprint_eq_of_stream_eq {v w : Value} (h : v.stream 0 = w.stream 0) :
    v.fingerprint = w.fingerprint := by
  rw [fingerprint, fingerprint, h]

/-- Two values with the same bytes are the same, with lists for tuples, exactly if no part of one of
them overruns a part of the other. A value all of whose ends show shares its bytes with no other
value. And two values have one fingerprint exactly if they are the same, or have the same bytes for
the reason above, or have different bytes with one digest. -/
theorem stream_determines_value_iff {v w : Value} (hv : Plain depthLimit v)
    (hw : Plain depthLimit w) :
    (v.stream 0 = w.stream 0 → (v.asLists = w.asLists ↔ ¬ v.Overruns w)) ∧
      (v.Delimited → (v.stream 0 = w.stream 0 ↔ v.asLists = w.asLists)) ∧
      (v.fingerprint = w.fingerprint ↔ v.asLists = w.asLists ∨
        (v.stream 0 = w.stream 0 ∧ v.Overruns w) ∨ Collide (v.stream 0) (w.stream 0)) := by
  have hiff : v.parts = w.parts ↔ v.asLists = w.asLists := hv.parts_eq_iff hw
  refine ⟨fun hstream => ⟨fun hsame hover => ?_, fun hover => ?_⟩, fun hdelimited => ⟨?_, ?_⟩,
    ?_, ?_⟩
  · exact hover.parts_ne (hiff.mpr hsame)
  · by_contra hne
    exact hover (overruns_of_stream_eq hv hw hstream (mt hiff.mp hne))
  · exact fun hstream => hiff.mp (hdelimited.parts_eq hv hw hstream)
  · exact stream_eq_of_asLists_eq hv hw
  · intro hfingerprint
    rcases eq_or_collide hfingerprint with hstream | hcollide
    · by_cases hsame : v.asLists = w.asLists
      · exact .inl hsame
      · exact .inr (.inl ⟨hstream, overruns_of_stream_eq hv hw hstream (mt hiff.mp hsame)⟩)
    · exact .inr (.inr hcollide)
  · rintro (hsame | ⟨hstream, -⟩ | hcollide)
    · exact fingerprint_eq_of_stream_eq (stream_eq_of_asLists_eq hv hw hsame)
    · exact fingerprint_eq_of_stream_eq hstream
    · exact congrArg State.hex hcollide.2

/-- A list and a tuple of a list of nothing and a number, a truth value and a text. -/
theorem stream_determines_value_iff_delimited :
    let v : Value := .list [.tuple [.none, .int (-12)], .bool true, .str "s1"]
    let w : Value := .tuple [.list [.none, .int (-12)], .bool true, .str "s1"]
    Plain depthLimit v ∧ Plain depthLimit w ∧ v.Delimited ∧ v.stream 0 = w.stream 0 ∧
      v.asLists = w.asLists := by
  intro v w
  have hpair : ∀ item ∈ [Value.none, .int (-12)], Plain 6 item :=
    List.forall_mem_cons.mpr ⟨.none, List.forall_mem_singleton.mpr (.int _)⟩
  have hrest : ∀ item ∈ [Value.bool true, .str "s1"], Plain 7 item :=
    List.forall_mem_cons.mpr ⟨.bool _, List.forall_mem_singleton.mpr (.str _)⟩
  have hv : Plain depthLimit v :=
    .list (by decide) (List.forall_mem_cons.mpr ⟨.tuple (by decide) hpair, hrest⟩)
  have hw : Plain depthLimit w :=
    .tuple (by decide) (List.forall_mem_cons.mpr ⟨.list (by decide) hpair, hrest⟩)
  have hdelimited : v.Delimited := by
    simp [Delimited, v, parts, partsAll, Part.EndShows]
  have hstream : v.stream 0 = w.stream 0 := (stream_eq_iff hv hw).mpr rfl
  exact ⟨hv, hw, hdelimited, hstream,
    ((stream_determines_value_iff hv hw).2.1 hdelimited).mp hstream⟩

/-- Two values that are different with lists for tuples have the same bytes, and so one fingerprint,
although all of them counts. -/
def Confused (v w : Value) : Prop :=
  Plain depthLimit v ∧ Plain depthLimit w ∧ v.asLists ≠ w.asLists ∧
    v.stream 0 = w.stream 0 ∧ v.fingerprint = w.fingerprint

theorem confused_of_written_eq {items items' : List Value}
    (hitems : items.length ≤ lengthLimit ∧ ∀ item ∈ items, Plain 7 item)
    (hitems' : items'.length ≤ lengthLimit ∧ ∀ item ∈ items', Plain 7 item)
    (hwritten : Part.written (list items).parts = Part.written (list items').parts)
    (hparts : (list items).parts ≠ (list items').parts) :
    Confused (.list items) (.list items') := by
  have hv : Plain depthLimit (.list items) := .list hitems.1 hitems.2
  have hw : Plain depthLimit (.list items') := .list hitems'.1 hitems'.2
  have hstream := (stream_eq_iff hv hw).mpr hwritten
  exact ⟨hv, hw, mt (hv.parts_eq_iff hw).mpr hparts, hstream, fingerprint_eq_of_stream_eq hstream⟩

/-- Nothing shows where a number, a text or a count ends if a number or a text follows. -/
theorem parts_run_together :
    Confused (.list [.int 1, .int 23]) (.list [.int 12, .int 3]) ∧
      Confused (.list [.str "as", .str "b"]) (.list [.str "a", .str "sb"]) ∧
      Confused (.list [.int 2000000000000]) (.list (List.replicate 12 (.int 0))) := by
  have hpair : ∀ v w : Value, Plain 7 v → Plain 7 w →
      [v, w].length ≤ lengthLimit ∧ ∀ item ∈ [v, w], Plain 7 item := fun v w hv hw =>
    ⟨by simp [lengthLimit], List.forall_mem_cons.mpr ⟨hv, List.forall_mem_singleton.mpr hw⟩⟩
  refine ⟨?_, ?_, ?_⟩
  · exact confused_of_written_eq (hpair _ _ (.int 1) (.int 23)) (hpair _ _ (.int 12) (.int 3)) rfl
      (by decide)
  · exact confused_of_written_eq (hpair _ _ (.str "as") (.str "b"))
      (hpair _ _ (.str "a") (.str "sb")) rfl (by decide)
  · refine confused_of_written_eq ⟨by decide, List.forall_mem_singleton.mpr (.int _)⟩
      ⟨by decide, fun item hitem => ?_⟩ rfl (by decide)
    rw [List.eq_of_mem_replicate hitem]
    exact .int 0

end Value

end QuantFamily.Benchmark
