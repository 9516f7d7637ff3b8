import Mathlib.Algebra.Group.Nat.Even
import Mathlib.Data.List.DropRight
import QuantFamily.Language.Reader

/-!
# Where a comment ends

Behind its opening mark a comment takes stars in pairs: a star takes the next character along, be it
a star, unless that is the slash that closes the comment. So the first `*/` closes a comment exactly
if the number of stars right in front of it is even. Otherwise its star is taken along by the one
before it, and the comment goes on behind the `*/` as if it had been opened there.
-/

namespace QuantFamily.Language

/-! ## Stars at the end of a text -/

/-- The number of stars at the end of a text. -/
def trailingStars (text : List Char) : Nat :=
  (text.rtakeWhile (· == '*')).length

theorem trailingStars_concat (text : List Char) (c : Char) :
    trailingStars (text ++ [c]) = if c = '*' then trailingStars text + 1 else 0 := by
  by_cases hc : c = '*' <;> simp [trailingStars, hc]

theorem trailingStars_cons_of_ne {c : Char} (hc : c ≠ '*') (text : List Char) :
    trailingStars (c :: text) = trailingStars text := by
  induction text using List.reverseRecOn with
  | nil => simp [trailingStars, List.rtakeWhile, hc]
  | append_singleton text d ih =>
      rw [← List.cons_append, trailingStars_concat, trailingStars_concat, ih]

/-- A star and the character that it takes along leave the parity as it is. -/
theorem even_trailingStars_pair (c : Char) (text : List Char) :
    Even (trailingStars ('*' :: c :: text)) ↔ Even (trailingStars text) := by
  induction text using List.reverseRecOn with
  | nil =>
      by_cases hc : c = '*'
      · subst hc
        decide
      · simp [trailingStars, List.rtakeWhile, hc]
  | append_singleton text d ih =>
      rw [← List.cons_append, ← List.cons_append, trailingStars_concat, trailingStars_concat]
      by_cases hd : d = '*'
      · rw [if_pos hd, if_pos hd, Nat.even_add_one, Nat.even_add_one, ih]
      · rw [if_neg hd, if_neg hd]

/-! ## The length of a comment -/

theorem commentLength_pair {c : Char} (hc : c ≠ '/') (text : List Char) :
    commentLength ('*' :: c :: text) = (commentLength text).map (· + 2) := by
  rw [commentLength]
  exact hc

theorem commentLength_cons_of_ne {c : Char} (hc : c ≠ '*') (text : List Char) :
    commentLength (c :: text) = (commentLength text).map (· + 1) := by
  rw [commentLength]
  all_goals simp_all

/-- Up to the first `*/` a comment takes everything. There it ends, or it goes on as a comment does
that is opened there. -/
theorem commentLength_of_first_close {inside : List Char} (first : ¬ ['*', '/'] <:+: inside)
    (after : List Char) :
    commentLength (inside ++ '*' :: '/' :: after) =
      if Even (trailingStars inside) then some (inside.length + 2)
      else (commentLength after).map (· + (inside.length + 2)) := by
  induction inside using commentLength.induct with
  | case1 => rfl
  | case2 =>
      have hodd : ¬ Even (trailingStars ['*']) := by decide
      rw [if_neg hodd, List.singleton_append, commentLength_pair (by decide),
        commentLength_cons_of_ne (by decide), Option.map_map]
      rfl
  | case3 rest => exact absurd ⟨[], rest, rfl⟩ first
  | case4 c rest hc ih =>
      have hrest : ¬ ['*', '/'] <:+: rest := fun h =>
        first (h.trans (List.suffix_append ['*', c] rest).isInfix)
      rw [List.cons_append, List.cons_append, commentLength_pair hc, ih hrest]
      by_cases heven : Even (trailingStars rest)
      · rw [if_pos heven, if_pos ((even_trailingStars_pair c rest).mpr heven)]
        rfl
      · rw [if_neg heven, if_neg (mt (even_trailingStars_pair c rest).mp heven), Option.map_map]
        rfl
  | case5 c rest halone _ hpair ih =>
      have hc : c ≠ '*' := by
        intro hc
        cases rest with
        | nil => exact halone hc rfl
        | cons d rest => exact hpair d rest hc rfl
      have hrest : ¬ ['*', '/'] <:+: rest := fun h =>
        first (h.trans (List.suffix_cons c rest).isInfix)
      rw [List.cons_append, commentLength_cons_of_ne hc, ih hrest, trailingStars_cons_of_ne hc]
      by_cases heven : Even (trailingStars rest)
      · rw [if_pos heven, if_pos heven]
        rfl
      · rw [if_neg heven, if_neg heven, Option.map_map]
        rfl

theorem commentLength_bounds {text : List Char} {n : Nat} (h : commentLength text = some n) :
    0 < n ∧ n ≤ text.length := by
  fun_induction commentLength text generalizing n with
  | case1 => cases h
  | case2 => cases h
  | case3 rest =>
      cases h
      exact ⟨Nat.zero_lt_two, Nat.le_add_left 2 _⟩
  | case4 c rest hc ih =>
      obtain ⟨m, hm, rfl⟩ := Option.map_eq_some_iff.mp h
      have hbounds := ih hm
      simp only [List.length_cons]
      omega
  | case5 c rest _ _ _ ih =>
      obtain ⟨m, hm, rfl⟩ := Option.map_eq_some_iff.mp h
      have hbounds := ih hm
      simp only [List.length_cons]
      omega

theorem ignoredLength_bounds {text : List Char} {n : Nat} (h : ignoredLength text = some n) :
    0 < n ∧ n ≤ text.length := by
  unfold ignoredLength at h
  split at h
  · cases h; simp
  · cases h; simp
  · cases h; simp
  · cases h; simp
  · obtain ⟨m, hm, rfl⟩ := Option.map_eq_some_iff.mp h
    have hbounds := commentLength_bounds hm
    simp only [List.length_cons]
    omega
  · cases h

/-! ## Places behind a comment -/

namespace Cursor

theorem rest_step (cursor : Cursor) : cursor.step.rest = cursor.rest.drop 1 := by
  fun_cases step cursor <;> simp_all

theorem rest_skip (n : Nat) (cursor : Cursor) : (cursor.skip n).rest = cursor.rest.drop n := by
  induction n generalizing cursor with
  | zero => rfl
  | succ n ih => rw [skip, ih, rest_step, List.drop_drop, Nat.add_comm]

theorem skipIgnored_of_some {cursor : Cursor} {n : Nat} (h : ignoredLength cursor.rest = some n)
    (fuel : Nat) : cursor.skipIgnored (fuel + 1) = (cursor.skip n).skipIgnored fuel := by
  rw [skipIgnored, h]

theorem skipIgnored_of_none {cursor : Cursor} (h : ignoredLength cursor.rest = none) (fuel : Nat) :
    cursor.skipIgnored fuel = cursor := by
  cases fuel with
  | zero => rfl
  | succ fuel => rw [skipIgnored, h]

/-- As many steps as there are characters are enough. -/
theorem skipIgnored_of_le {cursor : Cursor} {fuel fuel' : Nat}
    (enough : cursor.rest.length ≤ fuel) (enough' : cursor.rest.length ≤ fuel') :
    cursor.skipIgnored fuel = cursor.skipIgnored fuel' := by
  induction fuel generalizing cursor fuel' with
  | zero =>
      have hrest : cursor.rest = [] := List.eq_nil_of_length_eq_zero (Nat.le_zero.mp enough)
      have hnone : ignoredLength cursor.rest = none := by rw [hrest]; rfl
      rw [skipIgnored_of_none hnone, skipIgnored_of_none hnone]
  | succ fuel ih =>
      cases h : ignoredLength cursor.rest with
      | none => rw [skipIgnored_of_none h, skipIgnored_of_none h]
      | some n =>
          have hbounds := ignoredLength_bounds h
          obtain ⟨k, rfl⟩ : ∃ k, fuel' = k + 1 := ⟨fuel' - 1, by omega⟩
          have hlength : (cursor.skip n).rest.length = cursor.rest.length - n := by
            rw [rest_skip, List.length_drop]
          rw [skipIgnored_of_some h, skipIgnored_of_some h]
          exact ih (by omega) (by omega)

/-- The reader goes on behind what is ignored. -/
theorem settle_of_ignored {cursor : Cursor} {n : Nat} (h : ignoredLength cursor.rest = some n) :
    cursor.settle = (cursor.skip n).settle := by
  have hbounds := ignoredLength_bounds h
  have hlength : (cursor.skip n).rest.length = cursor.rest.length - n := by
    rw [rest_skip, List.length_drop]
  calc cursor.settle = cursor.skipIgnored (cursor.rest.length + 1) :=
        skipIgnored_of_le (Nat.le_refl _) (Nat.le_succ _)
    _ = (cursor.skip n).skipIgnored cursor.rest.length := skipIgnored_of_some h _
    _ = (cursor.skip n).settle := skipIgnored_of_le (by omega) (Nat.le_refl _)

end Cursor

/-- The first `*/` behind the opening mark of a comment ends it exactly if the number of stars right
in front of this `*/` is even. The reader then goes on right behind it. Otherwise the comment goes
on as if it were opened there: up to a later `*/`, or it is no comment at all. -/
theorem comment_ends_at_first_close_iff (cursor : Cursor) {inside after : List Char}
    (opened : cursor.rest = '/' :: '*' :: (inside ++ '*' :: '/' :: after))
    (first : ¬ ['*', '/'] <:+: inside) :
    (ignoredLength cursor.rest = some (inside.length + 4) ↔ Even (trailingStars inside)) ∧
      (Even (trailingStars inside) →
        cursor.settle = (cursor.skip (inside.length + 4)).settle ∧
          (cursor.skip (inside.length + 4)).rest = after) ∧
      (¬ Even (trailingStars inside) →
        ignoredLength cursor.rest =
          (ignoredLength ('/' :: '*' :: after)).map (· + (inside.length + 2))) := by
  have hlength : ignoredLength cursor.rest =
      (commentLength (inside ++ '*' :: '/' :: after)).map (· + 2) := by
    rw [opened]
    rfl
  have hends (heven : Even (trailingStars inside)) :
      ignoredLength cursor.rest = some (inside.length + 4) := by
    rw [hlength, commentLength_of_first_close first, if_pos heven]
    rfl
  have hgoes (hodd : ¬ Even (trailingStars inside)) :
      ignoredLength cursor.rest =
        (ignoredLength ('/' :: '*' :: after)).map (· + (inside.length + 2)) := by
    rw [hlength, commentLength_of_first_close first, if_neg hodd, Option.map_map]
    change _ = Option.map _ (Option.map _ _)
    rw [Option.map_map]
    congr 1
    funext n
    simp only [Function.comp_apply]
    omega
  refine ⟨⟨?_, hends⟩, ?_, hgoes⟩
  · intro hlong
    by_contra hodd
    rw [hgoes hodd] at hlong
    obtain ⟨n, hn, hsum⟩ := Option.map_eq_some_iff.mp hlong
    obtain ⟨m, hm, rfl⟩ := Option.map_eq_some_iff.mp hn
    have hpos := (commentLength_bounds hm).1
    omega
  · intro heven
    refine ⟨Cursor.settle_of_ignored (hends heven), ?_⟩
    rw [Cursor.rest_skip, opened]
    simp

/-- A comment framed by stars, with another one behind it. -/
def framedComment : Cursor :=
  { rest := ['/', '*', '*', 'a', '*', '*', '*', '/', 'n', '/', '*', 'b', '*', '/'] }

theorem comment_ends_at_first_close_iff_framed :
    ¬ ['*', '/'] <:+: ['*', 'a', '*', '*'] ∧ Even (trailingStars ['*', 'a', '*', '*']) ∧
      ignoredLength framedComment.rest = some 8 ∧
      framedComment.settle = (framedComment.skip 8).settle ∧
      (framedComment.skip 8).rest = ['n', '/', '*', 'b', '*', '/'] := by
  have hopened : framedComment.rest =
      '/' :: '*' :: (['*', 'a', '*', '*'] ++ '*' :: '/' :: ['n', '/', '*', 'b', '*', '/']) := rfl
  have hfirst : ¬ ['*', '/'] <:+: ['*', 'a', '*', '*'] := by decide
  have heven : Even (trailingStars ['*', 'a', '*', '*']) := by decide
  have hcomment := comment_ends_at_first_close_iff framedComment hopened hfirst
  exact ⟨hfirst, heven, hcomment.1.mpr heven, hcomment.2.1 heven⟩

/-- With one more star in front of the `*/` a comment goes on up to the end of the next one, and the
definition between them is lost. -/
theorem starred_comment_swallows_definition :
    Script.read .full "value: n = 1; /* a */ value: m = 2; /* b */ value: k = 3;" =
        ⟨[.value "n" "1", .value "m" "2", .value "k" "3"], none⟩ ∧
      Script.read .full "value: n = 1; /* a **/ value: m = 2; /* b */ value: k = 3;" =
        ⟨[.value "n" "1", .value "k" "3"], none⟩ := by
  decide +kernel

end QuantFamily.Language
