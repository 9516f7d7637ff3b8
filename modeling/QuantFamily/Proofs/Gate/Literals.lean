import QuantFamily.Output.Prenex
import QuantFamily.Proofs.Session.Calculus
import QuantFamily.Proofs.Text.Numeral

/-!
# Literals read back from their text

The text of the literals below a block goes through the text of each of its bricks: that text is cut
at its commas, read as numbers and written again with the sign of the brick. Whatever is written in
this way is read back as what it was, also if it is empty, so that no level of nesting loses or
changes a literal. The text is that of the literals themselves, which are found here without texts.
-/

namespace QuantFamily.Formula

/-- The variable literals that signed identifiers stand for, blocks being expanded with
their signs, and a fault if a block contains itself. -/
def literals (φ : Formula) : Nat → List Id → Except Fault (List Int)
  | 0, _ => .error .endlessNesting
  | fuel + 1, bricks => do
      let lists <- bricks.mapM fun brick =>
        let id := Int.ofNat brick.natAbs
        if φ.isVariable id then return [brick]
        else
          match φ.contents.get? id with
          | none => throw .missingEntry
          | some b => do
              let inner <- φ.literals fuel b.body
              return inner.map (withSign brick)
      return lists.flatten

/-- Literals, each followed by a comma and a space. -/
def literalList (ns : List Int) : String :=
  String.join (ns.map fun n => Text.showInt n ++ ", ")

/-! ## One text -/

theorem toList_literalList_cons (n : Int) (ns : List Int) :
    (literalList (n :: ns)).toList =
      (Text.showInt n).toList ++ ',' :: ([' '] ++ (literalList ns).toList) := by
  simp [literalList, String.toList_append]

theorem readLiteral_append_showInt {lead : List Char}
    (blank : ∀ c ∈ lead, Text.isBlank c = true) (n : Int) :
    readLiteral (lead ++ (Text.showInt n).toList) = .ok n := by
  have hread : Text.readInt? (lead ++ (Text.showInt n).toList) = some n := by
    rw [Text.readInt?, Text.trim_append_of_blank blank]
    exact Text.readInt?_showInt n
  rw [readLiteral, hread]

theorem commaless_of_blank {lead : List Char} (blank : ∀ c ∈ lead, Text.isBlank c = true) :
    ∀ c ∈ lead, decide (c = ',') = false := by
  intro c hc
  rw [decide_eq_false_iff_not]
  rintro rfl
  exact absurd (blank _ hc) (by decide)

/-- The pieces between the commas are the numbers. All but the first have a blank in front,
so the induction is over a text that starts with blanks. -/
theorem mapM_readLiteral_splitAt {lead : List Char}
    (blank : ∀ c ∈ lead, Text.isBlank c = true) (ns : List Int) :
    (Text.splitAt (· = ',') (lead ++ (literalList ns).toList)).dropLast.mapM readLiteral =
      .ok ns := by
  induction ns generalizing lead with
  | nil =>
      have hnone : (literalList []).toList = [] := rfl
      rw [hnone, List.append_nil, Text.splitAt_of_not_mem (commaless_of_blank blank)]
      rfl
  | cons n ns ih =>
      have hpiece : ∀ c ∈ lead ++ (Text.showInt n).toList, decide (c = ',') = false := by
        intro c hc
        rcases List.mem_append.mp hc with hc | hc
        · exact commaless_of_blank blank c hc
        · rw [decide_eq_false_iff_not]
          rintro rfl
          exact Text.not_mem_showInt (by decide) (by decide) n hc
      have hrest := ih (List.forall_mem_singleton.mpr (rfl : Text.isBlank ' ' = true))
      rw [toList_literalList_cons, ← List.append_assoc, Text.splitAt_append_cons (by decide),
        Text.splitAt_of_not_mem hpiece, List.singleton_append,
        List.dropLast_cons_of_ne_nil (Text.splitAt_ne_nil _ _), List.mapM_cons,
        readLiteral_append_showInt blank, hrest]
      rfl

/-- Reading a list of literals gives back what was written. -/
@[simp] theorem readLiterals_literalList (ns : List Int) :
    readLiterals (literalList ns) = .ok ns := by
  have hread := mapM_readLiteral_splitAt (List.forall_mem_nil _) ns
  rwa [List.nil_append] at hread

/-! ## All levels -/

theorem literalList_flatten (lists : List (List Int)) :
    literalList lists.flatten = String.join (lists.map literalList) := by
  apply String.toList_injective
  induction lists with
  | nil => rfl
  | cons ns lists ih =>
      simp only [literalList, List.flatten_cons, List.map_append, String.toList_join,
        List.flatMap_append, List.map_cons, List.flatMap_cons] at ih ⊢
      rw [ih]

/-- If the text of each brick is that of its literals, then so is the text of all bricks. -/
theorem join_mapM {f : Id → Except Fault String} {g : Id → Except Fault (List Int)}
    (h : ∀ brick, f brick = (g brick).map literalList) (bricks : List Id) :
    (do return String.join (<- bricks.mapM f)) =
      (do let lists <- bricks.mapM g; return lists.flatten : Except Fault (List Int)).map
        literalList := by
  rw [mapM_eq_map_mapM h]
  cases bricks.mapM g with
  | error fault => rfl
  | ok lists => exact congrArg Except.ok (literalList_flatten lists).symm

/-- The text is that of the literals, at every depth of nesting. -/
theorem literalTextWithin_eq (φ : Formula) (fuel : Nat) (bricks : List Id) :
    φ.literalTextWithin fuel bricks = (φ.literals fuel bricks).map literalList := by
  induction fuel generalizing bricks with
  | zero => rfl
  | succ fuel ih =>
      unfold literalTextWithin literals
      refine join_mapM (fun brick => ?_) bricks
      unfold brickText
      by_cases hvar : φ.isVariable (Int.ofNat brick.natAbs) = true
      · have hone : literalList [brick] = Text.showInt brick ++ ", " := by simp [literalList]
        simp only [hvar, if_true]
        exact congrArg Except.ok hone.symm
      · simp only [hvar, Bool.false_eq_true, if_false]
        cases φ.contents.get? (Int.ofNat brick.natAbs) with
        | none => rfl
        | some b =>
            simp only [ih]
            cases φ.literals fuel b.body with
            | error fault => rfl
            | ok ns =>
                have hsigned : literalList (ns.map (withSign brick)) =
                    String.join (ns.map fun n => Text.showInt (withSign brick n) ++ ", ") := by
                  rw [literalList, List.map_map]
                  rfl
                simp [Except.map, bind, Except.bind, pure, Except.pure, hsigned]

theorem literalText_eq (φ : Formula) (bricks : List Id) :
    φ.literalText bricks = do return literalList (<- φ.literals φ.nestingBound bricks) := by
  rw [literalText, literalTextWithin_eq]
  cases φ.literals φ.nestingBound bricks <;> rfl

theorem literalText_eq_ok_iff {φ : Formula} {bricks : List Id} {text : String} :
    φ.literalText bricks = .ok text ↔
      ∃ ns, φ.literals φ.nestingBound bricks = .ok ns ∧ text = literalList ns := by
  rw [literalText_eq]
  constructor
  · intro h
    obtain ⟨ns, hns, h⟩ := exists_ok_of_bind h
    cases h
    exact ⟨ns, hns, rfl⟩
  · rintro ⟨ns, hns, rfl⟩
    rw [hns]
    rfl

end QuantFamily.Formula
