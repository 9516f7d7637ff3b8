import QuantFamily.Proofs.Gate.Nesting
import QuantFamily.Proofs.Output.Draft
import QuantFamily.Proofs.State.Definition
import QuantFamily.Proofs.Visit.Levels

/-!
# Formulas in clause form

A matrix that lists clauses is written without a fault: each clause is a gate of its own, in the
order in which the clauses are first listed, and the conjunction comes last. So the clause text has
one line for each clause that the matrix lists, however often it lists it.
-/

namespace QuantFamily

namespace Formula

variable {φ : Formula}

/-- A block of variables, perhaps negated, that is a clause: it is operated with `or`, or has at
most one brick and no attribute. -/
structure IsClause (φ : Formula) (b : Block) : Prop where
  literals : ∀ x ∈ b.body, (x.natAbs : Int) ∈ φ.vars.values
  mark : b.mark = some (.operator .or) ∨ b.mark = none ∧ b.body.length ≤ 1

/-- A conjunction of clauses, none of them negated. -/
structure IsClauseForm (φ : Formula) (m : Block) : Prop where
  mark : m.mark = some (.operator .and)
  clauses : ∀ e ∈ m.body, ∃ b, φ.contents.get? e = some b ∧ φ.IsClause b

/-- The literals of the block with an identifier. -/
def literalsOf (φ : Formula) (id : Id) : List Int :=
  ((φ.contents.get? id).map Block.body).getD []

/-- The gate of a clause. -/
def clauseGate (φ : Formula) (id : Id) : Gate :=
  ⟨id, "or", φ.literalsOf id⟩

/-- The gates of a matrix: one for each clause, and the conjunction. -/
def clauseFormGates (φ : Formula) (m : Block) : List Gate :=
  m.body.eraseDups.map φ.clauseGate ++ [⟨m.id, "and", m.body⟩]

theorem IsClauseForm.mem_vars {m : Block} (h : φ.IsClauseForm m) {x : Int}
    (hx : x ∈ (m.body.eraseDups.map φ.literalsOf).flatten) : (x.natAbs : Int) ∈ φ.vars.values := by
  obtain ⟨clause, hclause, hx⟩ := List.mem_flatten.mp hx
  obtain ⟨e, he, rfl⟩ := List.mem_map.mp hclause
  obtain ⟨b, hb, hliterals⟩ := h.clauses e (List.mem_eraseDups.mp he)
  rw [literalsOf, hb] at hx
  exact hliterals.literals x hx

end Formula

/-- The session with gates on the board. -/
def Session.withGates (s : Session) (gates : List Gate) : Session :=
  { s with formula := { s.formula with
      board := s.formula.board ++ renderGates gates
      boardGates := (gates.map Gate.id).reverse ++ s.formula.boardGates } }

theorem Session.withGates_nil (s : Session) : s.withGates [] = s := by
  have hboard : s.formula.board ++ renderGates [] = s.formula.board := String.append_empty
  simp [withGates, hboard]

theorem Session.withGates_append (s : Session) (gates more : List Gate) :
    s.withGates (gates ++ more) = (s.withGates gates).withGates more := by
  simp [withGates, renderGates_append, String.append_assoc]

namespace Action

variable {s : Session} {b m : Block}

/-! ## Writing the gates -/

theorem gateLines_clause {φ : Formula} (h : φ.IsClause b) :
    gateLines b = pure [gateLine b.id "or" b.body] := by
  rcases h.mark with hmark | ⟨hmark, hshort⟩
  · simp [gateLines, hmark, Attribute.word, Operator.word]
  · simp [gateLines, hmark, Nat.not_le.mpr (Nat.lt_succ_of_le hshort)]

theorem gateLines_conjunction (h : m.mark = some (.operator .and)) :
    gateLines m = pure [gateLine m.id "and" m.body] := by
  simp [gateLines, h, Attribute.word, Operator.word]

theorem putOnBoard_run {word : String} (h : gateLines b = pure [gateLine b.id word b.body])
    (s : Session) : putOnBoard b s = .ok () (s.withGates [⟨b.id, word, b.body⟩]) := by
  have hlines : ∀ t, gateLines b t = .ok [gateLine b.id word b.body] t := fun t => by
    rw [h]
    rfl
  unfold putOnBoard
  rw [run_bind_of_ok (show update _ s = .ok () _ from rfl), run_bind_of_ok (hlines _)]
  have hboard : s.formula.board ++ renderGates [⟨b.id, word, b.body⟩] =
      s.formula.board ++ gateLine b.id word b.body ++ "\n" := by
    simp [renderGates, Gate.line, String.append_assoc]
  unfold Session.withGates
  rw [hboard]
  rfl

theorem forM_run_of_forall {α : Type} {body : α → Action Unit} {xs : List α}
    (h : ∀ x ∈ xs, body x s = .ok () s) : xs.forM body s = .ok () s := by
  induction xs with
  | nil => rfl
  | cons x xs ih =>
      rw [List.forall_mem_cons] at h
      exact (run_bind_of_ok h.1).trans (ih h.2)

/-- What is written for a brick of a gate. -/
def writeOperand (fuel : Nat) (brick : Id) : Action Unit := do
  let φ <- formula
  let id := Int.ofNat brick.natAbs
  match φ.contents.get? id with
  | none => pure ()
  | some operand => if φ.boardGates.contains id then pure () else writeGate fuel operand

theorem writeGate_succ (fuel : Nat) (b : Block) :
    writeGate (fuel + 1) b = b.body.forM (writeOperand fuel) >>= fun _ => putOnBoard b :=
  rfl

theorem writeOperand_run (fuel : Nat) (brick : Id) (s : Session) :
    writeOperand fuel brick s = match s.formula.contents.get? (Int.ofNat brick.natAbs) with
      | none => .ok () s
      | some operand =>
          if s.formula.boardGates.contains (Int.ofNat brick.natAbs) then .ok () s
          else writeGate fuel operand s := by
  unfold writeOperand
  rw [run_bind_of_ok (show formula s = .ok s.formula s from rfl)]
  cases s.formula.contents.get? (Int.ofNat brick.natAbs) with
  | none => rfl
  | some operand => cases s.formula.boardGates.contains (Int.ofNat brick.natAbs) <;> rfl

/-- A clause is written by itself, since variables have no gates. -/
theorem writeGate_clause {φ : Formula} (h : φ.IsClause b) (hφ : φ.WellFormed)
    (contents : s.formula.contents = φ.contents) (fuel : Nat) :
    writeGate (fuel + 1) b s = .ok () (s.withGates [⟨b.id, "or", b.body⟩]) := by
  have hnone : ∀ x ∈ b.body, φ.contents.get? (Int.ofNat x.natAbs) = none := by
    intro x hx
    cases hget : φ.contents.get? (Int.ofNat x.natAbs) with
    | none => rfl
    | some c => exact absurd (h.literals x hx) (hφ.not_variable hget)
  have hbricks : b.body.forM (writeOperand fuel) s = .ok () s :=
    forM_run_of_forall fun x hx => by rw [writeOperand_run, contents, hnone x hx]
  rw [writeGate_succ, run_bind_of_ok hbricks]
  exact putOnBoard_run (gateLines_clause h) s

/-- A clause of the matrix is written unless it is there already. -/
theorem writeOperand_clause {φ : Formula} (hφ : φ.WellFormed) (h : φ.IsClauseForm m)
    (contents : s.formula.contents = φ.contents) (blank : s.formula.boardGates = []) (fuel : Nat)
    {e : Id} (he : e ∈ m.body) (seen : List Id) :
    writeOperand (fuel + 1) e (s.withGates (seen.eraseDups.map φ.clauseGate)) =
      .ok () (s.withGates ((seen ++ [e]).eraseDups.map φ.clauseGate)) := by
  obtain ⟨b, hb, hclause⟩ := h.clauses e he
  have hid : Int.ofNat e.natAbs = e :=
    Int.natAbs_of_nonneg (Int.le_trans (by decide) (hφ.held_range hb).1)
  have hgate : (⟨b.id, "or", b.body⟩ : Gate) = φ.clauseGate e := by
    rw [(hφ.held hb).1, Formula.clauseGate, Formula.literalsOf, hb]
    rfl
  have hthere : (s.withGates (seen.eraseDups.map φ.clauseGate)).formula.boardGates.contains e =
      decide (e ∈ seen) := by
    simp [Session.withGates, blank, Formula.clauseGate, Function.comp_def]
  have hcontents : (s.withGates (seen.eraseDups.map φ.clauseGate)).formula.contents =
      φ.contents := contents
  rw [writeOperand_run, hid, hthere, hcontents, hb, eraseDups_append_singleton]
  by_cases hseen : e ∈ seen
  · simp only [hseen, decide_true, if_true]
  · simp only [hseen, decide_false, if_false, Bool.false_eq_true]
    rw [writeGate_clause hclause hφ hcontents fuel, hgate, ← Session.withGates_append,
      List.map_append]
    rfl

/-- The matrix is written: its clauses one after the other, each once, and then the conjunction. -/
theorem writeGate_clauseForm {φ : Formula} (hφ : φ.WellFormed) (h : φ.IsClauseForm m)
    (contents : s.formula.contents = φ.contents) (blank : s.formula.boardGates = []) (fuel : Nat) :
    writeGate (fuel + 2) m s = .ok () (s.withGates (φ.clauseFormGates m)) := by
  -- The clauses on the board are those of the bricks that the loop has been through.
  have hbricks : ∀ (bricks : List Id), (∀ e ∈ bricks, e ∈ m.body) → ∀ seen : List Id,
      bricks.forM (writeOperand (fuel + 1)) (s.withGates (seen.eraseDups.map φ.clauseGate)) =
        .ok () (s.withGates ((seen ++ bricks).eraseDups.map φ.clauseGate)) := by
    intro bricks
    induction bricks with
    | nil =>
        intro _ seen
        rw [List.append_nil]
        rfl
    | cons e bricks ih =>
        intro hbricks seen
        rw [List.forall_mem_cons] at hbricks
        have hrest := ih hbricks.2 (seen ++ [e])
        rw [List.append_assoc, List.singleton_append] at hrest
        exact (run_bind_of_ok (writeOperand_clause hφ h contents blank fuel hbricks.1 seen)).trans
          hrest
  have hclauses := hbricks m.body (fun _ he => he) []
  rw [show ([] : List Id).eraseDups.map φ.clauseGate = [] from rfl, Session.withGates_nil,
    List.nil_append] at hclauses
  rw [writeGate_succ, run_bind_of_ok hclauses, putOnBoard_run (gateLines_conjunction h.mark),
    ← Session.withGates_append]
  rfl

/-! ## The texts -/

section Texts

variable {quantifiers matrix : Id} {scopes : List (Quantifier × List Int)}

theorem gatesBelow_clauseForm (hφ : s.formula.WellFormed) (form : s.formula.IsClauseForm m)
    (blank : s.formula.board = "" ∧ s.formula.boardGates = []) :
    gatesBelow .full m s = .ok (renderGates (s.formula.clauseFormGates m))
      (s.withGates (s.formula.clauseFormGates m)) := by
  have hwrite : writeOnBoard m s = .ok () (s.withGates (s.formula.clauseFormGates m)) :=
    writeGate_clauseForm hφ form rfl blank.2 s.formula.contents.size
  have hboard : (s.withGates (s.formula.clauseFormGates m)).formula.board =
      renderGates (s.formula.clauseFormGates m) := by
    rw [Session.withGates, blank.1, String.empty_append]
  rw [← hboard]
  exact run_bind_of_ok hwrite

/-- A formula in clause form has a circuit text. -/
theorem generateCircuit_clauseForm (hφ : s.formula.WellFormed)
    (blank : s.formula.board = "" ∧ s.formula.boardGates = [])
    (first : s.formula.outputPart 0 = .ok quantifiers)
    (second : s.formula.outputPart 1 = .ok matrix)
    (prefixed : s.formula.Quantifies quantifiers scopes)
    (held : s.formula.contents.get? matrix = some m) (form : s.formula.IsClauseForm m) :
    ∃ t, generateCircuit .full s = .ok (circuitHeader ++ Formula.renderScopes scopes ++
      outputLine (Text.showInt matrix) ++ renderGates (s.formula.clauseFormGates m)) t := by
  obtain ⟨b, hb⟩ := prefixed.exists_held
  have hquantified : s.formula.contentsOf quantifiers = .ok b := by
    rw [Formula.contentsOf, hb]
  have hlines := Formula.quantifierLines_of_quantifies hφ prefixed hb
    (s.formula.rank_lt_nestingBound quantifiers)
  exact generateCircuit_of_headed ⟨⟨quantifiers, b, first, hquantified, hlines⟩, second, held⟩
    (gatesBelow_clauseForm hφ form blank)

theorem legible_of_mem_clauseFormGates {φ : Formula} (hφ : φ.WellFormed)
    (held : φ.contents.get? matrix = some m) (form : φ.IsClauseForm m) :
    ∀ g ∈ φ.clauseFormGates m, g.Legible := by
  have hpos : ∀ {id : Id} {b : Block}, φ.contents.get? id = some b → (0 : Int) ≤ id := fun hb =>
    Int.le_trans (by decide) (hφ.held_range hb).1
  have hor : ∀ c ∈ "or".toList, c.isAlpha = true := List.all_eq_true.mp (by decide)
  have hand : ∀ c ∈ "and".toList, c.isAlpha = true := List.all_eq_true.mp (by decide)
  intro g hg
  rcases List.mem_append.mp hg with hg | hg
  · obtain ⟨e, he, rfl⟩ := List.mem_map.mp hg
    obtain ⟨b, hb, -⟩ := form.clauses e (List.mem_eraseDups.mp he)
    exact ⟨hpos hb, show "or" ≠ "" by decide, hor⟩
  · rw [List.mem_singleton] at hg
    subst hg
    exact ⟨(hφ.held held).1 ▸ hpos held, show "and" ≠ "" by decide, hand⟩

/-- The clauses of the text are those of the matrix. -/
theorem disjunctions_clauseFormGates (φ : Formula) (m : Block) :
    ((φ.clauseFormGates m).filter Gate.isDisjunction).map Gate.operands =
      m.body.eraseDups.map φ.literalsOf := by
  have hor : Text.occursIn "or".toList "or".toList = true := by decide
  have hand : Text.occursIn "or".toList "and".toList = false := by decide
  have hclauses : (m.body.eraseDups.map φ.clauseGate).filter Gate.isDisjunction =
      m.body.eraseDups.map φ.clauseGate := by
    refine List.filter_eq_self.mpr fun g hg => ?_
    obtain ⟨e, -, rfl⟩ := List.mem_map.mp hg
    exact hor
  rw [Formula.clauseFormGates, List.filter_append, hclauses,
    List.filter_singleton, show Gate.isDisjunction ⟨m.id, "and", m.body⟩ = false from hand]
  simp [Formula.clauseGate, Function.comp_def]

end Texts

/-- The statements of a definition in clause form. Its matrix lists all blocks of a grouping, and
one of them once more. -/
def twiceStatements : List Language.Statement :=
  [.family "N", .format "CNF", .vars "x" [] [], .vars "y" [] [], .vars "z" [] [],
   .blocks [⟨"C", [], [.ref false "x" [], .ref true "y" []]⟩, ⟨"D", [], [.ref false "z" []]⟩] []
     (some "G"),
   .blocks [⟨"M", [], [.all "G", .ref false "C" []]⟩] [] none,
   .blocks [⟨"Q", [], [.ref false "x" []]⟩] [] none,
   .blocks [⟨"R", [], [.ref false "y" []]⟩] [] none,
   .blocks [⟨"S", [], [.ref false "z" []]⟩] [] none,
   .blocks [⟨"P", [], [.ref false "Q" [], .ref false "R" [], .ref false "S" []]⟩] [] none,
   .blocks [⟨"F", [], [.ref false "P" [], .ref false "M" []]⟩] [] none,
   .mark [("C", [])] "OR", .mark [("M", [])] "AND", .mark [("Q", []), ("R", [])] "E",
   .mark [("S", [])] "A", .output "F" []]

/-- The text of these statements, piece by piece. -/
def twicePieces : List String :=
  ["name: N; ", "format: CNF; ", "variables: \x7b ", "x; y; z; \x7d ", "blocks: \x7b ",
   "define blocks ", "grouped in G \x7b ", "C := x, -y; ", "D := z; \x7d; ",
   "define block ", "M := all blocks ", "in G, C; ", "define block ", "Q := x; ",
   "define block ", "R := y; ", "define block ", "S := z; ", "define block ", "P := Q, R, S; ",
   "define block ", "F := P, M; ", "block C operated ", "with OR; ", "block M operated ",
   "with AND; ", "blocks Q, R ", "quantified with E; ", "block S ", "quantified with A; \x7d ",
   "output block: F;"]

theorem read_twicePieces :
    Language.Script.read .full (String.join twicePieces) = ⟨twiceStatements, none⟩ := by
  rw [Language.Script.read_of_toList String.toList_join]
  decide +kernel

def twiceSession : Session :=
  (perform (twiceStatements.forM (Language.Statement.perform .full false)) {}).2

theorem twiceSession_defined : twiceSession.Defined := by
  refine ⟨false, {}, [], String.join twicePieces, [], by simp, ?_⟩
  rw [List.nil_append, interpretAll_eq, List.flatMap_singleton, read_twicePieces]
  exact ok_of_perform (by decide +kernel)

theorem twiceSession_quantifies :
    twiceSession.formula.Quantifies 10
      [(.existential, [1]), (.existential, [2]), (.universal, [3])] := by
  have hheld : twiceSession.formula.contents.get? 10 = some ⟨"P( )", 10, [7, 8, 9], none, none⟩ ∧
      twiceSession.formula.contents.get? 7 =
        some ⟨"Q( )", 7, [1], none, some (.quantifier .existential)⟩ ∧
      twiceSession.formula.contents.get? 8 =
        some ⟨"R( )", 8, [2], none, some (.quantifier .existential)⟩ ∧
      twiceSession.formula.contents.get? 9 =
        some ⟨"S( )", 9, [3], none, some (.quantifier .universal)⟩ ∧
      ∀ x ∈ ([1, 2, 3] : List Int), (x.natAbs : Int) ∈ twiceSession.formula.vars.values := by
    decide +kernel
  obtain ⟨hlist, hfirst, hsecond, hthird, hvars⟩ := hheld
  have hscope : ∀ {id x : Id} {q : Quantifier} {b : Block},
      twiceSession.formula.contents.get? id = some b → b.mark = some (.quantifier q) →
      b.body = [x] → x ∈ ([1, 2, 3] : List Int) →
        twiceSession.formula.Quantifies id [(q, [x])] := by
    intro id x q b hb hmark hbody hx
    have hquantifies := Formula.Quantifies.scope (fun e => [e]) hb hmark fun e he => by
      rw [hbody, List.mem_singleton] at he
      exact .variable (hvars e (he ▸ hx))
    rw [hbody] at hquantifies
    exact hquantifies
  refine .list (fun e => if e = 7 then [(.existential, [1])] else
    if e = 8 then [(.existential, [2])] else [(.universal, [3])]) hlist rfl fun e he => ?_
  simp only [List.mem_cons, List.not_mem_nil, or_false] at he
  rcases he with rfl | rfl | rfl
  · exact hscope hfirst rfl rfl (by decide)
  · exact hscope hsecond rfl rfl (by decide)
  · exact hscope hthird rfl rfl (by decide)

end Action

end QuantFamily
