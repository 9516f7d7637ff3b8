import QuantFamily.Circuit.Convert
import QuantFamily.Output.Circuit

/-!
# Clause output

The text of a formula as clauses. A formula in clause form is brought from its circuit
text line by line; for a prenex circuit the circuit text goes through the converter, by
way of two files.
-/

namespace QuantFamily

/-- The pieces of a text between commas that are followed by a space. -/
def splitCommas : List Char -> List (List Char)
  | [] => [[]]
  | ',' :: ' ' :: rest => [] :: splitCommas rest
  | c :: rest =>
      match splitCommas rest with
      | piece :: pieces => (c :: piece) :: pieces
      | [] => [[c]]

/-- The part of a line from behind its first opening bracket to its first closing one.
Without an opening bracket it begins with the line, and without a closing one it leaves
out the last character. -/
def betweenBrackets (line : List Char) : List Char :=
  let start := match line.findIdx? (· = '(') with
    | some i => i + 1
    | none => 0
  let stop := match line.findIdx? (· = ')') with
    | some i => i
    | none => line.length - 1
  (line.take stop).drop start

/-- The literals that a line lists. -/
def lineLiterals (line : String) : List String :=
  (splitCommas (betweenBrackets line.toList)).map String.ofList

/-- A clause text in the making: the finished lines, the sign of the last quantifier, the
line that is still open, and the number of clauses. -/
structure ClauseDraft where
  text : String := ""
  sign : String := ""
  line : String := ""
  clauses : Nat := 0

namespace ClauseDraft

/-- Add literals to the open line, each behind a space. -/
def extend (draft : ClauseDraft) (literals : List String) : ClauseDraft :=
  { draft with line := literals.foldl (fun line l => line ++ " " ++ l) draft.line }

/-- Close the open line. -/
def close (draft : ClauseDraft) : ClauseDraft :=
  { draft with text := draft.text ++ draft.line ++ " 0\n", line := "" }

/-- Take over the variables of a quantifier line; adjacent lines of one quantifier become
one line. -/
def addQuantifier (draft : ClauseDraft) (sign : String) (literals : List String) : ClauseDraft :=
  if draft.sign = sign then draft.extend literals
  else
    let draft := if draft.line.isEmpty then draft else draft.close
    ({ draft with sign := sign, line := sign }).extend literals

/-- Take over the literals of a gate line as a clause. -/
def addClause (draft : ClauseDraft) (literals : List String) : ClauseDraft :=
  let draft := draft.close
  { draft with
    line := literals.foldl (fun line l => if line.isEmpty then l else line ++ " " ++ l) ""
    clauses := draft.clauses + 1 }

/-- Take over a line of a circuit text. Lines that are neither quantifiers nor
disjunctions are left out. -/
def addLine (draft : ClauseDraft) (line : List Char) : ClauseDraft :=
  let literals := lineLiterals (String.ofList line)
  if Text.startsWith "exists".toList line then draft.addQuantifier "e" literals
  else if Text.startsWith "forall".toList line then draft.addQuantifier "a" literals
  else if Text.occursIn "or".toList line then draft.addClause literals
  else draft

/-- The draft of all lines of a circuit text. -/
def ofCircuit (text : String) : ClauseDraft :=
  ((Text.lines text.toList).foldl addLine {}).close

end ClauseDraft

/-- The clause text of a formula with a given circuit text. -/
def Formula.clausesOf (φ : Formula) (circuit : String) : String :=
  let draft := ClauseDraft.ofCircuit circuit
  "c Formula Family: " ++ φ.name ++ "\n" ++
    "c Values: " ++ (Expr.Value.record φ.values.keys φ.values.values).render ++ "\n" ++
    "p cnf " ++ Nat.repr φ.vars.size ++ " " ++ Nat.repr draft.clauses ++ "\n" ++ draft.text

namespace Action

/-- The files through which a circuit goes to the converter and back. -/
def circuitFile : String := "input.qcir"

/-- The file that the converter writes. -/
def clauseFile : String := "output.qdimacs"

/-- Write the clause text of a formula in clause form. -/
def generateClauses (edition : Edition) : Action String := do
  let circuit <- match (<- formula).circuitText with
    | some text => pure text
    | none => generateCircuit edition
  let text := (<- formula).clausesOf circuit
  update fun φ => { φ with clauseText := some text }
  return text

/-- Bring a prenex circuit into clauses. A fault leaves the files where they are. -/
def convertCircuit (edition : Edition) : Action String := do
  writeFile circuitFile ""
  writeFile clauseFile ""
  let circuit <- circuitText edition
  let circuit <- orElse .unsuitableValue circuit
  writeFile circuitFile circuit
  if edition.looksForConverter && !(<- get).hasConverter then throw .missingConverter
  let written :=
    if (<- get).hasConverter then ((Circuit.Conversion.run {} circuit).text).getD "" else ""
  update fun φ => { φ with clauseText := some written }
  removeFile circuitFile
  removeFile clauseFile
  return written

/-- The clause text of a formula, if its format is known. -/
def clauseText (edition : Edition) : Action (Option String) := do
  match (<- formula).format with
  | some .circuit => throw .needsNestedOutput
  | none => return none
  | some .prenexCircuit => return some (<- convertCircuit edition)
  | some .cnf =>
      match (<- formula).clauseText with
      | some text =>
          if text.isEmpty then return some (<- generateClauses edition) else return some text
      | none => return some (<- generateClauses edition)

end Action

end QuantFamily
