import QuantFamily.Circuit.Order
import QuantFamily.Circuit.Reader

/-!
# Writing circuits

A circuit can be written as gate lines, which name every gate by a number, or as clauses
that tie the number of every gate to the numbers of its inputs. Writing stops at the first
fault; the text up to it remains.
-/

namespace QuantFamily.Circuit

/-- What is known when a circuit is written. -/
structure Setting where
  keepVariableNames : Bool := true
  keepGateNames : Bool := false
  variableNames : Table Nat String := {}
  gateNames : Table Circuit (List String) := {}

/-- A text that is being written. -/
abbrev Writing := EStateM Fault String

namespace Writing

/-- Add to the text. -/
def emit (text : String) : Writing Unit :=
  modify (· ++ text)

/-- An outcome that does not depend on the text. -/
def lift {α : Type} : Except Fault α -> Writing α
  | .ok a => pure a
  | .error fault => throw fault

end Writing

/-- The text that was written, and the fault that ended it, if any. -/
structure Outcome where
  text : Option String := none
  fault : Option Fault := none

/-- The outcome of writing from an empty text. -/
def Writing.outcome (writing : Writing Unit) : Outcome :=
  match writing.run "" with
  | .ok _ text => { text := some text }
  | .error fault text => { text := some text, fault := some fault }

/-- Everything that is written about the gates of a circuit: their order, levels and
numbers. -/
structure Layout where
  places : Table Circuit Place
  gates : List (Circuit × Place)
  numbers : Table Circuit Int

/-- The layout of a circuit. -/
def layout (gateNames : Table Circuit (List String)) (c : Circuit) : Except Fault Layout := do
  let found <- places c
  let order := sorted found
  let numbers <- Numbering.ofCircuits gateNames (order.map (·.1))
  return { places := found, gates := order.filter (fun entry => !entry.1.isLit), numbers }

/-- A number in at least three columns. -/
def threeColumns (n : Nat) : String :=
  let digits := Nat.repr n
  "".pushn ' ' (3 - digits.length) ++ digits

/-- The comment lines that name the variables whose names are not their numbers. -/
def nameLines (start : String) (setting : Setting) : String :=
  if setting.keepVariableNames then
    String.join (setting.variableNames.entries.map fun entry =>
      if Nat.repr entry.1 = entry.2 then ""
      else start ++ "VarName " ++ threeColumns entry.1 ++ " : " ++ entry.2 ++ "\n")
  else ""

/-- The comment line with the former names of a gate, unless it had none or only its
number. -/
def formerNames (setting : Setting) (number : Int) (c : Circuit) : String :=
  let names := (setting.gateNames.get? c).getD []
  if !setting.keepGateNames || names.isEmpty || names = [Text.showInt number] then ""
  else
    "#" ++ Text.showInt number ++ String.join (names.map (" OrigName_" ++ ·)) ++ "\n"

/-- Write gate lines, with a comment before each level. Inputs are literals or gates that
have been written, perhaps negated. -/
def gateLines (setting : Setting) (l : Layout) : List (Circuit × Place) -> List Circuit ->
    Option Nat -> Writing Unit
  | [], _, _ => return
  | (c, place) :: rest, written, level => do
      if !(c.inputs.all fun arg => arg.isLit || decide (arg ∈ written)) then throw .failedCheck
      let written := c :: .neg c :: written
      let args <- Writing.lift (c.inputs.mapM (Numbering.number l.numbers))
      if level ≠ some place.level then
        Writing.emit ("# Nesting Level L" ++ Nat.repr place.level ++ "\n")
      let number <- Writing.lift (Numbering.number l.numbers c)
      Writing.emit (formerNames setting number c)
      Writing.emit (Text.showInt number ++ " = " ++ c.word ++ "(" ++ Text.showInts ", " args ++
        ")\n")
      gateLines setting l rest written (some place.level)

/-- Write a quantifier block of a circuit. -/
def scopeLine (scope : Scope) : Writing Unit :=
  match scope.binder with
  | .unknown _ => throw .failedCheck
  | binder => Writing.emit (binder.word ++ "(" ++ Text.showInts ", " scope.vars ++ ")\n")

/-- Write a circuit as gate lines. -/
def writeGates (setting : Setting) (scopes : List Scope) (c : Circuit) : Writing Unit :=
  match c with
  | .const true => Writing.emit "#QCIR-G14\nexists(g)\noutput(g)\n"
  | .const false => Writing.emit "#QCIR-G14\nforall(g)\noutput(g)\n"
  | c => do
      let l <- Writing.lift (layout setting.gateNames c)
      Writing.emit ("#QCIR-G14 " ++ Text.showInt (Numbering.largest l.numbers) ++ "\n")
      Writing.emit (nameLines "#" setting)
      scopes.forM scopeLine
      let number <- Writing.lift (Numbering.number l.numbers c)
      Writing.emit ("output(" ++ Text.showInt number ++ ")\n")
      gateLines setting l l.gates [] none

/-- The clauses of a choice gate. -/
def choiceClauses (v c t e : Circuit) : List (List Circuit) :=
  [[c.negate, t.negate, v], [c.negate, t, v.negate], [c, e.negate, v], [c, e, v.negate]]

/-- The clauses that say that a gate has the value of its inputs. -/
def gateClauses? (gate : Circuit) : Option (List (List Circuit)) :=
  match gate with
  | .and args =>
      some ((gate :: args.map negate) :: args.map fun arg => [gate.negate, arg])
  | .or args =>
      some ((gate.negate :: args) :: args.map fun arg => [gate, arg.negate])
  | .xor a b => some (choiceClauses gate a b.negate b)
  | .ite c t e => some (choiceClauses gate c t e)
  | .neg _ => some []
  | _ => none

/-- Check that no variable occurs twice in a clause. -/
def checkLiterals (clause : String) : List Int -> List Int -> Except Fault Unit
  | [], _ => .ok ()
  | n :: rest, seen =>
      if n ∈ seen then .error (.repeatedLiteral n clause)
      else if -n ∈ seen then .error (.contradictoryLiterals n clause)
      else checkLiterals clause rest (n :: seen)

/-- Write a clause. -/
def writeClause (numbers : Table Circuit Int) (clause : List Circuit) : Writing Unit := do
  let literals <- Writing.lift (clause.mapM (Numbering.number numbers))
  let text := Text.showInts " " literals
  Writing.lift (checkLiterals text literals [])
  Writing.emit (text ++ "  0\n")

/-- The quantifier blocks with the gates added to the innermost level. -/
def withGates (gates : List Int) : List Scope -> Except Fault (List Scope)
  | [] => .ok []
  | [scope] =>
      match scope.binder with
      | .exists => .ok [{ scope with vars := scope.vars ++ gates }]
      | .forall => .ok [scope, { binder := .exists, vars := gates }]
      | binder => .error (.unsuitableQuantifier binder.word)
  | scope :: rest => do return scope :: (<- withGates gates rest)

/-- Write a quantifier block of clauses. -/
def scopeClauseLine (scope : Scope) : Writing Unit := do
  let sign <- match scope.binder with
    | .exists => pure "e"
    | .forall => pure "a"
    | _ => throw .missingEntry
  Writing.emit (sign ++ " " ++ Text.showInts " " scope.vars ++ "  0\n")

/-- Write what follows the first line, and count the clauses. -/
def clauseLines (l : Layout) (scopes : List Scope) (c : Circuit) : Writing Nat := do
  let gates <- Writing.lift (l.gates.mapM fun entry => Numbering.number l.numbers entry.1)
  (<- Writing.lift (withGates gates scopes)).forM scopeClauseLine
  writeClause l.numbers [c]
  let counts <- l.gates.mapM fun entry => do
    match gateClauses? entry.1 with
    | some clauses => do
        clauses.forM (writeClause l.numbers)
        return clauses.length
    | none => throw (.unwritableOperator c.text)
  return 1 + counts.foldr (· + ·) 0

/-- The first line in a fixed width, so that it can be filled in at the end. -/
def firstLine (text : String) : String :=
  text ++ "".pushn ' ' (78 - text.length) ++ "\n"

/-- Write a circuit as clauses. The first line stays empty if there is a fault. -/
def writeClauses (setting : Setting) (scopes : List Scope) (c : Circuit) : Writing Unit :=
  match c with
  | .const true => Writing.emit "p cnf 1 1\ne 1 0\n1 0\n"
  | .const false => Writing.emit "p cnf 1 1\na 1 0\n1 0\n"
  | c => do
      let l <- Writing.lift (layout setting.gateNames c)
      let comments := nameLines "c " setting
      match (clauseLines l scopes c).run "" with
      | .ok count body =>
          Writing.emit (comments ++ firstLine ("p cnf " ++
            Text.showInt (Numbering.largest l.numbers) ++ " " ++ Nat.repr count ++ " ") ++ body)
      | .error fault body => do
          Writing.emit (comments ++ firstLine "" ++ body)
          throw fault

end QuantFamily.Circuit
