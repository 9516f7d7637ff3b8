import QuantFamily.Formula.Define
import QuantFamily.Output.Prenex

/-!
# Gate lines

Two ways of writing the gates below a block. The board holds the lines of a gate after
those of its operands, and remembers which gates it has. The queue visits gates breadth
first and writes their lines in reverse.
-/

namespace QuantFamily

/-- Numbers with commas between them. -/
def commaList (ns : List Int) : String :=
  Text.showInts ", " ns

/-- The line of a gate. -/
def gateLine (id : Id) (word : String) (operands : List Int) : String :=
  Text.showInt id ++ " = " ++ word ++ "(" ++ commaList operands ++ ")"

namespace Action

/-- Give out two fresh identifiers. -/
def twoFresh : Action (Id × Id) := do
  let φ <- formula
  update fun φ => { φ with counter := φ.counter + 2 }
  return (φ.counter + 1, φ.counter + 2)

/-- The lines of a gate: one, or three for a double implication. -/
def gateLines (b : Block) : Action (List String) :=
  match b.mark with
  | some (.operator .implies) =>
      match b.body with
      | [x, y] => return [gateLine b.id "or" [-x, y]]
      | _ => throw (.wrongBrickCount .implication b.name)
  | some (.operator .iff) => do
      let (left, right) <- twoFresh
      match b.body with
      | [x, y] =>
          return [gateLine left "or" [-x, y], gateLine right "or" [-y, x],
            gateLine b.id "and" [left, right]]
      | _ => throw (.wrongBrickCount .doubleImplication b.name)
  | none =>
      if 2 ≤ b.body.length then throw (.missingOperator b.name)
      else return [gateLine b.id "or" b.body]
  | some mark =>
      if mark = .operator .xor ∧ b.body.length ≠ 2 then
        throw (.wrongBrickCount .parity b.name)
      else if mark = .operator .ite ∧ b.body.length ≠ 3 then
        throw (.wrongBrickCount .choice b.name)
      else return [gateLine b.id mark.word b.body]

/-- Put the lines of a gate on the board. -/
def putOnBoard (b : Block) : Action Unit := do
  update fun φ => { φ with boardGates := b.id :: φ.boardGates }
  let lines <- gateLines b
  lines.forM fun line => update fun φ => { φ with board := φ.board ++ line ++ "\n" }

/-- Write a gate on the board after all its operands that are not there yet. -/
def writeGate : Nat -> Block -> Action Unit
  | 0, _ => throw .endlessNesting
  | fuel + 1, b => do
      b.body.forM fun brick => do
        let φ <- formula
        let id := Int.ofNat brick.natAbs
        match φ.contents.get? id with
        | none => pure ()
        | some operand =>
            if φ.boardGates.contains id then pure () else writeGate fuel operand
      putOnBoard b

/-- An operation of the board, which only the full edition has. -/
def requireBoard {α : Type} (edition : Edition) (action : Action α) : Action α :=
  if edition.isExtended then action else throw .unsupported

/-- Write a gate on the board. -/
def writeOnBoard (b : Block) : Action Unit := do
  writeGate (<- formula).nestingBound b

end Action

/-- The blocks among signed identifiers. -/
def Formula.operandBlocks (φ : Formula) (body : List Id) : List Block :=
  body.filterMap fun brick => φ.contents.get? (Int.ofNat brick.natAbs)

/-- The number of blocks a queue can ever hold: those it starts with, and the bricks of
every block, since each block is visited once. -/
def Formula.queueBound (φ : Formula) (start : List Block) : Nat :=
  let operands := fun (blocks : List Block) => blocks.foldr (fun b n => b.body.length + n) 0
  start.length + operands φ.contents.values + operands start + 1

/-- Close a line of operands: the last separator gives way to a bracket. -/
def closeLine (body : List Id) (text : String) : String :=
  if body.isEmpty then text ++ ")\n" else Formula.dropTwo text ++ ")\n"

/-- The word of a gate that lists its operands. A block without attribute is a disjunction. -/
def Block.gateWord (b : Block) : String :=
  match b.mark with
  | none => "or"
  | some mark => mark.word

/-- A line that lists all operands. -/
def listLine (id : Id) (word : String) (body : List Id) : String :=
  closeLine body
    (Text.showInt id ++ " = " ++ word ++ "(" ++
      String.join (body.map fun n => Text.showInt n ++ ", "))

namespace Action

/-- The lines of a gate of the queue, first line last, and the blocks to visit after it. A
gate lists its operands, whatever its word. In the full edition a block without operator
contributes no operands, and an implication takes its first and its last brick. -/
def queueLines (edition : Edition) (b : Block) : Action (List String × List Block) := do
  let φ <- formula
  let operands := φ.operandBlocks b.body
  if edition.isExtended then
    match b.mark with
    | none => return ([closeLine b.body (Text.showInt b.id ++ " = or(")], [])
    | some (.operator .implies) =>
        match b.body with
        | [] => throw .unreadableNumber
        | first :: rest =>
            let last := (rest.getLast?.map Text.showInt).getD ""
            let text :=
              Text.showInt b.id ++ " = or(" ++ Text.showInt (-first) ++ ", " ++ last ++ ", "
            return ([closeLine b.body text], operands)
    | some (.operator .iff) =>
        let (right, left) <- twoFresh
        match b.body with
        | first :: second :: rest =>
            let last := (second :: rest).getLastD second
            return ([gateLine b.id "and" [left, right] ++ "\n",
              gateLine left "or" [-first, last] ++ "\n",
              gateLine right "or" [-last, first] ++ "\n"], operands)
        | _ => throw .unreadableNumber
    | some mark => return ([listLine b.id mark.word b.body], operands)
  else return ([listLine b.id b.gateWord b.body], operands)

/-- Visit the blocks of a queue, each name once, and collect their lines, latest first. -/
def visitQueue (edition : Edition) : Nat -> List Block -> List String -> List String ->
    Action (List String)
  | 0, _, _, _ => throw .endlessNesting
  | _ + 1, [], _, lines => return lines
  | fuel + 1, b :: queue, visited, lines =>
      if visited.contains b.name then visitQueue edition fuel queue visited lines
      else do
        let (new, operands) <- queueLines edition b
        visitQueue edition fuel (queue ++ operands) (b.name :: visited) (new.reverse ++ lines)

/-- The gate lines below some blocks, breadth first in reverse. -/
def queueText (edition : Edition) (start : List Block) : Action String := do
  let φ <- formula
  let lines <- visitQueue edition (φ.queueBound start) start [] []
  return String.join lines

end Action

end QuantFamily
