import QuantFamily.Output.Gates

/-!
# Circuit output

The text of a formula as a circuit: with all quantifiers in front, or with quantified
gates among the others. Each text is written once and kept with the formula.
-/

namespace QuantFamily

/-- The first line of a circuit. -/
def circuitHeader : String := "#QCIR-G14\n"

/-- The line that names the output gate. -/
def outputLine (id : String) : String := "output(" ++ id ++ ")\n"

namespace Action

/-- The gate lines below a block, in the order of the edition. -/
def gatesBelow (edition : Edition) (b : Block) : Action String :=
  if edition.isExtended then do
    writeOnBoard b
    return (<- formula).board
  else queueText edition [b]

/-- Write the circuit with its quantifiers in front: the first brick of the output block
holds the quantifiers and the second one is the matrix. -/
def generateCircuit (edition : Edition) : Action String := do
  let φ <- formula
  let quantifiers <- lift (φ.outputPart 0)
  let quantified <- lift (φ.contentsOf quantifiers)
  let lines <- lift (φ.quantifierLines φ.nestingBound quantified)
  let matrix <- lift (φ.outputPart 1)
  let b <- lift (φ.contentsOf matrix)
  let gates <- gatesBelow edition b
  let text := circuitHeader ++ lines ++ outputLine (Text.showInt matrix) ++ gates
  update fun φ => { φ with circuitText := some text }
  return text

/-- The circuit with its quantifiers in front, if the format is known. -/
def circuitText (edition : Edition) : Action (Option String) := do
  match (<- formula).format with
  | some .circuit => throw .needsNestedOutput
  | none => return none
  | some _ =>
      match (<- formula).circuitText with
      | some text => return some text
      | none => return some (<- generateCircuit edition)

end Action

namespace Formula

/-- The quantifier of the first of two bricks, if that is a quantified block. -/
def quantifiedPair (φ : Formula) (body : List Id) : Option (Quantifier × Id × Id) :=
  match body with
  | [first, second] =>
      match (φ.contents.get? first).bind Block.mark with
      | some (.quantifier q) => some (q, first, second)
      | _ => none
  | _ => none

/-- The line of a block among quantified gates, and the blocks to visit after it. -/
def nestedLine (φ : Formula) (b : Block) : Except Fault (String × List Block) :=
  match φ.quantifiedPair b.body with
  | some (q, first, second) => do
      let vars <- φ.literalText [first]
      match φ.blocks.get? b.name with
      | none => throw .missingEntry
      | some id => do
          let matrix <- φ.contentsOf second
          let line := Text.showInt id ++ " = " ++ q.word ++ "(" ++ dropTwo vars ++ "; " ++
            Text.showInt second ++ ")\n"
          return (line, [matrix])
  | none => return (listLine b.id b.gateWord b.body, φ.operandBlocks b.body)

/-- Visit blocks breadth first, each name once, and collect their lines, latest first. -/
def visitNested (φ : Formula) : Nat -> List Block -> List String -> List String ->
    Except Fault (List String)
  | 0, _, _, _ => .error .endlessNesting
  | _ + 1, [], _, lines => .ok lines
  | fuel + 1, b :: queue, visited, lines =>
      if visited.contains b.name then φ.visitNested fuel queue visited lines
      else do
        let (line, operands) <- φ.nestedLine b
        φ.visitNested fuel (queue ++ operands) (b.name :: visited) (line :: lines)

/-- The circuit with quantified gates. -/
def nestedCircuit (φ : Formula) : Except Fault String := do
  match φ.output with
  | none => throw .missingEntry
  | some id => do
      let b <- φ.contentsOf id
      let lines <- φ.visitNested (φ.queueBound [b]) [b] [] []
      return circuitHeader ++ outputLine (Text.showInt id) ++ String.join lines

end Formula

namespace Action

/-- Write the circuit with quantified gates. -/
def generateNested : Action String := do
  lift (<- formula).nestedCircuit

/-- The circuit with quantified gates, for formulas that are not prenex. -/
def nestedText : Action String := do
  let φ <- formula
  match φ.format with
  | some .cnf | some .prenexCircuit => throw .needsPrenexOutput
  | _ =>
      match φ.nestedText with
      | some text => return text
      | none => do
          let text <- generateNested
          update fun φ => { φ with nestedText := some text }
          return text

end Action

end QuantFamily
