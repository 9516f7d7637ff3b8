import QuantFamily.Formula.Define

/-!
# Statements of the definition language

A text is a sequence of statements, each of which changes the formula under construction.
A statement can be announced before it takes effect, in the tracing edition partly
afterwards.
-/

namespace QuantFamily.Language

open QuantFamily.Expr (Value)

/-- A statement. -/
inductive Statement where
  | value (name expression : String)
  | family (name : String)
  | format (word : String)
  | parameter (name kind : String) (constraints : List String)
  | vars (name : String) (indices : List String) (ranges : List Condition)
  | blocks (definitions : List Definition) (conditions : List Condition)
      (grouping : Option String)
  | mark (targets : List (String × List String)) (sign : String)
  | markGrouping (grouping sign : String)
  | output (name : String) (indices : List String)
deriving DecidableEq

/-- Texts as a list value. -/
def textList (texts : List String) : Value :=
  .list (texts.map .str)

/-- A condition as a value. -/
def conditionValue : Condition -> Value
  | .range index low high => .list [.str index, .tuple [.str low, .str high]]
  | .test expression => .list [.str Condition.reserved, .str expression]

/-- A brick as a value. -/
def brickValue : Brick -> Value
  | .ref negated name indices =>
      .tuple [.tuple [.str (if negated then "-" else ""), .str name], textList indices]
  | .all grouping => .list [.str "all blocks in", .str grouping]

/-- The announcement of a definition. -/
def definitionLine (definition : Definition) : String :=
  "BLOCK: adding block " ++
    (Value.tuple [.str definition.name, textList definition.indices]).render ++ " with body " ++
    (Value.list (definition.bricks.map brickValue)).render ++ "."

/-- The announcement of the variables that a statement declares. -/
def variablesLine (name : String) (indices : List String) (ranges : List Condition) : String :=
  "VARIABLE: adding variable " ++ name ++ " with indices " ++ (textList indices).render ++
    " and ranges " ++ (Value.list (ranges.map conditionValue)).render

/-- The announcement of the output block. -/
def outputLine (name : String) (indices : List String) : String :=
  "FINAL BLOCK: block " ++ name ++ " with indices " ++ (textList indices).render ++
    " saves as output block"

/-- Print a line if steps are announced. -/
def announce (verbose : Bool) (line : String) : Action Unit :=
  if verbose then Action.say line else pure ()

/-- Announce the definitions and the grouping of a statement. -/
def announceBlocks (edition : Edition) (verbose : Bool) (definitions : List Definition)
    (grouping : Option String) : Action Unit := do
  definitions.forM fun definition => announce verbose (definitionLine definition)
  match grouping with
  | some name =>
      announce (verbose && edition.announcesGroupings) ("GROUPING: adding grouping " ++ name ++ ".")
  | none => pure ()

/-- Announce a step before or after it is taken, as the edition has it. -/
def announced (edition : Edition) (verbose : Bool) (line : String) (action : Action Unit) :
    Action Unit := do
  if edition.announcesAfterwards then
    action
    announce verbose line
  else
    announce verbose line
    action

namespace Statement

/-- The number of terminals that can follow a statement. -/
def followers : Statement -> Nat
  | .value _ _ => 3
  | .family _ => 1
  | .format _ => 2
  | .parameter _ _ _ => 2
  | .vars _ _ _ => 2
  | .blocks _ _ _ => 6
  | .mark _ _ => 6
  | .markGrouping _ _ => 6
  | .output _ _ => 1

/-- Let a statement take effect. -/
def perform (edition : Edition) (verbose : Bool) (statement : Statement) : Action Unit := do
  let verbose := verbose || edition.alwaysAnnounces
  match statement with
  | .value name expression =>
      announce verbose
        ("VALUE: Handling parameter " ++ name ++ " with value " ++ expression ++ ".")
      Action.addValue name expression
  | .family name =>
      announce verbose ("NAME: setting name \"" ++ name ++ "\".")
      Action.update fun φ => { φ with name := name }
  | .format word =>
      announce verbose ("FORMAT: setting format '" ++ word ++ "'.")
      Action.setFormat word
  | .parameter name kind constraints =>
      announce verbose ("PARAMETER: adding parameter " ++ name ++ " of type " ++ kind ++
        " with constraints " ++ (textList constraints).render)
      Action.addParameter name kind constraints
  | .vars name indices ranges =>
      announced edition verbose (variablesLine name indices ranges)
        (Action.addVariables name indices ranges)
  | .blocks definitions conditions grouping =>
      announceBlocks edition verbose definitions grouping
      Action.addBlocks definitions conditions grouping
  | .mark targets sign =>
      targets.forM fun target => do
        announce verbose ("ATTRIBUTE: adding attribute " ++ sign ++ " to block " ++ target.1 ++
          " with indices " ++ (textList target.2).render)
        Action.addAttribute edition target.1 target.2 sign
  | .markGrouping grouping sign =>
      announce verbose
        ("ATTRIBUTE: adding attribute " ++ sign ++ " to all blocks in grouping " ++ grouping)
      Action.addAttributeToGrouping edition grouping sign
  | .output name indices =>
      announced edition verbose (outputLine name indices) (Action.setOutput name indices)

end Statement

end QuantFamily.Language
