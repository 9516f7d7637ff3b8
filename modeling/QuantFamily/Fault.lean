import QuantFamily.Expr.Eval
import QuantFamily.Formula.Attribute

/-!
# Faults

Everything that can end an operation. The first group is reported to the user with a
message of its own; the second group ends an operation without one.
-/

namespace QuantFamily

/-- The two texts that a formula is read from. -/
inductive Source where
  | values
  | definition
deriving DecidableEq

/-- The name of a text in messages. -/
def Source.word : Source -> String
  | .values => "values"
  | .definition => "definition"

/-- The operators that take a fixed number of bricks, as messages name them. -/
inductive FixedOperator where
  | implication
  | doubleImplication
  | parity
  | choice
deriving DecidableEq

/-- The sign of an operator with a fixed number of bricks. The choice operator goes by
the sign of the parity operator. -/
def FixedOperator.sign : FixedOperator -> String
  | .implication => "→ (implication)"
  | .doubleImplication => "↔ (double implication)"
  | .parity => "⊕ (XOR)"
  | .choice => "⊕ (XOR)"

/-- The number of bricks of an operator, in words. -/
def FixedOperator.arity : FixedOperator -> String
  | .choice => "three"
  | _ => "two"

/-- A cause that ends an operation. -/
inductive Fault where
  | evaluation (failure : Expr.Failure)
  | unknownFormat (word : String)
  | violatedConstraint (constraint parameter : String)
  | undeclaredVariable (name : String)
  | repeatedVariable (name : String)
  | undefinedBlock (id : Int)
  | repeatedBlock (name : String)
  | undeclaredBrick (name : String)
  | undefinedGrouping (name : String)
  | attributeTaken (block : String) (held : Attribute) (given : String)
  | unknownAttribute (given : String)
  | wrongBrickCount (operator : FixedOperator) (block : String)
  | missingOperator (block : String)
  | needsNestedOutput
  | needsPrenexOutput
  | missingConverter
  | unreadable (source : Source) (position : Option (Nat × Nat))
  | missingInput (source : Source) (name : String)
  | strayArgument (argument : String)
  | noOutputs
  /-- A table has no entry for a key. -/
  | missingEntry
  /-- A list has no item at a place. -/
  | missingItem
  /-- A value is of a kind that cannot be used here. -/
  | unsuitableValue
  /-- A text is not a number, or a number is too long for a text. -/
  | unreadableNumber
  /-- A message refers to a name that does not exist. -/
  | unboundName
  /-- The edition has no such operation. -/
  | unsupported
  /-- A block contains itself. -/
  | endlessNesting
  /-- A file cannot be created under its name. -/
  | unusableFileName
deriving DecidableEq

namespace Fault

/-- How an evaluation that fails ends an operation. -/
def ofFailure : Expr.Failure -> Fault
  | .unwritable => .unreadableNumber
  | failure => .evaluation failure

/-- The line that reports a fault, if it is one that is reported. -/
def report? : Fault -> Option String
  | .evaluation (.unassignable text) => some ("EVALUATION ERROR: unable to execute " ++ text)
  | .evaluation (.unevaluable text) => some ("EVALUATION ERROR: unable to evaluate " ++ text)
  | .evaluation .unwritable => none
  | .unknownFormat word =>
      some ("FORMAT ERROR: " ++ word ++ " is not one of the valid formats! It should be: CNF, " ++
        "circuit-prenex or circuit-nonprenex.")
  | .violatedConstraint constraint parameter =>
      some ("PARAMETER ERROR: Constraint '" ++ constraint ++ "' for parameter " ++ parameter ++
        " was violated.")
  | .undeclaredVariable name =>
      some ("VARIABLE ERROR: Variable " ++ name ++ " has not been declared.")
  | .repeatedVariable name =>
      some ("VARIABLE ERROR: Variable " ++ name ++ " is being declared more than once!")
  | .undefinedBlock id => some ("BLOCK ERROR: block " ++ Text.showInt id ++ " is not defined.")
  | .repeatedBlock name =>
      some ("BLOCK ERROR: Block " ++ name ++ " is being declared more than once!")
  | .undeclaredBrick name =>
      some ("BRICK ERROR: Block or variable " ++ name ++ " has not been declared.")
  | .undefinedGrouping name =>
      some ("GROUPING ERROR: grouping name " ++ name ++ " is not defined")
  | .attributeTaken block held given =>
      some ("ATTRIBUTE ERROR: block " ++ block ++ " already has an attribute (" ++ held.word ++
        ") and thus it cannot be assigned another one (" ++ given ++ ").")
  | .unknownAttribute given =>
      some ("ATTRIBUTE ERROR: attribute " ++ given ++ " is not a valid input.")
  | .wrongBrickCount operator block =>
      some ("OPERATOR ERROR: Cannot use operator " ++ operator.sign ++ " on block " ++ block ++
        " because the number of bricks is not " ++ operator.arity ++ ".")
  | .missingOperator block =>
      some ("OPERATOR ERROR: Block " ++ block ++ " has been assigned no valid operator.")
  | .needsNestedOutput =>
      some ("FORMAT ERROR: the given formula is in non-prenex format; the only possible output " ++
        "is non-prenex QCIR.")
  | .needsPrenexOutput =>
      some "OUTPUT ERROR: Non-prenex QCIR output format unavailable for prenex formulae."
  | .missingConverter =>
      some ("CONVERSION ERROR: to convert to QDIMACS William Klieber's qcir-to-qdimacs.py script " ++
        "is needed in this directory. Download it from " ++
        "https://www.wklieber.com/ghostq/qcir-to-qdimacs.py")
  | .unreadable source position =>
      let place := match position with
        | some (line, column) =>
            "at line " ++ Nat.repr line ++ ", column " ++ Nat.repr column ++ "."
        | none => ""
      some ("PARSING ERROR: invalid syntax when parsing the " ++ source.word ++ " " ++ place)
  | .missingInput source name =>
      let kind := match source with
        | .values => "values"
        | .definition => "input"
      some ("FILE ERROR: the " ++ kind ++ " file " ++ name ++
        " does not exist or could not be opened.")
  | .strayArgument argument => some ("Invalid arguments: " ++ argument)
  | .noOutputs => some "Invalid arguments"
  | _ => none

end Fault

end QuantFamily
