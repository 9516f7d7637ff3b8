import QuantFamily.Circuit.Basic

/-!
# Faults of circuit texts

What can be wrong with a line of a circuit text, and what can end the conversion of a
circuit. Faults that are reported have a message; the others have none.
-/

namespace QuantFamily.Circuit

/-- What can be wrong with a line. -/
inductive LineFault where
  | variableName
  | quantifierExpected
  | outputLiteral (text : String)
  | unknownToken (word : String)
  | freeNotFirst
  | variableText (text : String)
  | doubleNegation
  | undefined (name : String)
  | gateExpected
  | semicolons
  | quantifiedGate
  | parityInputs
  | choiceInputs
  | repeatedGate

/-- The message of a line fault. -/
def LineFault.message : LineFault -> String
  | .variableName => "Error reading VarName line."
  | .quantifierExpected => "Expected a line of the form 'quant(var_list)' or 'output(var)'."
  | .outputLiteral text => "Bad output literal: '" ++ text ++ "'"
  | .unknownToken word =>
      "Unrecognized token: '" ++ word ++
        "'.  Expecting 'exists', 'forall', 'free', or 'output'."
  | .freeNotFirst => "A 'free' block must be outermost."
  | .variableText text => "Bad variable name: '" ++ text ++ "'"
  | .doubleNegation => "Double negation"
  | .undefined name =>
      "Variable '" ++ name ++ "' was not quantified and was not defined as a gate variable."
  | .gateExpected => "Syntax error: expected a line of the form 'gate_var = gate_type(args)'"
  | .semicolons => "Expecting exactly one semicolon."
  | .quantifiedGate => "Quantified subgates are not implemented yet."
  | .parityInputs => "An XOR gate must have exactly 2 inputs."
  | .choiceInputs => "An ITE gate must have exactly 3 inputs."
  | .repeatedGate => "Gate '%s' was already defined."

/-- What can end the conversion of a circuit. -/
inductive Fault where
  | line (number : Nat) (cause : LineFault)
  | outputLookup (cause : LineFault)
  | unrecognizedOperator (word : String)
  | unknownOperator (word : String)
  | unwritableOperator (circuit : String)
  | unexpectedConstant (circuit : String)
  | repeatedLiteral (literal : Int) (clause : String)
  | contradictoryLiterals (literal : Int) (clause : String)
  | unsuitableQuantifier (word : String)
  | unknownFormat (word : String)
  /-- A table has no entry for a key, or a pool of numbers is empty. -/
  | missingEntry
  /-- A text ends too early. -/
  | missingItem
  /-- A condition that should always hold does not. -/
  | failedCheck
  /-- The circuit is too deep. -/
  | tooDeep
deriving Inhabited

/-- The message of a fault that is reported; most messages are followed by an empty
line. -/
def Fault.message? : Fault -> Option String
  | .line number cause =>
      some ("Error on line " ++ Nat.repr number ++ " of input.qcir. " ++ cause.message ++ "\n")
  | .outputLookup cause => some ("Error looking up output literal: " ++ cause.message ++ "\n\n")
  | .unrecognizedOperator word => some ("Unrecognized operator: '" ++ word ++ "'\n\n")
  | .unknownOperator word => some ("Unknown operator: '" ++ word ++ "'\n\n")
  | .unwritableOperator circuit => some ("Unknown operator '" ++ circuit ++ "'\n\n")
  | .unexpectedConstant circuit => some ("Unexpected constant: " ++ circuit ++ "\n\n")
  | .repeatedLiteral literal clause =>
      some ("Repeated literal " ++ Text.showInt literal ++ " in clause [" ++ clause ++ "]\n\n")
  | .contradictoryLiterals literal clause =>
      some ("Contradictory literals " ++ Text.showInt literal ++ " and " ++
        Text.showInt (-literal) ++ " in clause [" ++ clause ++ "]\n\n")
  | .unsuitableQuantifier word => some ("Bad quantifier '" ++ word ++ "'\n\n")
  | .unknownFormat word =>
      some ("Unknown format '" ++ word ++
        "'.\nValid choices for '--fmt' option are 'qcir' and 'qdimacs'.\n\n")
  | _ => none

end QuantFamily.Circuit
