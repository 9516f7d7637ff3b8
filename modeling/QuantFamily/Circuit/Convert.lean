import QuantFamily.Circuit.Writer

/-!
# Conversion of circuit texts

A circuit text is read, simplified, and written again as gate lines or as clauses.
-/

namespace QuantFamily.Circuit

/-- How a circuit text is converted. -/
structure Conversion where
  /-- The name of the format that is written. -/
  format : String := "qdimacs"
  keepVariableNames : Bool := true
  keepGateNames : Bool := false
  /-- Keep parity and choice gates instead of expressing them by other gates. -/
  keepChoices : Bool := false

namespace Conversion

/-- Read and simplify a circuit text. -/
def prepare (conversion : Conversion) (text : String) : Except Fault (Document × Circuit) := do
  let document <- Document.read conversion.keepVariableNames text
  let passes : Pass Circuit := do
    let c <- if conversion.keepChoices then pure document.output else Pass.expand document.output
    Pass.simplify c
  match passes.run { given := document.gateNames } with
  | .ok c names => return ({ document with gateNames := names.given }, c)
  | .error fault _ => .error fault

/-- Convert a circuit text. There is no text at all if the fault comes before writing. -/
def run (conversion : Conversion) (text : String) : Outcome :=
  match conversion.prepare text with
  | .error fault => { fault := some fault }
  | .ok (document, c) =>
      let setting : Setting :=
        { keepVariableNames := conversion.keepVariableNames
          keepGateNames := conversion.keepGateNames
          variableNames := document.variableNames
          gateNames := document.gateNames }
      match conversion.format with
      | "qcir" => (writeGates setting document.scopes c).outcome
      | "qdimacs" => (writeClauses setting document.scopes c).outcome
      | word => { fault := some (.unknownFormat word) }

end Conversion

/-- The name of a format after the last dot of a file name. -/
def formatOfFile (name : String) : String :=
  String.ofList ((Text.splitAt (· = '.') name.toList).getLast?.getD [])

end QuantFamily.Circuit
