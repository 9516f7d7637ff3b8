import QuantFamily.Formula.Basic
import QuantFamily.Fault

/-!
# Listing of a formula

A readable account of everything a formula holds, for people who check a definition.
-/

namespace QuantFamily

namespace Formula

/-- Identifiers in square brackets. -/
def idList (ids : List Id) : String :=
  "[" ++ Text.showInts ", " ids ++ "]"

/-- The value lines of the parameters. -/
def valueLines (φ : Formula) : Except Fault String := do
  let lines <- φ.parameters.mapM fun p =>
    match φ.values.get? p.name with
    | none => throw .missingEntry
    | some v => return "    " ++ p.name ++ " = " ++ v.text ++ ";\n"
  return String.join lines

/-- The lines of the blocks. -/
def blockLines (φ : Formula) : Except Fault String := do
  let lines <- φ.blocks.entries.mapM fun (name, id) =>
    match φ.contents.get? id with
    | none => throw .missingEntry
    | some b =>
        return "    " ++ name ++ " --> " ++ Text.showInt id ++ ", with contents " ++ idList b.body ++
          "\n"
  return String.join lines

/-- The account of a formula. It needs contents for every block and an output block. -/
def listing (φ : Formula) : Except Fault String := do
  let values <- φ.valueLines
  let blocks <- φ.blockLines
  let count := fun (n : Nat) => Nat.repr n
  let vars := String.join (φ.vars.entries.map fun (name, id) =>
    "    " ++ name ++ " --> " ++ Text.showInt id ++ "\n")
  let groupings := String.join (φ.groupings.entries.map fun (name, ids) =>
    "    " ++ name ++ ", with contents " ++ idList ids ++ "\n")
  let marks := String.join (φ.contents.entries.map fun (id, b) =>
    "    Block " ++ Text.showInt id ++ ", with attribute " ++ Attribute.wordOf b.mark ++ "\n")
  match φ.output.bind fun id => (φ.contents.get? id).map fun b => (id, b) with
  | none => throw .missingEntry
  | some (id, b) =>
      return "========== Printed QBF ==========\n" ++
        "Printing the formula of the family " ++ φ.name ++ ", defined in " ++ φ.formatWord ++
        " format, for the VALUES:\n\n" ++ values ++ "\n" ++
        "The formula has the following " ++ count φ.vars.size ++
        " variables, with assigned corresponding numeric identifiers:\n\n" ++ vars ++ "\n" ++
        "The formula has the following " ++ count φ.blocks.size ++
        " blocks, with assigned corresponding numeric identifiers and contents:\n\n" ++ blocks ++
        "\n" ++
        "The formula has the following " ++ count φ.groupings.size ++
        " groupings, which contains the following blocks:\n\n" ++ groupings ++ "\n" ++
        "The formula has the following quantifiers and operators associated to the blocks: \n" ++
        marks ++ "\n" ++
        "The output of the formula is determined by the block " ++ Text.showInt id ++ ", i.e. " ++
        b.name ++ "\n" ++
        "======================================================\n"

end Formula

end QuantFamily
