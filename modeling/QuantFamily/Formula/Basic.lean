import QuantFamily.Expr.Value
import QuantFamily.Formula.Attribute
import QuantFamily.Table

/-!
# Formulas under construction

A formula is built from variables and blocks, both of which have names and share one
series of identifiers. A block lists signed identifiers of variables and blocks. Blocks
may be collected in groupings, and one block is the output of the formula. The texts that
have been written for a formula are kept with it.
-/

namespace QuantFamily

/-- An identifier of a variable or block; in the body of a block its sign says whether
the brick is negated. -/
abbrev Id := Int

/-- The shapes of formulas. -/
inductive Format where
  | cnf
  | prenexCircuit
  | circuit
deriving DecidableEq

/-- The name of a format in the language. -/
def Format.word : Format -> String
  | .cnf => "CNF"
  | .prenexCircuit => "circuit-prenex"
  | .circuit => "circuit-nonprenex"

/-- The format with a given name. -/
def Format.ofWord? : String -> Option Format
  | "CNF" => some .cnf
  | "circuit-prenex" => some .prenexCircuit
  | "circuit-nonprenex" => some .circuit
  | _ => none

/-- A declared parameter with the value it had when it was declared. -/
structure Parameter where
  name : String
  kind : String
  value : Expr.Value
  constraints : List String

/-- A block with its contents. -/
structure Block where
  name : String
  id : Id
  body : List Id
  grouping : Option String := none
  mark : Option Attribute := none
deriving DecidableEq

/-- A formula under construction. -/
structure Formula where
  values : Table String Expr.Value := {}
  name : String := ""
  format : Option Format := none
  parameters : List Parameter := []
  /-- The last identifier that was given out. -/
  counter : Id := 0
  vars : Table String Id := {}
  blocks : Table String Id := {}
  contents : Table Id Block := {}
  groupings : Table String (List Id) := {}
  output : Option Id := none
  circuitText : Option String := none
  clauseText : Option String := none
  nestedText : Option String := none
  /-- The gate lines written so far, operands before the gates that use them. -/
  board : String := ""
  /-- The blocks that have gate lines on the board. -/
  boardGates : List Id := []

namespace Formula

/-- The name of the format. -/
def formatWord (φ : Formula) : String :=
  match φ.format with
  | some f => f.word
  | none => "None"

/-- Whether a name is taken by a variable or a block. -/
def isDefined (φ : Formula) (name : String) : Bool :=
  φ.vars.contains name || φ.blocks.contains name

/-- The identifier of a name; variables come before blocks. -/
def idOf? (φ : Formula) (name : String) : Option Id :=
  match φ.vars.get? name with
  | some id => some id
  | none => φ.blocks.get? name

/-- Whether an identifier belongs to a variable. -/
def isVariable (φ : Formula) (id : Id) : Bool :=
  φ.vars.values.contains id

end Formula

end QuantFamily
