import QuantFamily.Fault
import QuantFamily.Formula.Basic

/-!
# Indexed names

A variable or block is stored under one text made of its name and its indices. Where the
indices come from depends on the place: a declaration writes the values of the indices
that its ranges bind, a block head and a brick write substituted values, and an attribute
or the output block write the indices as they stand.
-/

namespace QuantFamily

open QuantFamily.Expr (Value)

/-- Values of indices, in the order in which they were bound. -/
abbrev Valuation := Table String Value

/-- The text of a name with indices. -/
def indexedName (name : String) (indices : List String) : String :=
  name ++ "(" ++ String.join (indices.map (" " ++ ·)) ++ " )"

/-- Whether a value can be looked up in a table: lists and records cannot. -/
def Expr.Value.isKey : Value -> Bool
  | .list _ => false
  | .record _ _ => false
  | .tuple items => areKeys items
  | _ => true
where
  /-- Whether all values can be looked up. -/
  areKeys : List Value -> Bool
    | [] => true
    | v :: vs => Value.isKey v && areKeys vs

/-- The name of a declared variable: bound indices are written by their values. -/
def declaredName (name : String) (indices : List String) (valuation : Valuation) : String :=
  indexedName name (indices.map fun ix => ((valuation.get? ix).map Value.text).getD ix)

/-- The name of a block at the head of its definition. -/
def headName (name : String) (indices : List Value) : Except Fault String :=
  if indices.all Value.isKey then .ok (indexedName name (indices.map Value.text))
  else .error .unsuitableValue

/-- The name of a brick. A value that spells one of the written indices cannot be told
from that index. -/
def brickName (name : String) (indices : List Value) (written : List String) :
    Except Fault String :=
  let clashes := fun (v : Value) => match v with
    | .str s => written.contains s
    | _ => false
  if indices.any clashes then .error .unsuitableValue
  else .ok (indexedName name (indices.map Value.text))

/-- The value of an index: a value of the formula, a bound index, or a numeral. -/
def Formula.substituteIndex (φ : Formula) (bound more : Valuation) (ix : String) :
    Except Fault Value :=
  match φ.values.get? ix with
  | some v => .ok v
  | none =>
      match bound.get? ix with
      | some v => .ok v
      | none =>
          match more.get? ix with
          | some v => .ok v
          | none =>
              match Text.readInt? ix.toList with
              | some n => .ok (.int n)
              | none => .error .unreadableNumber

/-- The values of indices, from left to right. -/
def Formula.substitute (φ : Formula) (indices : List String) (bound : Valuation)
    (more : Valuation := {}) : Except Fault (List Value) :=
  indices.mapM (φ.substituteIndex bound more)

end QuantFamily
