import QuantFamily.Expr.Call
import QuantFamily.Expr.Term
import QuantFamily.Table

/-!
# Evaluation

The value of a term among the names in scope, and the evaluation of an expression with
the values of a formula. The values are brought into scope by assignments: each value is
written out and its text is read again as an expression, so a text value stands for the
expression it spells.
-/

namespace QuantFamily.Expr

/-- The names in scope. The evaluation's own names hide assigned ones, and those hide the
functions. -/
structure Scope where
  own : List (String × Value)
  assigned : Table String Value := {}

namespace Scope

/-- The value of a name. -/
def get? (scope : Scope) (name : String) : Option Value :=
  match scope.own.lookup name with
  | some v => some v
  | none =>
      match scope.assigned.get? name with
      | some v => some v
      | none => (Builtin.every.find? fun f => f.name == name).map .builtin

/-- The scope inside a gathering list: only its own names are visible there. -/
def inner (pattern : Pattern) (item : Value) : Option Scope :=
  match pattern with
  | .single name => some { own := [(name, item)] }
  | .several names => do
      let items <- item.items?
      if items.length = names.length then some { own := (names.zip items).reverse } else none

end Scope

namespace Term

mutual

/-- The value of a term. -/
def eval : Term -> Scope -> Option Value
  | .value v, _ => some v
  | .name s, scope => scope.get? s
  | .unary f t, scope => do Value.unary f (<- eval t scope)
  | .binary f a b, scope => do
      let v <- eval a scope
      let w <- eval b scope
      Value.binary f v w
  | .compare first links rest, scope => do evalChain rest (<- eval first scope) links scope
  | .both a b, scope => do
      let v <- eval a scope
      if v.truth then eval b scope else some v
  | .either a b, scope => do
      let v <- eval a scope
      if v.truth then some v else eval b scope
  | .negation t, scope => do
      let v <- eval t scope
      some (.bool (!v.truth))
  | .choice condition yes no, scope => do
      let v <- eval condition scope
      if v.truth then eval yes scope else eval no scope
  | .list items, scope => do some (.list (<- evalAll items scope))
  | .tuple items, scope => do some (.tuple (<- evalAll items scope))
  | .item t index, scope => do
      let v <- eval t scope
      let i <- eval index scope
      v.item? i
  | .slice t first last step, scope => do
      let v <- eval t scope
      let first <- eval first scope
      let last <- eval last scope
      let step <- eval step scope
      v.slice first last step
  | .call f args names named, scope => do
      let f <- eval f scope
      let args <- evalAll args scope
      let named <- evalAll named scope
      match f with
      | .builtin f => f.call args (names.zip named)
      | _ => none
  | .gather body pattern source tests, scope => do
      let source <- eval source scope
      let items <- source.items?
      let kept <- items.filterMapM fun item => do
        let inside <- Scope.inner pattern item
        if (<- evalTests tests inside) then
          let v <- eval body inside
          some (some v)
        else some none
      some (.list kept)

/-- The values of terms, from left to right. -/
def evalAll : List Term -> Scope -> Option (List Value)
  | [], _ => some []
  | t :: rest, scope => do
      let v <- eval t scope
      let vs <- evalAll rest scope
      some (v :: vs)

/-- The outcome of a chain of comparisons, which stops at the first one that fails. -/
def evalChain : List Term -> Value -> List Comparison -> Scope -> Option Value
  | t :: rest, left, link :: links, scope => do
      let right <- eval t scope
      let holds <- Value.compared link left right
      if links.isEmpty || !holds then some (.bool holds)
      else evalChain rest right links scope
  | _, left, _, _ => some left

/-- Whether all tests hold; the first that fails decides. -/
def evalTests : List Term -> Scope -> Option Bool
  | [], _ => some true
  | t :: rest, scope => do
      let v <- eval t scope
      if v.truth then evalTests rest scope else some false

end

end Term

/-- What goes wrong when an expression is evaluated with the values of a formula. -/
inductive Failure where
  /-- A value cannot be brought into scope by this assignment. -/
  | unassignable (assignment : String)
  /-- The expression itself has no value. -/
  | unevaluable (expression : String)
  /-- A value has a number that is too long to be written. -/
  | unwritable
deriving DecidableEq

/-- Run the statements of an assignment text. -/
def Assignment.run (scope : Scope) : List Assignment -> Option Scope
  | [] => some scope
  | a :: rest => do
      let v <- a.term.eval scope
      let assigned := a.names.foldl (fun table name => table.put name v) scope.assigned
      Assignment.run { scope with assigned := assigned } rest

/-- An evaluation: an expression, the values of the formula, and the values of the
indices that are bound around it. -/
structure Evaluation where
  expression : String
  values : Table String Value
  indices : Table String Value := {}

namespace Evaluation

/-- The names and values brought into scope, indices last. -/
def bindings (e : Evaluation) : List (String × Value) :=
  e.values.entries ++ e.indices.entries

/-- The text that brings a value into scope. -/
def assignment (binding : String × Value) : String :=
  binding.1 ++ " = " ++ binding.2.text

/-- The evaluation's own names that do not change while values are brought into scope. -/
def fixedNames (e : Evaluation) : List (String × Value) :=
  [("self", .formula),
   ("expr", .str e.expression),
   ("extraValues", .record e.indices.keys e.indices.values),
   ("variables", .list (e.bindings.map fun b => .str b.1)),
   ("assigned_values", .list (e.bindings.map fun b => b.2)),
   ("pairs", .drained)]

/-- The evaluation's own names once a binding has been reached. -/
def namesAt (e : Evaluation) (binding : String × Value) : List (String × Value) :=
  ("p", .tuple [.str binding.1, binding.2]) ::
    ("assignment", .str (assignment binding)) :: e.fixedNames

/-- Bring one value into scope. -/
def bind (e : Evaluation) (scope : Scope) (binding : String × Value) :
    Except Failure Scope :=
  let text := assignment binding
  let scope := { scope with own := e.namesAt binding }
  if binding.2.isWritable then
    match (Assignment.parse? text).bind (Assignment.run scope) with
    | some scope => .ok scope
    | none => .error (.unassignable text)
  else .error .unwritable

/-- The scope with all values in it. -/
def scope (e : Evaluation) : Except Failure Scope :=
  e.bindings.foldlM e.bind { own := e.fixedNames }

/-- The value of the expression. -/
def run (e : Evaluation) : Except Failure Value := do
  let scope <- e.scope
  match (Term.parse? e.expression).bind (·.eval scope) with
  | some v => .ok v
  | none => .error (.unevaluable e.expression)

end Evaluation

end QuantFamily.Expr
