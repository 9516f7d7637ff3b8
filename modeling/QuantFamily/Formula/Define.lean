import QuantFamily.Formula.Valuation
import QuantFamily.Session

/-!
# Building a formula

The operations that a definition is made of: values, parameters, variables, blocks,
attributes and the output block. An operation that ends in a fault keeps what it has
recorded up to that point.
-/

namespace QuantFamily

open QuantFamily.Expr (Value)

/-- A brick of a block: a reference to a variable or block, perhaps negated, or all blocks
of a grouping. -/
inductive Brick where
  | ref (negated : Bool) (name : String) (indices : List String)
  | all (grouping : String)
deriving DecidableEq

/-- The definition of a block, for all values of the indices of its head. -/
structure Definition where
  name : String
  indices : List String
  bricks : List Brick
deriving DecidableEq

namespace Action

/-- Set the format. -/
def setFormat (word : String) : Action Unit :=
  match Format.ofWord? word with
  | some format => update fun φ => { φ with format := some format }
  | none => throw (.unknownFormat word)

/-- The value of an expression. -/
def evaluate (expression : String) (indices : Valuation := {}) : Action Value := do
  lift ((<- formula).evaluate expression indices)

/-- The value of a name that has one. -/
def valueOf (name : String) : Action Value := do
  orElse .unboundName ((<- formula).values.get? name)

/-- Record a value. -/
def addValue (name expression : String) : Action Unit := do
  let value <- evaluate expression
  update fun φ => { φ with values := φ.values.put name value }

/-- Record a parameter, which has a value already and meets its constraints. All
constraints are evaluated before the first one that fails is reported. -/
def addParameter (name kind : String) (constraints : List String) : Action Unit := do
  let value <- valueOf name
  let outcomes <- constraints.mapM fun c => evaluate c
  match (constraints.zip outcomes).find? fun outcome => !outcome.2.truth with
  | some (constraint, _) => throw (.violatedConstraint constraint name)
  | none =>
      update fun φ => { φ with parameters := φ.parameters ++ [⟨name, kind, value, constraints⟩] }

/-- Give a new identifier to a variable. -/
def saveVariable (name : String) : Action Unit := do
  if (<- formula).vars.contains name then throw (.repeatedVariable name)
  else
    update fun φ =>
      { φ with counter := φ.counter + 1, vars := φ.vars.put name (φ.counter + 1) }

/-- The identifier of a variable. -/
def variableId (name : String) : Action Id := do
  orElse (.undeclaredVariable name) ((<- formula).vars.get? name)

/-- Use what a search hands out. If a fault ends the search, it comes after all that was
handed out has been used. -/
def consume {α : Type} (findings : Findings) (use : List Valuation -> Action α) : Action α := do
  let result <- use findings.found
  match findings.fault with
  | none => return result
  | some fault => throw fault

/-- Declare a variable, once for every valuation of its ranges if it has any. -/
def addVariables (name : String) (indices : List String := []) (ranges : List Condition := []) :
    Action Unit := do
  if indices.isEmpty || ranges.isEmpty then saveVariable (indexedName name indices)
  else
    consume ((<- formula).search ranges) fun found =>
      found.forM fun v => saveVariable (declaredName name indices v)

/-- The identifier of a variable or block. -/
def brickId (name : String) : Action Id := do
  orElse (.undeclaredBrick name) ((<- formula).idOf? name)

/-- The block with an identifier. -/
def block (id : Id) : Action Block := do
  orElse (.undefinedBlock id) ((<- formula).contents.get? id)

/-- Give a new identifier to a block. -/
def saveBlock (name : String) : Action Unit := do
  if (<- formula).blocks.contains name then throw (.repeatedBlock name)
  else
    update fun φ =>
      { φ with counter := φ.counter + 1, blocks := φ.blocks.put name (φ.counter + 1) }

/-- Record the contents of a block. -/
def saveContents (name : String) (body : List Id) (grouping : Option String) : Action Unit := do
  let id <- brickId name
  update fun φ => { φ with contents := φ.contents.put id ⟨name, id, body, grouping, none⟩ }

/-- Record the blocks of a grouping, if it has a name. -/
def saveGrouping (grouping : Option String) (ids : List Id) : Action Unit :=
  match grouping with
  | some name =>
      if name.isEmpty then pure ()
      else update fun φ => { φ with groupings := φ.groupings.put name ids }
  | none => pure ()

/-- The blocks of a grouping. A grouping that does not exist is announced and left out. -/
def groupingMembers (grouping : String) : Action (Option (List Id)) := do
  match (<- formula).groupings.get? grouping with
  | some ids => return some ids
  | none =>
      say ("GROUPING ERROR: grouping " ++ grouping ++ " does not exist.")
      return none

/-- An identifier with the sign of its brick. -/
def signedId (negated : Bool) (id : Id) : Except Fault Id :=
  if negated then
    if id < 0 then .error .unreadableNumber else .ok (-id)
  else .ok id

/-- The members that a brick contributes at once: those of a grouping, or none yet. -/
def brickStart : Brick -> Action (Option (List Id))
  | .all grouping => groupingMembers grouping
  | .ref _ _ _ => return some []

/-- The identifiers that a brick contributes to a body under the given valuations, in
order and without those already used. Returns the identifiers and all used so far. -/
def brickIds (brick : Brick) (left : Valuation) (found : List Valuation) (used : List Id) :
    Action (List Id × List Id) :=
  match brick with
  | .all _ => return ([], used)
  | .ref negated name indices =>
      found.foldlM (fun (ids, used) v => do
        let values <- lift ((<- formula).substitute indices left v)
        let id <- brickId (<- lift (brickName name values indices))
        let id <- lift (signedId negated id)
        if used.contains id then return (ids, used)
        else return (ids ++ [id], used ++ [id])) ([], used)

/-- The identifiers that bricks contribute, one list a brick. -/
def bodyIds (conditions : List Condition) (left : Valuation) : List Brick -> List Id ->
    Action (List (List Id))
  | [], _ => return []
  | brick :: rest, used => do
      let (ids, used) <- consume ((<- formula).search conditions left) fun found =>
        brickIds brick left found used
      return ids :: (<- bodyIds conditions left rest used)

/-- The part of a valuation that binds the given indices. -/
def restrict (v : Valuation) (indices : List String) : Valuation :=
  { entries := v.entries.filter fun entry => indices.contains entry.1 }

/-- Define the block that a valuation selects, unless its name is taken. -/
def addBlock (definition : Definition) (conditions : List Condition) (grouping : Option String)
    (v : Valuation) : Action (Option Id) := do
  let indices <- lift ((<- formula).substitute definition.indices v)
  let name <- lift (headName definition.name indices)
  if (<- formula).isDefined name then return none
  else
    saveBlock name
    let id <- brickId name
    let left := restrict v definition.indices
    let starts <- definition.bricks.mapM brickStart
    let ids <- bodyIds conditions left definition.bricks []
    match starts.mapM fun start => start with
    | none => throw .unsuitableValue
    | some starts =>
        saveContents name (List.zipWith (· ++ ·) starts ids).flatten grouping
        return some id

/-- Define blocks for every definition and every valuation of the conditions, and collect
the new ones in a grouping. -/
def addBlocks (definitions : List Definition) (conditions : List Condition)
    (grouping : Option String := none) : Action Unit := do
  let ids <- definitions.mapM fun definition => do
    consume ((<- formula).search conditions) fun found =>
      found.filterMapM (addBlock definition conditions grouping)
  saveGrouping grouping ids.flatten

/-- Mark a block. -/
def markBlock (edition : Edition) (id : Id) (sign : String) : Action Unit := do
  let b <- block id
  match b.mark with
  | some held => throw (.attributeTaken b.name held sign)
  | none =>
      match Attribute.ofSign? edition sign with
      | some mark =>
          update fun φ => { φ with contents := φ.contents.put id { b with mark := some mark } }
      | none => throw (.unknownAttribute sign)

/-- Mark the block with a name and indices. -/
def addAttribute (edition : Edition) (name : String) (indices : List String) (sign : String) :
    Action Unit := do
  let id <- brickId (indexedName name indices)
  markBlock edition id sign

/-- Mark all blocks of a grouping. -/
def addAttributeToGrouping (edition : Edition) (grouping sign : String) : Action Unit := do
  match (<- formula).groupings.get? grouping with
  | none => throw (.undefinedGrouping grouping)
  | some ids => ids.forM fun id => markBlock edition id sign

/-- Choose the output block. -/
def setOutput (name : String) (indices : List String) : Action Unit := do
  let id <- brickId (indexedName name indices)
  update fun φ => { φ with output := some id }

end Action

end QuantFamily
