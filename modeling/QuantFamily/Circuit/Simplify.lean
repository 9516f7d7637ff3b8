import QuantFamily.Circuit.Fault
import QuantFamily.Table

/-!
# Simplification

Two passes over circuits that keep their meaning. The first expresses parity and choice
gates by conjunctions and disjunctions; the second removes constants, repeated inputs and
gates with one input. A circuit that a pass has seen is not passed again, and the names
that were given to a gate go over to the circuit that it becomes.
-/

namespace QuantFamily.Circuit

/-- The names given to circuits, and the results of the two passes so far. -/
structure Names where
  given : Table Circuit (List String) := {}
  expanded : Table Circuit Circuit := {}
  simplified : Table Circuit Circuit := {}

/-- A pass over circuits. -/
abbrev Pass := EStateM Fault Names

namespace Pass

/-- Give another circuit the names of a circuit, if it has any. -/
def inheritNames (source target : Circuit) : Pass Unit :=
  modify fun s =>
    match s.given.get? source with
    | some (name :: names) => { s with given := s.given.put target (name :: names) }
    | _ => s

/-- Record the outcome of the first pass. -/
def recordExpanded (c result : Circuit) : Pass Circuit := do
  inheritNames c result
  modify fun s => { s with expanded := s.expanded.put c result }
  return result

/-- Record the outcome of the second pass. -/
def recordSimplified (c result : Circuit) : Pass Circuit := do
  inheritNames c result
  modify fun s => { s with simplified := s.simplified.put c result }
  return result

/-- A choice between circuits that have been passed already. -/
def expandChoice (c t e : Circuit) : Pass Circuit := do
  match (<- get).expanded.get? (.ite c t e) with
  | some result => return result
  | none => recordExpanded (.ite c t e) (.and [.or [c.negate, t], .or [c, e]])

mutual

/-- The first pass: parity and choice by conjunction and disjunction. -/
def expand (c : Circuit) : Pass Circuit := do
  match (<- get).expanded.get? c with
  | some result => return result
  | none =>
      match c with
      | .lit _ | .const _ => return c
      | .neg d => do recordExpanded c (.neg (<- expand d))
      | .and [] => return c
      | .and (d :: ds) => do recordExpanded c (.and (<- expandAll (d :: ds)))
      | .or [] => return c
      | .or (d :: ds) => do recordExpanded c (.or (<- expandAll (d :: ds)))
      | .xor a b => do
          let a <- expand a
          let b <- expand b
          recordExpanded c (<- expandChoice a b.negate b)
      | .ite d t e => do
          let d <- expand d
          let t <- expand t
          let e <- expand e
          recordExpanded c (.and [.or [d.negate, t], .or [d, e]])
      | .other _ [] => return c
      | .other name (d :: ds) => do
          let _ <- expandAll (d :: ds)
          throw (.unknownOperator name)

/-- The first pass over several circuits. -/
def expandAll : List Circuit -> Pass (List Circuit)
  | [] => return []
  | c :: cs => do
      let c <- expand c
      let cs <- expandAll cs
      return c :: cs

end

/-- The items of a list without later repetitions. -/
def unique {α : Type} [DecidableEq α] (items : List α) : List α :=
  items.foldl (fun kept item => if item ∈ kept then kept else kept ++ [item]) []

/-- A conjunction, or a disjunction, of simplified circuits. The neutral constant is left
out; the other constant, or an input with its negation, decides the gate. -/
def junction (conjunction : Bool) (args : List Circuit) : Circuit :=
  let kept := args.filter fun arg => arg ≠ .const conjunction
  if .const (!conjunction) ∈ kept then .const (!conjunction)
  else
    match kept with
    | [] => .const conjunction
    | [arg] => arg
    | kept =>
        if kept.any fun arg => decide (arg.negate ∈ kept) then .const (!conjunction)
        else if conjunction then .and (unique kept)
        else .or (unique kept)

/-- The negation of a simplified circuit. -/
def inversion : Circuit -> Circuit
  | .const b => .const (!b)
  | c => .neg c

/-- The parity of simplified circuits; with a constant it is one of them or its
negation. -/
def parity (a b : Circuit) : Circuit :=
  let (a, b) := match b with
    | .const _ => (b, a)
    | _ => (a, b)
  match a with
  | .const false => b
  | .const true => b.negate
  | a => .xor a b

/-- What a choice between simplified circuits becomes: a circuit that is done, or a gate
that has to be simplified itself. -/
def choice (c t e : Circuit) : Circuit ⊕ Circuit :=
  if c = .const true then .inl t
  else if c = .const false then .inl e
  else if t = .const true then .inr (.or [c, e])
  else if e = .const true then .inr (.or [c.negate, t])
  else if t = .const false then .inr (.and [c.negate, e])
  else if e = .const false then .inr (.and [c, t])
  else .inl (.ite c t e)

/-- The second pass, for circuits up to a given rank. -/
def simplifyWithin : Nat -> Circuit -> Pass Circuit
  | 0, _ => throw .tooDeep
  | fuel + 1, c => do
      match (<- get).simplified.get? c with
      | some result => return result
      | none =>
          match c with
          | .lit _ | .const _ => return c
          | .neg d => do
              let d <- simplifyWithin fuel d
              recordSimplified c (inversion d)
          | .and args => do
              let args <- args.mapM (simplifyWithin fuel)
              recordSimplified c (junction true args)
          | .or args => do
              let args <- args.mapM (simplifyWithin fuel)
              recordSimplified c (junction false args)
          | .xor a b => do
              let a <- simplifyWithin fuel a
              let b <- simplifyWithin fuel b
              recordSimplified c (parity a b)
          | .ite d t e => do
              let d <- simplifyWithin fuel d
              let t <- simplifyWithin fuel t
              let e <- simplifyWithin fuel e
              match choice d t e with
              | .inl result => recordSimplified c result
              | .inr gate => do
                  let result <- simplifyWithin fuel gate
                  recordSimplified c result
          | .other name args => do
              let _ <- args.mapM (simplifyWithin fuel)
              throw (.unknownOperator name)

/-- The second pass. -/
def simplify (c : Circuit) : Pass Circuit :=
  simplifyWithin (c.rank + 1) c

end Pass

end QuantFamily.Circuit
