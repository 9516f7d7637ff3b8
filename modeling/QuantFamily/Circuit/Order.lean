import QuantFamily.Circuit.Simplify

/-!
# Order and numbers of gates

Gates are written in the order of their levels: a literal is on level one, and a gate is
one level above its highest input. Within a level the order is that of a depth-first walk.
Literals keep their numbers; a gate takes the number that it was named after if that
number is free, and the least free number otherwise.
-/

namespace QuantFamily.Circuit

/-- The place of a circuit: its level, and when the walk left it. -/
structure Place where
  level : Nat
  index : Nat
deriving DecidableEq

/-- The places found so far and the next index. -/
structure Walk where
  places : Table Circuit Place := {}
  next : Nat := 1

/-- A walk over a circuit. -/
abbrev Walking := EStateM Fault Walk

namespace Walking

/-- Put a circuit in its place. -/
def place (c : Circuit) (level : Nat) : Walking Unit :=
  modify fun w => { places := w.places.put c ⟨level, w.next⟩, next := w.next + 1 }

/-- The level of an input, a negation being looked through once. -/
def levelOf (c : Circuit) : Walking Nat := do
  let key := match c with
    | .neg d => d
    | c => c
  match (<- get).places.get? key with
  | some p => return p.level
  | none => throw .missingEntry

mutual

/-- Walk through a circuit. Constants and gates without inputs have no place. -/
def visit (c : Circuit) : Walking Unit :=
  match c with
  | .lit _ => place c 1
  | .const _ => throw (.unexpectedConstant c.text)
  | .neg d => do
      if (<- get).places.contains c then return
      visit d
  | .and [] => throw (.unexpectedConstant c.text)
  | .and (d :: ds) => do
      if (<- get).places.contains c then return
      place c ((<- visitAll (d :: ds) 0) + 1)
  | .or [] => throw (.unexpectedConstant c.text)
  | .or (d :: ds) => do
      if (<- get).places.contains c then return
      place c ((<- visitAll (d :: ds) 0) + 1)
  | .xor a b => do
      if (<- get).places.contains c then return
      visit a
      let la <- levelOf a
      visit b
      let lb <- levelOf b
      place c (max la lb + 1)
  | .ite d t e => do
      if (<- get).places.contains c then return
      visit d
      let ld <- levelOf d
      visit t
      let lt <- levelOf t
      visit e
      let le <- levelOf e
      place c (max ld (max lt le) + 1)
  | .other _ [] => throw (.unexpectedConstant c.text)
  | .other _ (d :: ds) => do
      if (<- get).places.contains c then return
      place c ((<- visitAll (d :: ds) 0) + 1)

/-- Walk through inputs from left to right and find the highest level. -/
def visitAll : List Circuit -> Nat -> Walking Nat
  | [], level => return level
  | c :: cs, level => do
      visit c
      visitAll cs (max level (<- levelOf c))

end

end Walking

/-- The places of a circuit and all circuits in it. -/
def places (c : Circuit) : Except Fault (Table Circuit Place) :=
  match (Walking.visit c).run {} with
  | .ok _ walk => .ok walk.places
  | .error fault _ => .error fault

/-- The circuits of a table of places in their order. -/
def sorted (places : Table Circuit Place) : List (Circuit × Place) :=
  places.entries.mergeSort fun a b =>
    decide (a.2.level < b.2.level) || (decide (a.2.level = b.2.level) &&
      decide (a.2.index ≤ b.2.index))

/-- Numbers of circuits, with the numbers that are still free in ascending order. -/
structure Numbering where
  numbers : Table Circuit Int := {}
  free : List Nat

namespace Numbering

/-- Give a circuit a number and its negation the opposite one. -/
def assign (numbering : Numbering) (c : Circuit) (n : Nat) : Numbering :=
  { numbers := (numbering.numbers.put c (Int.ofNat n)).put (.neg c) (- Int.ofNat n)
    free := numbering.free.filter (· ≠ n) }

/-- A literal keeps its number. -/
def keepLiteral (numbering : Numbering) (c : Circuit) : Numbering :=
  match c with
  | .lit n =>
      { numbers := (numbering.numbers.put (.lit n) n).put (.lit (-n)) (-n)
        free := numbering.free.filter (· ≠ n.natAbs) }
  | _ => numbering

/-- The number that a name spells in the usual way. -/
def spelled? (name : String) : Option Nat :=
  match Text.readInt? name.toList with
  | some n => if Text.showInt n = name ∧ 0 ≤ n then some n.toNat else none
  | none => none

/-- A circuit takes the number that it was first named after, if it is free. -/
def takeName (given : Table Circuit (List String)) (numbering : Numbering) (c : Circuit) :
    Numbering :=
  match given.get? c with
  | some (name :: _) =>
      match spelled? name with
      | some n => if n ∈ numbering.free then numbering.assign c n else numbering
      | none => numbering
  | _ => numbering

/-- A gate without a number takes the least free one. -/
def takeFree (numbering : Numbering) (c : Circuit) : Except Fault Numbering :=
  if c.isLit || numbering.numbers.contains c then .ok numbering
  else
    match numbering.free with
    | [] => .error .missingEntry
    | n :: _ => .ok (numbering.assign c n)

/-- The numbers of circuits that are given in their order. -/
def ofCircuits (given : Table Circuit (List String)) (circuits : List Circuit) :
    Except Fault (Table Circuit Int) := do
  let start : Numbering := { free := (List.range circuits.length).map (· + 1) }
  let numbering := circuits.foldl keepLiteral start
  let numbering := circuits.foldl (takeName given) numbering
  let numbering <- circuits.foldlM takeFree numbering
  return numbering.numbers

/-- The largest number that was given out. -/
def largest (numbers : Table Circuit Int) : Int :=
  match numbers.values with
  | [] => 0
  | n :: ns => ns.foldl max n

/-- The number of a circuit. -/
def number (numbers : Table Circuit Int) (c : Circuit) : Except Fault Int :=
  match numbers.get? c with
  | some n => .ok n
  | none => .error .missingEntry

end Numbering

end QuantFamily.Circuit
