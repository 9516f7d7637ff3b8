import QuantFamily.Expr.Value

/-!
# Sequences of values

Lists, tuples, texts and ranges are sequences: they can be run through, indexed from
either end and cut into slices.
-/

namespace QuantFamily.Expr.Value

/-- The integers of a range. -/
def rangeItems (start stop step : Int) : List Int :=
  (List.range (rangeLength start stop step)).map fun i => start + Int.ofNat i * step

/-- The items that running through a value yields. -/
def items? : Value -> Option (List Value)
  | .list items => some items
  | .tuple items => some items
  | .str s => some (s.toList.map fun c => .str (String.singleton c))
  | .range start stop step => some ((rangeItems start stop step).map .int)
  | .record names _ => some (names.map .str)
  | .drained => some []
  | _ => Option.none

/-- The number of items of a value that knows it. -/
def length? : Value -> Option Nat
  | .list items => some items.length
  | .tuple items => some items.length
  | .str s => some s.length
  | .range start stop step => some (rangeLength start stop step)
  | .record names _ => some names.length
  | _ => Option.none

/-- The place that an index denotes in a sequence of the given length; a negative index
counts from the end. -/
def place? (length : Nat) (index : Int) : Option Nat :=
  let index := if index < 0 then index + Int.ofNat length else index
  if 0 ≤ index ∧ index < Int.ofNat length then some index.toNat else Option.none

/-- The item of a value at an index, or the value of a name in a record. -/
def item? (v : Value) (index : Value) : Option Value :=
  match v, index with
  | .record names values, .str name => recordGet? names values name
  | .record _ _, _ => Option.none
  | .range start stop step, index => do
      let i <- index.integer?
      let p <- place? (rangeLength start stop step) i
      some (.int (start + Int.ofNat p * step))
  | .list items, index => do items[(<- place? items.length (<- index.integer?))]?
  | .tuple items, index => do items[(<- place? items.length (<- index.integer?))]?
  | .str s, index => do
      let c <- s.toList[(<- place? s.length (<- index.integer?))]?
      some (.str (String.singleton c))
  | _, _ => Option.none

/-- An end of a slice: absent, or an integer. -/
def bound? : Value -> Option (Option Int)
  | .none => some Option.none
  | v => v.integer?.map some

/-- Bring an end of a slice into the given limits; a negative one counts from the end. -/
def clamp (length low high : Int) (bound : Int) : Int :=
  let bound := if bound < 0 then bound + length else bound
  max low (min high bound)

/-- The first place, the place to stop before, and the step of a slice of a sequence of
the given length. -/
def slice? (length : Nat) (first last step : Value) : Option (Int × Int × Int) := do
  let n := Int.ofNat length
  let step := ((<- bound? step).getD 1)
  let first <- bound? first
  let last <- bound? last
  if step = 0 then Option.none
  else if 0 < step then
    some (clamp n 0 n (first.getD 0), clamp n 0 n (last.getD n), step)
  else
    let start := match first with
      | some f => clamp n (-1) (n - 1) f
      | Option.none => n - 1
    let stop := match last with
      | some l => clamp n (-1) (n - 1) l
      | Option.none => -1
    some (start, stop, step)

/-- The items of a list at the places of a range. -/
def pick {α : Type} (items : List α) (places : Int × Int × Int) : List α :=
  (rangeItems places.1 places.2.1 places.2.2).filterMap fun p => items[p.toNat]?

/-- A slice of a sequence. -/
def slice (v first last step : Value) : Option Value :=
  match v with
  | .list items => do some (.list (pick items (<- slice? items.length first last step)))
  | .tuple items => do some (.tuple (pick items (<- slice? items.length first last step)))
  | .str s => do some (.str (String.ofList (pick s.toList (<- slice? s.length first last step))))
  | .range start stop width => do
      let (first, last, step) <- slice? (rangeLength start stop width) first last step
      some (.range (start + first * width) (start + last * width) (step * width))
  | _ => Option.none

/-- Whether a value is in another one: an item of a sequence, a part of a text, or a name
of a record. -/
def memberOf? (v container : Value) : Option Bool :=
  match container with
  | .str s =>
      match v with
      | .str part => some (Text.occursIn part.toList s.toList)
      | _ => Option.none
  | .record names _ =>
      match v with
      | .list _ | .record _ _ => Option.none
      | v => some (names.any fun name => equal v (.str name))
  | container => container.items?.map fun items => items.any (equal v)

end QuantFamily.Expr.Value
