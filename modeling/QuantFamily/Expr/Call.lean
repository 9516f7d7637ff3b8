import QuantFamily.Expr.Operation

/-!
# Function calls

What each of the functions of expressions computes from its arguments and its named
options.
-/

namespace QuantFamily.Expr

/-- The options of a call that were given by name. -/
abbrev Options := List (String × Value)

namespace Value

/-- The smallest or largest item in the sense of a relation; the first of several. -/
def extreme? (r : Relation) : Value -> List Value -> Option Value
  | best, [] => some best
  | best, v :: rest => do
      if (<- related? r v best) then extreme? r v rest else extreme? r best rest

/-- Insert an item into a sorted list behind the items that are not in front of it. -/
def insertSorted? (r : Relation) (v : Value) : List Value -> Option (List Value)
  | [] => some [v]
  | w :: rest => do
      if (<- related? r v w) then some (v :: w :: rest)
      else some (w :: (<- insertSorted? r v rest))

/-- A list sorted by a relation; equal items keep their order. -/
def sort? (r : Relation) (items : List Value) : Option (List Value) :=
  items.foldlM (fun sorted v => insertSorted? r v sorted) []

/-- The sum of items, added to a start from left to right. -/
def total? : Value -> List Value -> Option Value
  | acc, [] => some acc
  | acc, v :: rest => do total? (<- add acc v) rest

/-- Read an integer in a base, with the base's own mark in front if there is one. -/
def readBase? (base : Int) (s : String) : Option Int :=
  if base < 2 ∨ 36 < base then Option.none
  -- In a base that is a power of two a numeral may have any length.
  else if !([2, 4, 8, 16, 32].contains base) && Text.maxDigits < Text.digitCount s.toList then
    Option.none
  else
    let text := Text.trim s.toList
    let (sign, digits) := match text with
      | '-' :: rest => ((-1 : Int), rest)
      | '+' :: rest => (1, rest)
      | rest => (1, rest)
    let digits := match digits with
      | '0' :: c :: rest =>
          if (base = 16 ∧ (c = 'x' ∨ c = 'X')) ∨ (base = 8 ∧ (c = 'o' ∨ c = 'O')) ∨
              (base = 2 ∧ (c = 'b' ∨ c = 'B')) then
            match rest with
            | '_' :: rest => rest
            | rest => rest
          else '0' :: c :: rest
      | digits => digits
    (Text.readDigits base.toNat digits false 0).map fun n => sign * Int.ofNat n

/-- Conversion to an integer. -/
def toInteger? : Value -> Option Int
  | .str s =>
      if Text.maxDigits < Text.digitCount s.toList then Option.none
      else Text.readInt? s.toList
  | v => do (<- v.number?).truncate?

/-- An inverse modulo a number, by the extended Euclidean algorithm. -/
def inverse? (fuel : Nat) (a m : Int) : Option Int :=
  go fuel a m 1 0
where
  /-- Keep two remainders and the multiples of the first argument they are. -/
  go : Nat -> Int -> Int -> Int -> Int -> Option Int
    | 0, _, _, _, _ => Option.none
    | fuel + 1, r, r', s, s' =>
        if r' = 0 then
          if r = 1 then some s else if r = -1 then some (-s) else Option.none
        else go fuel r' (r - r.fdiv r' * r') s' (s - r.fdiv r' * s')

/-- A power modulo a number, by repeated squaring of the base. -/
def powerMod (m : Int) : Nat -> Int -> Nat -> Int -> Int
  | 0, _, _, acc => acc
  | fuel + 1, base, exponent, acc =>
      if exponent = 0 then acc
      else
        let acc := if exponent % 2 = 1 then (acc * base).fmod m else acc
        powerMod m fuel ((base * base).fmod m) (exponent / 2) acc

/-- A power of integers modulo a third one. -/
def modularPower? (a b m : Int) : Option Int :=
  if m = 0 then Option.none
  else if b < 0 then do
    let inverse <- inverse? (2 * (a.natAbs.log2 + m.natAbs.log2) + 8) (a.fmod m) m
    some (powerMod m (b.natAbs.log2 + 1) (inverse.fmod m) b.natAbs ((1 : Int).fmod m))
  else some (powerMod m (b.natAbs.log2 + 1) (a.fmod m) b.natAbs ((1 : Int).fmod m))

/-- The smallest or largest of the arguments, or of the items of a single one. -/
def pickExtreme? (r : Relation) (args : List Value) (options : Options) : Option Value :=
  match args, options with
  | [v], [] => do
      match (<- v.items?) with
      | [] => Option.none
      | first :: rest => extreme? r first rest
  | [v], [("default", other)] => do
      match (<- v.items?) with
      | [] => some other
      | first :: rest => extreme? r first rest
  | first :: second :: rest, [] => extreme? r first (second :: rest)
  | _, _ => Option.none

end Value

/-- The value of a call of a function. -/
def Builtin.call (f : Builtin) (args : List Value) (options : Options) : Option Value :=
  match f, args, options with
  | .len, [v], [] => v.length?.map fun n => .int (Int.ofNat n)
  | .range, [stop], [] => do some (.range 0 (<- stop.integer?) 1)
  | .range, [start, stop], [] => do some (.range (<- start.integer?) (<- stop.integer?) 1)
  | .range, [start, stop, step], [] => do
      let step <- step.integer?
      if step = 0 then none
      else some (.range (<- start.integer?) (<- stop.integer?) step)
  | .abs, [v], [] => v.number?.map fun a => Value.ofNumber a.abs
  | .min, args, options => Value.pickExtreme? .less args options
  | .max, args, options => Value.pickExtreme? .greater args options
  | .sum, [v], [] => do Value.total? (.int 0) (<- v.items?)
  | .sum, [v, start], [] => summed v start
  | .sum, [v], [("start", start)] => summed v start
  | .sorted, [v], [] => do some (.list (<- Value.sort? .less (<- v.items?)))
  | .sorted, [v], [("reverse", reverse)] => do
      let descending <- reverse.integer?
      let items <- v.items?
      if descending = 0 then some (.list (<- Value.sort? .less items))
      else some (.list (<- Value.sort? .greater items))
  | .all, [v], [] => do some (.bool ((<- v.items?).all Value.truth))
  | .any, [v], [] => do some (.bool ((<- v.items?).any Value.truth))
  | .int, [], [] => some (.int 0)
  | .int, [v], [] => v.toInteger?.map .int
  | .int, [.str s, base], [] => do some (.int (<- Value.readBase? (<- base.integer?) s))
  | .str, [], [] => some (.str "")
  | .str, [v], [] => if v.isWritable then some (.str v.text) else none
  | .bool, [], [] => some (.bool false)
  | .bool, [v], [] => some (.bool v.truth)
  | .list, [], [] => some (.list [])
  | .list, [v], [] => v.items?.map .list
  | .pow, [v, w], [] => Value.binary .pow v w
  | .pow, [v, w, m], [] => do
      some (.int (<- Value.modularPower? (<- v.integer?) (<- w.integer?) (<- m.integer?)))
  | .divmod, [v, w], [] => do
      some (.tuple [<- Value.binary .floorDiv v w, <- Value.binary .floorMod v w])
  | _, _, _ => none
where
  /-- The sum of the items of a value added to a start that is not a text. -/
  summed (v start : Value) : Option Value :=
    match start with
    | .str _ => none
    | start => do Value.total? start (<- v.items?)

end QuantFamily.Expr
