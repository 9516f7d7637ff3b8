import QuantFamily.Expr.Sequence

/-!
# Operators of expressions

The unary and binary operators on values. An operator fails, with no further detail, when
it has no meaning for its operands.
-/

namespace QuantFamily.Expr

/-- The unary operators. -/
inductive Unary where
  | neg | pos | invert
deriving DecidableEq

/-- The binary operators that evaluate both operands. -/
inductive Binary where
  | add | sub | mul | div | floorDiv | floorMod | pow
  | bitAnd | bitOr | bitXor | shiftLeft | shiftRight
deriving DecidableEq

/-- The comparisons. -/
inductive Comparison where
  | eq | ne | less | lessEq | greater | greaterEq | isSame | isNotSame | member | notMember
deriving DecidableEq

namespace Value

/-- A list written the given number of times in a row. -/
def repeated {α : Type} (items : List α) (count : Int) : List α :=
  (List.replicate count.toNat items).flatten

/-- Apply an operation on numbers. -/
def onNumbers (f : Number -> Number -> Option Number) (v w : Value) : Option Value := do
  let a <- v.number?
  let b <- w.number?
  (f a b).map ofNumber

/-- Sum of numbers, or sequences of one kind one after the other. -/
def add : Value -> Value -> Option Value
  | .str s, .str t => some (.str (s ++ t))
  | .list xs, .list ys => some (.list (xs ++ ys))
  | .tuple xs, .tuple ys => some (.tuple (xs ++ ys))
  | v, w => onNumbers Number.add v w

/-- Product of numbers, or a sequence repeated. -/
def mul (v w : Value) : Option Value :=
  match v, w with
  | .str s, w => do some (.str (String.ofList (repeated s.toList (<- w.integer?))))
  | .list xs, w => do some (.list (repeated xs (<- w.integer?)))
  | .tuple xs, w => do some (.tuple (repeated xs (<- w.integer?)))
  | v, .str s => do some (.str (String.ofList (repeated s.toList (<- v.integer?))))
  | v, .list xs => do some (.list (repeated xs (<- v.integer?)))
  | v, .tuple xs => do some (.tuple (repeated xs (<- v.integer?)))
  | v, w => onNumbers Number.mul v w

/-- A bitwise operation; on two truth values it gives a truth value. -/
def bitwise (op : Bitwise) : Value -> Value -> Option Value
  | .bool a, .bool b => some (.bool (op.applyBool a b))
  | v, w => do
      let a <- v.integer?
      let b <- w.integer?
      some (.int (op.apply a b))

/-- A shift of an integer by a number of places that is not negative. -/
def shift (f : Int -> Nat -> Int) (v w : Value) : Option Value := do
  let a <- v.integer?
  let b <- w.integer?
  if b < 0 then Option.none else some (.int (f a b.toNat))

/-- Apply a binary operator. -/
def binary : Binary -> Value -> Value -> Option Value
  | .add => add
  | .sub => onNumbers Number.sub
  | .mul => mul
  | .div => onNumbers Number.div
  | .floorDiv => onNumbers Number.floorDiv
  | .floorMod => onNumbers Number.floorMod
  | .pow => onNumbers Number.pow
  | .bitAnd => bitwise .conj
  | .bitOr => bitwise .disj
  | .bitXor => bitwise .parity
  | .shiftLeft => shift fun a k => a * Int.pow 2 k
  | .shiftRight => shift fun a k => a.fdiv (Int.pow 2 k)

/-- Apply a unary operator. -/
def unary : Unary -> Value -> Option Value
  | .neg, v => v.number?.map fun a => ofNumber a.neg
  | .pos, v => v.number?.map ofNumber
  | .invert, v => v.integer?.map fun n => .int (-n - 1)

/-- Whether two values are one and the same object. Truth values, texts, functions and the
absent value exist once; so do small integers. -/
def same : Value -> Value -> Bool
  | .none, .none => true
  | .bool a, .bool b => a == b
  | .int a, .int b => a == b
  | .real x, .real y => x == y
  | .str s, .str t => s == t
  | .tuple [], .tuple [] => true
  | .builtin f, .builtin g => f == g
  | .formula, .formula => true
  | .drained, .drained => true
  | _, _ => false

/-- Apply a comparison. -/
def compared : Comparison -> Value -> Value -> Option Bool
  | .eq, v, w => some (equal v w)
  | .ne, v, w => some (!equal v w)
  | .less, v, w => related? .less v w
  | .lessEq, v, w => related? .lessEq v w
  | .greater, v, w => related? .greater v w
  | .greaterEq, v, w => related? .greaterEq v w
  | .isSame, v, w => some (same v w)
  | .isNotSame, v, w => some (!same v w)
  | .member, v, w => memberOf? v w
  | .notMember, v, w => (memberOf? v w).map (!·)

end Value

end QuantFamily.Expr
