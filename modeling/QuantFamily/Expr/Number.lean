import QuantFamily.Decimal.Binary

/-!
# Numbers of expressions

An expression computes with integers of any size and with doubles. Mixed operations
convert the integer to the nearest double and fail when it is out of range; mixed
comparisons are exact. Division and remainder round towards the floor.
-/

namespace QuantFamily.Expr

/-- An integer or a double. -/
inductive Number where
  | int (n : Int)
  | real (x : Float)

/-- The bitwise operations on integers, read as infinite two's complement. -/
inductive Bitwise where
  | conj
  | disj
  | parity

/-- The bits of the first number that are not bits of the second. -/
def bitsWithout (m n : Nat) : Nat := m ^^^ (m &&& n)

/-- A bitwise operation on two integers. -/
def Bitwise.apply : Bitwise -> Int -> Int -> Int
  | .conj, .ofNat m, .ofNat n => .ofNat (m &&& n)
  | .conj, .ofNat m, .negSucc n => .ofNat (bitsWithout m n)
  | .conj, .negSucc m, .ofNat n => .ofNat (bitsWithout n m)
  | .conj, .negSucc m, .negSucc n => .negSucc (m ||| n)
  | .disj, .ofNat m, .ofNat n => .ofNat (m ||| n)
  | .disj, .ofNat m, .negSucc n => .negSucc (bitsWithout n m)
  | .disj, .negSucc m, .ofNat n => .negSucc (bitsWithout m n)
  | .disj, .negSucc m, .negSucc n => .negSucc (m &&& n)
  | .parity, .ofNat m, .ofNat n => .ofNat (m ^^^ n)
  | .parity, .ofNat m, .negSucc n => .negSucc (m ^^^ n)
  | .parity, .negSucc m, .ofNat n => .negSucc (m ^^^ n)
  | .parity, .negSucc m, .negSucc n => .ofNat (m ^^^ n)

/-- A bitwise operation on two truth values. -/
def Bitwise.applyBool : Bitwise -> Bool -> Bool -> Bool
  | .conj, a, b => a && b
  | .disj, a, b => a || b
  | .parity, a, b => a != b

/-- Whether a double is negative or the negative zero. -/
def signBit (x : Float) : Bool :=
  decide (Nat.pow 2 63 ≤ x.toBits.toNat)

/-- A zero with the given sign. -/
def signedZero (negative : Bool) : Float :=
  if negative then -0.0 else 0.0

/-- The remainder of a division that rounds towards zero. -/
def truncatedRem (x y : Float) : Float :=
  match Decimal.parts x, Decimal.parts y with
  | .finite negative m e, .finite _ m' e' =>
      if m' = 0 then 0.0 / 0.0
      else
        let low := min e e'
        let rest := (m * Nat.pow 2 (e - low).toNat) % (m' * Nat.pow 2 (e' - low).toNat)
        let (num, den) := Decimal.scaled 2 rest low
        (Decimal.ofQuotient? negative num den).getD 0.0
  | .finite _ _ _, .infinite _ => x
  | _, _ => 0.0 / 0.0

/-- Division of doubles that rounds towards the floor, with its remainder. The divisor is
not zero. -/
def floorDivMod (x y : Float) : Float × Float :=
  let rest := truncatedRem x y
  let quotient := (x - rest) / y
  let (rest, quotient) :=
    if rest != 0.0 then
      if (y < 0.0) != (rest < 0.0) then (rest + y, quotient - 1.0) else (rest, quotient)
    else (signedZero (signBit y), quotient)
  let floored :=
    if quotient != 0.0 then
      let below := quotient.floor
      if quotient - below > 0.5 then below + 1.0 else below
    else signedZero (signBit (x / y))
  (floored, rest)

namespace Number

/-- A number as a double. -/
def toReal? : Number -> Option Float
  | .int n => Decimal.ofInt? n
  | .real x => some x

/-- Apply an integer operation to integers and a double operation otherwise. -/
def lift (onInt : Int -> Int -> Int) (onReal : Float -> Float -> Float) :
    Number -> Number -> Option Number
  | .int a, .int b => some (.int (onInt a b))
  | a, b => do
      let x <- a.toReal?
      let y <- b.toReal?
      some (.real (onReal x y))

/-- Whether a number is zero. -/
def isZero : Number -> Bool
  | .int n => n == 0
  | .real x => x == 0.0

def add : Number -> Number -> Option Number := lift (· + ·) (· + ·)

def sub : Number -> Number -> Option Number := lift (· - ·) (· - ·)

def mul : Number -> Number -> Option Number := lift (· * ·) (· * ·)

/-- The quotient as a double. Two integers give the double nearest to their exact
quotient. -/
def div (a b : Number) : Option Number :=
  if b.isZero then none
  else
    match a, b with
    | .int m, .int n =>
        (Decimal.ofQuotient? (decide (m < 0) != decide (n < 0)) m.natAbs n.natAbs).map .real
    | a, b => do
        let x <- a.toReal?
        let y <- b.toReal?
        some (.real (x / y))

/-- The quotient rounded towards the floor. -/
def floorDiv (a b : Number) : Option Number :=
  if b.isZero then none else lift Int.fdiv (fun x y => (floorDivMod x y).1) a b

/-- The remainder that has the sign of the divisor. -/
def floorMod (a b : Number) : Option Number :=
  if b.isZero then none else lift Int.fmod (fun x y => (floorDivMod x y).2) a b

/-- Whether a double is a whole number or infinite. -/
def isWhole (x : Float) : Bool :=
  x == x.floor

/-- Powers of doubles. A zero has no negative powers, a negative number has only whole
ones, and finite numbers have no infinite power. -/
def realPow (x y : Float) : Option Float :=
  if x == 0.0 && y < 0.0 then none
  else if x < 0.0 && x.isFinite && y.isFinite && !isWhole y then none
  else
    let power := x.pow y
    if power.isInf && x.isFinite && y.isFinite then none else some power

/-- Powers. A negative power of an integer is a double. -/
def pow : Number -> Number -> Option Number
  | .int a, .int (.ofNat k) => some (.int (a.pow k))
  | a, b => do
      let x <- a.toReal?
      let y <- b.toReal?
      (realPow x y).map .real

def neg : Number -> Number
  | .int n => .int (-n)
  | .real x => .real (-x)

def abs : Number -> Number
  | .int n => .int (Int.ofNat n.natAbs)
  | .real x => .real x.abs

/-- The exact order of two numbers, if both are defined. -/
def order? : Number -> Number -> Option Ordering
  | .int a, .int b => some (compare a b)
  | .real x, .real y =>
      if x < y then some .lt
      else if x == y then some .eq
      else if y < x then some .gt
      else none
  | .int a, .real y => intOrder? a y
  | .real x, .int b => (intOrder? b x).map Ordering.swap
where
  /-- The order of an integer and a double. -/
  intOrder? (n : Int) (x : Float) : Option Ordering :=
    match Decimal.parts x with
    | .undefined => none
    | .infinite negative => some (if negative then .gt else .lt)
    | .finite negative mantissa exponent =>
        let (num, den) := Decimal.scaled 2 mantissa exponent
        let value := if negative then - Int.ofNat num else Int.ofNat num
        some (compare (n * Int.ofNat den) value)

/-- A number without its fraction. -/
def truncate? : Number -> Option Int
  | .int n => some n
  | .real x => (Decimal.quotient? x).map fun q => Int.tdiv q.1 (Int.ofNat q.2)

end Number

end QuantFamily.Expr
