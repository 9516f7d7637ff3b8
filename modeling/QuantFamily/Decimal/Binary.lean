/-!
# Doubles as exact numbers

A finite double is a whole number times a power of two. This module takes doubles apart,
rounds exact quotients to the nearest double, and rounds exact quotients to whole numbers.
Every rounding goes to the nearest value, and a tie goes to the even one.
-/

namespace QuantFamily.Decimal

/-- A double taken apart: a sign with a whole number and a power of two, or one of the
values that are not finite. -/
inductive Parts where
  | finite (negative : Bool) (mantissa : Nat) (exponent : Int)
  | infinite (negative : Bool)
  | undefined

/-- The parts of a double. -/
def parts (x : Float) : Parts :=
  let bits := x.toBits.toNat
  let negative := decide (Nat.pow 2 63 ≤ bits)
  let biased := bits / Nat.pow 2 52 % 2048
  let fraction := bits % Nat.pow 2 52
  if biased = 2047 then
    if fraction = 0 then .infinite negative else .undefined
  else if biased = 0 then .finite negative fraction (-1074)
  else .finite negative (fraction + Nat.pow 2 52) (Int.ofNat biased - 1075)

/-- The quotient rounded to the nearest whole number, a half going to the even one. -/
def roundDiv (num den : Nat) : Nat :=
  let quotient := num / den
  let twice := 2 * (num % den)
  if twice < den then quotient
  else if den < twice then quotient + 1
  else if quotient % 2 = 0 then quotient else quotient + 1

/-- A numerator and a denominator for a whole number times a power of a base. -/
def scaled (base : Nat) (value : Nat) : Int -> Nat × Nat
  | .ofNat e => (value * base.pow e, 1)
  | .negSucc e => (value, base.pow (e + 1))

/-- A quotient divided by a power of two. -/
def shiftQuotient (num den : Nat) : Int -> Nat × Nat
  | .ofNat e => (num, den * Nat.pow 2 e)
  | .negSucc e => (num * Nat.pow 2 (e + 1), den)

/-- The least power of two for which the quotient has fifty-three binary digits before
the point, but never below the least power of a double. -/
def binade (num den : Nat) : Int :=
  let guess : Int := Int.ofNat num.log2 - Int.ofNat den.log2 - 52
  let (n, d) := shiftQuotient num den guess
  let exponent := if n < d * Nat.pow 2 52 then guess - 1 else guess
  max exponent (-1074)

/-- The bits of the positive double nearest to a quotient, if it is in range. -/
def nearestBits? (num den : Nat) : Option Nat :=
  if num = 0 then some 0
  else
    let exponent := binade num den
    let (n, d) := shiftQuotient num den exponent
    let rounded := roundDiv n d
    let (mantissa, exponent) :=
      if rounded = Nat.pow 2 53 then (Nat.pow 2 52, exponent + 1) else (rounded, exponent)
    if 971 < exponent then none
    else if mantissa < Nat.pow 2 52 then some mantissa
    else some ((exponent + 1075).toNat * Nat.pow 2 52 + (mantissa - Nat.pow 2 52))

/-- The double nearest to a signed quotient, if it is in range. -/
def ofQuotient? (negative : Bool) (num den : Nat) : Option Float :=
  (nearestBits? num den).map fun bits =>
    Float.ofBits (UInt64.ofNat (if negative then bits + Nat.pow 2 63 else bits))

/-- The double nearest to an integer, if it is in range. -/
def ofInt? (n : Int) : Option Float :=
  ofQuotient? (decide (n < 0)) n.natAbs 1

/-- The double nearest to a whole number times a power of ten, or an infinite one. -/
def ofDecimal (digits : Nat) (exponent : Int) : Float :=
  let (num, den) := scaled 10 digits exponent
  match ofQuotient? false num den with
  | some x => x
  | none => Float.ofBits 0x7ff0000000000000

/-- The exact value of a finite double as a signed numerator and a denominator. -/
def quotient? (x : Float) : Option (Int × Nat) :=
  match parts x with
  | .finite negative mantissa exponent =>
      let (num, den) := scaled 2 mantissa exponent
      some (if negative then - Int.ofNat num else Int.ofNat num, den)
  | _ => none

end QuantFamily.Decimal
