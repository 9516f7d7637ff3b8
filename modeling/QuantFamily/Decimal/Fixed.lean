import QuantFamily.Decimal.Shortest

/-!
# Decimals of a fixed size

Doubles rounded to a number of places behind the point, or to a number of significant
digits. The exact binary value is rounded to the nearest decimal, and a tie goes to the
even one.
-/

namespace QuantFamily.Decimal

/-- A positive quotient in units of the given place behind the point. -/
def unitsAt (places : Nat) (num den : Nat) : Nat :=
  roundDiv (num * Nat.pow 10 places) den

/-- The nearest double with the given number of places behind the point. -/
def roundPlaces (places : Nat) (x : Float) : Float :=
  match parts x with
  | .finite negative mantissa exponent =>
      let (num, den) := scaled 2 mantissa exponent
      (ofQuotient? negative (unitsAt places num den) (Nat.pow 10 places)).getD x
  | _ => x

/-- The nearest double with the given number of significant digits. A zero loses its
sign. -/
def roundSignificant (digits : Nat) (x : Float) : Float :=
  match parts x with
  | .finite negative mantissa exponent =>
      if mantissa = 0 then 0.0
      else
        let (num, den) := scaled 2 mantissa exponent
        let rounded :=
          match pointPlace num den - Int.ofNat digits with
          | .ofNat e => ofQuotient? negative (roundDiv num (den * Nat.pow 10 e) * Nat.pow 10 e) 1
          | .negSucc e => ofQuotient? negative (unitsAt (e + 1) num den) (Nat.pow 10 (e + 1))
        rounded.getD x
  | _ => x

/-- Digits with a point before the last places. -/
def pointed (places : Nat) (units : Nat) : List Char :=
  let digits := (toString units).toList
  let digits := List.replicate (places + 1 - digits.length) '0' ++ digits
  match places with
  | 0 => digits
  | places => digits.take (digits.length - places) ++ '.' :: digits.drop (digits.length - places)

/-- A double with the given number of places behind the point. -/
def fixed (places : Nat) (x : Float) : String :=
  match parts x with
  | .undefined => "nan"
  | .infinite negative => if negative then "-inf" else "inf"
  | .finite negative mantissa exponent =>
      let (num, den) := scaled 2 mantissa exponent
      let body := pointed places (unitsAt places num den)
      String.ofList (if negative then '-' :: body else body)

end QuantFamily.Decimal
