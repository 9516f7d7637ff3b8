import QuantFamily.Decimal.Binary

/-!
# Shortest decimals

The text of a double is the decimal with the fewest digits that reads back as that
double, and of those the nearest one. It is written positionally when the decimal point
falls near the digits, and with a power of ten otherwise.
-/

namespace QuantFamily.Decimal

/-- The number of decimal digits before the point of a quotient, zero or negative below
one: the least exponent of a power of ten above the quotient. -/
def pointPlace (num den : Nat) : Int :=
  if den ≤ num then Int.ofNat (toString (num / den)).length
  else
    let gap := (toString (den / num)).length
    if den ≤ num * Nat.pow 10 (gap - 1) then 2 - Int.ofNat gap else 1 - Int.ofNat gap

/-- The two neighbours of a quotient on the grid of decimals with the given number of
digits, the nearer one first, with the power of ten of the grid. -/
def neighbours (num den : Nat) (digits : Nat) : List Nat × Int :=
  let exponent := pointPlace num den - Int.ofNat digits
  let (n, d) :=
    match exponent with
    | .ofNat e => (num, den * Nat.pow 10 e)
    | .negSucc e => (num * Nat.pow 10 (e + 1), den)
  let low := n / d
  if 2 * (n % d) ≤ d then ([low, low + 1], exponent) else ([low + 1, low], exponent)

/-- The first decimal with at least `digits` digits, trying `fuel` digit counts, that
reads back as the double with the given bits. -/
def searchShortest (bits num den : Nat) : Nat -> Nat -> Nat × Int
  | 0, digits =>
      let (candidates, exponent) := neighbours num den digits
      (candidates.headD 0, exponent)
  | fuel + 1, digits =>
      let (candidates, exponent) := neighbours num den digits
      let readsBack := fun (candidate : Nat) =>
        let (n, d) := scaled 10 candidate exponent
        nearestBits? n d == some bits
      match candidates.find? readsBack with
      | some candidate => (candidate, exponent)
      | none => searchShortest bits num den fuel (digits + 1)

/-- The shortest decimal of a positive double given by its bits and its value: a whole
number and a power of ten. -/
def shortest (bits num den : Nat) : Nat × Int :=
  searchShortest bits num den 17 1

/-- How a number with given digits and point place is laid out. -/
structure Layout where
  /-- Positional notation is used for point places above this one. -/
  above : Int
  /-- Positional notation is used up to this point place. -/
  upTo : Int

/-- Doubles are written positionally from a ten-thousandth up to sixteen digits. -/
def Layout.plain : Layout := ⟨-4, 16⟩

/-- The digits of a whole number without the zeros at its end. -/
def significantDigits (n : Nat) : List Char :=
  let digits := ((toString n).toList.reverse.dropWhile (· == '0')).reverse
  if digits.isEmpty then ['0'] else digits

/-- Lay out digits whose decimal point stands after the given number of places. -/
def Layout.render (layout : Layout) (digits : List Char) (place : Int) : List Char :=
  if layout.above < place ∧ place ≤ layout.upTo then
    match place with
    | .ofNat p =>
        if p = 0 then '0' :: '.' :: digits
        else if digits.length ≤ p then
          digits ++ List.replicate (p - digits.length) '0' ++ ['.', '0']
        else digits.take p ++ '.' :: digits.drop p
    | .negSucc p => '0' :: '.' :: List.replicate (p + 1) '0' ++ digits
  else
    let exponent := place - 1
    let sign := if exponent < 0 then '-' else '+'
    let power := (toString exponent.natAbs).toList
    let power := if power.length < 2 then '0' :: power else power
    match digits with
    | [] => []
    | [d] => d :: 'e' :: sign :: power
    | d :: rest => d :: '.' :: rest ++ 'e' :: sign :: power

/-- The text of a double. -/
def text (x : Float) : String :=
  match parts x with
  | .undefined => "nan"
  | .infinite negative => if negative then "-inf" else "inf"
  | .finite negative mantissa exponent =>
      let body :=
        if mantissa = 0 then ['0', '.', '0']
        else
          let (num, den) := scaled 2 mantissa exponent
          let (digits, power) := shortest (x.toBits.toNat % Nat.pow 2 63) num den
          let place := Int.ofNat (toString digits).length + power
          Layout.plain.render (significantDigits digits) place
      String.ofList (if negative then '-' :: body else body)

end QuantFamily.Decimal
