import QuantFamily.Benchmark.Value

/-!
# Values known by their text

Fractions, decimals, paths, dates, spans of time and identifiers count in a fingerprint
with the text that would create them. This module brings them into their normal form.
-/

namespace QuantFamily.Benchmark

/-- A sign at the start of a text, and the rest. -/
def splitSign : List Char -> Bool × List Char
  | '-' :: rest => (true, rest)
  | '+' :: rest => (false, rest)
  | rest => (false, rest)

/-- The number that decimal digits stand for. -/
def digitsValue (digits : List Char) : Nat :=
  digits.foldl (fun acc c => acc * 10 + (c.toNat - '0'.toNat)) 0

/-- A number with a sign. -/
def signed (negative : Bool) (n : Nat) : Int :=
  if negative then - Int.ofNat n else Int.ofNat n

/-- A call with arguments as text. -/
def callText (name : String) (arguments : List String) : String :=
  name ++ "(" ++ ", ".intercalate arguments ++ ")"

namespace Value

/-- A fraction in lowest terms. -/
def fraction (text : String) : Value :=
  let (negative, rest) := splitSign text.toList
  let num := digitsValue (rest.takeWhile Char.isDigit)
  let den := match rest.dropWhile Char.isDigit with
    | '/' :: digits => digitsValue digits
    | _ => 1
  let common := max 1 (num.gcd den)
  .named "Fraction" (callText "Fraction"
    [Text.showInt (signed negative (num / common)), Nat.repr (den / common)])

/-- The digits of a decimal with its power of ten, as text. A power that cannot be
expressed by places behind the point is written out. -/
def decimalText (negative : Bool) (digits : List Char) (power : Int) : String :=
  let place := Int.ofNat digits.length + power
  let body :=
    if power ≤ 0 ∧ -6 < place then
      match place with
      | .ofNat p =>
          let whole := if p = 0 then ['0'] else digits.take p
          if digits.length ≤ p then whole else whole ++ '.' :: digits.drop p
      | .negSucc p => '0' :: '.' :: List.replicate (p + 1) '0' ++ digits
    else
      let fraction := match digits.drop 1 with
        | [] => []
        | rest => '.' :: rest
      let exponent := place - 1
      digits.take 1 ++ fraction ++ 'E' :: (if exponent < 0 then '-' else '+') ::
        (toString exponent.natAbs).toList
  String.ofList (if negative then '-' :: body else body)

/-- A decimal number that keeps the zeros at its end. -/
def decimal (text : String) : Value :=
  let (negative, rest) := splitSign text.toList
  let whole := rest.takeWhile Char.isDigit
  let (places, rest) := match rest.dropWhile Char.isDigit with
    | '.' :: more => (more.takeWhile Char.isDigit, more.dropWhile Char.isDigit)
    | rest => ([], rest)
  let power := match rest with
    | _ :: more => let (down, digits) := splitSign more; signed down (digitsValue digits)
    | [] => 0
  let digits := (whole ++ places).dropWhile (· == '0')
  let digits := if digits.isEmpty then ['0'] else digits
  .named "Decimal" (callText "Decimal"
    ["'" ++ decimalText negative digits (power - Int.ofNat places.length) ++ "'"])

/-- A path without empty parts and without parts that stay where they are. -/
def path (text : String) : Value :=
  let root := match text.toList with
    | '/' :: '/' :: '/' :: _ => "/"
    | '/' :: '/' :: _ => "//"
    | '/' :: _ => "/"
    | _ => ""
  let parts := (text.splitOn "/").filter fun part => part != "" && part != "."
  let joined := root ++ "/".intercalate parts
  .named "PurePosixPath" (callText "PurePosixPath"
    [Text.quote (if joined.isEmpty then "." else joined)])

/-- A day of the calendar. -/
def date (parts : List Int) : Value :=
  .named "date" (callText "datetime.date" (parts.map Text.showInt))

/-- The units of spans of time, in millionths of a second. -/
def spanUnits : List (String × Int) :=
  [("weeks", 604800000000), ("days", 86400000000), ("hours", 3600000000),
   ("minutes", 60000000), ("seconds", 1000000), ("milliseconds", 1000), ("microseconds", 1)]

/-- A span of time as days, seconds and millionths of a second; only the days can be
negative. -/
def span (parts : List (String × Int)) : Value :=
  let micros : Int :=
    parts.foldr (fun (unit, n) rest => n * (spanUnits.lookup unit).getD 0 + rest) 0
  let days := micros.fdiv 86400000000
  let rest := micros.fmod 86400000000
  let fields : List (String × Int) :=
    [("days", days), ("seconds", rest.fdiv 1000000), ("microseconds", rest.fmod 1000000)]
  let shown := (fields.filter fun (_, n) => n ≠ 0).map fun (unit, n) => unit ++ "=" ++ Text.showInt n
  .named "timedelta" (callText "datetime.timedelta" (if shown.isEmpty then ["0"] else shown))

/-- An identifier of thirty-two hexadecimal digits in five groups. -/
def identifier (text : String) : Value :=
  let digits := (text.toList.filter fun c => c.isAlphanum).map Char.toLower
  let part := fun (start size : Nat) => String.ofList ((digits.drop start).take size)
  .named "UUID" (callText "UUID"
    ["'" ++ "-".intercalate [part 0 8, part 8 4, part 12 4, part 16 4, part 20 12] ++ "'"])

/-- A value without any property. -/
def blank : Value :=
  .named "object" "<builtins.object>"

/-- Whole numbers as little-endian bytes of the given width. -/
def littleEndian (width : Nat) (n : Int) : Digest.Bytes :=
  (Digest.bigEndian width (n.emod (Int.pow 256 width)).toNat).reverse

/-- An array of whole numbers. The width of an item is the number at the end of the layout. -/
def wholeArray (shape : List Nat) (layout : String) (items : List Int) : Value :=
  let width := digitsValue (layout.toList.filter Char.isDigit)
  .array shape layout (.bytes (items.flatMap (littleEndian width)))

end Value

end QuantFamily.Benchmark
