import QuantFamily.Text.Blank

/-!
# Numerals

Reading and writing integers in decimal. A numeral may carry white space at its ends,
one sign, and single underscores between digits.
-/

namespace QuantFamily.Text

/-- The first code points of the runs of ten decimal digits, zero to nine, in every
script that has its own digits. -/
def digitZeros : List Nat :=
  [0x0030, 0x0660, 0x06f0, 0x07c0, 0x0966, 0x09e6, 0x0a66, 0x0ae6, 0x0b66, 0x0be6,
   0x0c66, 0x0ce6, 0x0d66, 0x0de6, 0x0e50, 0x0ed0, 0x0f20, 0x1040, 0x1090, 0x17e0,
   0x1810, 0x1946, 0x19d0, 0x1a80, 0x1a90, 0x1b50, 0x1bb0, 0x1c40, 0x1c50, 0xa620,
   0xa8d0, 0xa900, 0xa9d0, 0xa9f0, 0xaa50, 0xabf0, 0xff10, 0x104a0, 0x10d30, 0x11066,
   0x110f0, 0x11136, 0x111d0, 0x112f0, 0x11450, 0x114d0, 0x11650, 0x116c0, 0x11730,
   0x118e0, 0x11950, 0x11c50, 0x11d50, 0x11da0, 0x16a60, 0x16ac0, 0x16b50, 0x1d7ce,
   0x1d7d8, 0x1d7e2, 0x1d7ec, 0x1d7f6, 0x1e140, 0x1e2f0, 0x1e950, 0x1fbf0]

/-- The value of a decimal digit of any script. -/
def digitValue? (c : Char) : Option Nat :=
  (digitZeros.find? fun start => decide (start ≤ c.toNat) && decide (c.toNat < start + 10)).map
    (c.toNat - ·)

/-- The value of a letter or digit in bases up to thirty-six. -/
def alphanumValue? (c : Char) : Option Nat :=
  if 'a' ≤ c ∧ c ≤ 'z' then some (c.toNat - 'a'.toNat + 10)
  else if 'A' ≤ c ∧ c ≤ 'Z' then some (c.toNat - 'A'.toNat + 10)
  else digitValue? c

/-- Read digits of a base with single underscores between them. The flag says whether
the previous character was a digit. -/
def readDigits (base : Nat) : List Char -> Bool -> Nat -> Option Nat
  | [], afterDigit, acc => if afterDigit then some acc else none
  | '_' :: rest, afterDigit, acc => if afterDigit then readDigits base rest false acc else none
  | c :: rest, _, acc =>
      match alphanumValue? c with
      | some d => if d < base then readDigits base rest true (acc * base + d) else none
      | none => none

/-- Read an optional sign and the digits after it. -/
def readSigned (base : Nat) : List Char -> Option Int
  | '-' :: rest => (readDigits base rest false 0).map fun n => - Int.ofNat n
  | '+' :: rest => (readDigits base rest false 0).map Int.ofNat
  | text => (readDigits base text false 0).map Int.ofNat

/-- Read a decimal numeral. -/
def readInt? (text : List Char) : Option Int :=
  readSigned 10 (trim text)

/-- The number of digits up to which numbers in decimal are converted in expressions. -/
def maxDigits : Nat := 4300

/-- Whether a number has no more digits than are converted. -/
def isConvertible (n : Int) : Bool :=
  decide (n.natAbs < Nat.pow 10 maxDigits)

/-- The number of letters and digits of a numeral. -/
def digitCount (text : List Char) : Nat :=
  text.countP fun c => (alphanumValue? c).isSome

/-- An integer in decimal. -/
def showInt : Int -> String
  | .ofNat n => Nat.repr n
  | .negSucc n => "-" ++ Nat.repr (n + 1)

/-- Integers in decimal with a separator between them. -/
def showInts (separator : String) (ns : List Int) : String :=
  separator.intercalate (ns.map showInt)

end QuantFamily.Text
