import QuantFamily.Text.Printable

/-!
# Quoted text

A text between quotes, as it is shown inside lists, tuples and tables. Single quotes are
used unless the text has a single quote and no double quote. The chosen quote, the
backslash, line breaks and tabs are escaped by name, other unprintable characters by
their code point.
-/

namespace QuantFamily.Text

/-- A number in lower-case hexadecimal with at least the given number of digits. -/
def hex (width : Nat) (n : Nat) : List Char :=
  let digits := Nat.toDigits 16 n
  List.replicate (width - digits.length) '0' ++ digits

/-- The escape of an unprintable character: two, four or eight hexadecimal digits. -/
def escapeCode (c : Char) : List Char :=
  if c.toNat < 0x100 then '\\' :: 'x' :: hex 2 c.toNat
  else if c.toNat < 0x10000 then '\\' :: 'u' :: hex 4 c.toNat
  else '\\' :: 'U' :: hex 8 c.toNat

/-- How a character is shown between the given quotes. -/
def quoteChar (quote : Char) (c : Char) : List Char :=
  if c = quote ∨ c = '\\' then ['\\', c]
  else if c = '\n' then ['\\', 'n']
  else if c = '\r' then ['\\', 'r']
  else if c = '\t' then ['\\', 't']
  else if isPrintable c then [c]
  else escapeCode c

/-- The quote that a text is written with. -/
def quoteFor (text : List Char) : Char :=
  if text.contains '\'' && !text.contains '"' then '"' else '\''

/-- A text between quotes. -/
def quote (text : String) : String :=
  let chars := text.toList
  let mark := quoteFor chars
  String.ofList (mark :: chars.flatMap (quoteChar mark) ++ [mark])

end QuantFamily.Text
