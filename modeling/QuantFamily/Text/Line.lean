import QuantFamily.Text.Blank

/-!
# Lines

Line breaks come in three spellings. A text that is read from a file has one spelling
only, and then falls into lines.
-/

namespace QuantFamily.Text

/-- A text with every line break spelled as a line feed. -/
def unifyBreaks : List Char -> List Char
  | '\r' :: '\n' :: rest => '\n' :: unifyBreaks rest
  | '\r' :: rest => '\n' :: unifyBreaks rest
  | c :: rest => c :: unifyBreaks rest
  | [] => []

/-- The lines of a text without their line feeds. A line feed at the end starts no further
line. -/
def lines : List Char -> List (List Char)
  | [] => []
  | '\n' :: rest => [] :: lines rest
  | c :: rest =>
      match lines rest with
      | line :: others => (c :: line) :: others
      | [] => [[c]]

/-- The lines of a text with their numbers, from one. -/
def numberedLines (text : List Char) : List (Nat × List Char) :=
  (lines text).zipIdx.map fun line => (line.2 + 1, line.1)

end QuantFamily.Text
