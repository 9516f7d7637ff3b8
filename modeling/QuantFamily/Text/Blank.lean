/-!
# White space

The characters that count as white space in every text this library reads, and the
two operations that depend on them: trimming a text and cutting it into words.
-/

namespace QuantFamily.Text

/-- The closed ranges of code points that are white space: the control characters
that separate lines and fields, and the space and line separators of the character
set. -/
def blankRanges : List (Nat × Nat) :=
  [(0x09, 0x0d), (0x1c, 0x20), (0x85, 0x85), (0xa0, 0xa0), (0x1680, 0x1680),
   (0x2000, 0x200a), (0x2028, 0x2029), (0x202f, 0x202f), (0x205f, 0x205f),
   (0x3000, 0x3000)]

/-- Whether a code point lies in one of the given closed ranges. -/
def inRanges (ranges : List (Nat × Nat)) (code : Nat) : Bool :=
  ranges.any fun range => decide (range.1 ≤ code) && decide (code ≤ range.2)

/-- Whether a character is white space. -/
def isBlank (c : Char) : Bool :=
  inRanges blankRanges c.toNat

/-- A text without the white space at its two ends. -/
def trim (text : List Char) : List Char :=
  ((text.dropWhile isBlank).reverse.dropWhile isBlank).reverse

/-- The pieces of a text between characters of a class, empty pieces included. -/
def splitAt (cut : Char -> Bool) : List Char -> List (List Char)
  | [] => [[]]
  | c :: rest =>
      match cut c, splitAt cut rest with
      | true, pieces => [] :: pieces
      | false, [] => [[c]]
      | false, piece :: pieces => (c :: piece) :: pieces

/-- The maximal runs of characters that are not white space. -/
def words (text : List Char) : List (List Char) :=
  (splitAt isBlank text).filter (fun piece => !piece.isEmpty)

/-- Whether a text begins with another one. -/
def startsWith (start text : List Char) : Bool :=
  start.isPrefixOf text

/-- The text after a given start, if it begins with it. -/
def dropStart? : List Char -> List Char -> Option (List Char)
  | [], text => some text
  | _ :: _, [] => none
  | s :: start, c :: text => if s = c then dropStart? start text else none

/-- Whether a text occurs inside another one. -/
def occursIn (part : List Char) : List Char -> Bool
  | [] => part.isEmpty
  | c :: rest => startsWith part (c :: rest) || occursIn part rest

end QuantFamily.Text
