import QuantFamily.Edition
import QuantFamily.Text.Blank

/-!
# Terminals of the definition language

What can be read at a place of a text. At every place only some terminals are acceptable;
they are tried in a fixed order and the first one that matches is taken, with as many
characters as it allows. Blanks, line breaks and comments are skipped in front of a
terminal.
-/

namespace QuantFamily.Language

/-- A class of texts that can be read at once. -/
inductive Terminal where
  | name
  | blockName
  | index
  | number
  | familyName
  /-- The text of an expression between backquotes. -/
  | code
  | format
  | operator
  | kind
  | quantifier
  | negation
  | word (text : String)
  /-- The end of the text. -/
  | finish
deriving DecidableEq

/-- The code points of pictographs and letters that may begin a name in the full edition,
beside basic Latin letters. -/
def emblemRanges : List (Nat × Nat) :=
  [(0x0370, 0x03ff), (0x24c2, 0x1f251), (0x1f300, 0x1f5ff), (0x1f600, 0x1f64f),
   (0x1f680, 0x1f8ff), (0x1f900, 0x1faff)]

/-- Whether a character can begin a name of either kind. -/
def isEmblem (edition : Edition) (c : Char) : Bool :=
  edition.isExtended && Text.inRanges emblemRanges c.toNat

/-- Whether a character can continue a name. -/
def continuesName (edition : Edition) (c : Char) : Bool :=
  if edition.isExtended then
    !(Text.isBlank c || (",:;()".toList.contains c) || c.toNat == 0x7b || c.toNat == 0x7d)
  else c.isAlphanum || c == '_' || c == '?'

/-- The words that no name of a variable or parameter begins with. -/
def groupingWords : String := "all blocks in"

/-- A first character of a class and the characters that continue the name. -/
def nameFrom (edition : Edition) (begins : Char -> Bool) : List Char -> Option (List Char)
  | [] => none
  | c :: rest => if begins c then some (c :: rest.takeWhile (continuesName edition)) else none

/-- The longest run of characters of a class, unless it is empty. -/
def runOf (among : Char -> Bool) (text : List Char) : Option (List Char) :=
  match text.takeWhile among with
  | [] => none
  | run => some run

/-- The first of some words that a text begins with. -/
def firstWord (choices : List String) (text : List Char) : Option (List Char) :=
  (choices.map String.toList).find? fun word => Text.startsWith word text

/-- The words that may stand for a terminal with a fixed choice of words, in the order in
which they are tried. -/
def Terminal.choices (edition : Edition) : Terminal -> List String
  | .format => ["circuit-nonprenex", "circuit-prenex", "CNF"]
  | .kind => ["float", "other", "list", "bool", "int", "str"]
  | .operator =>
      if edition.isExtended then
        ["if-then-else", "AND", "XOR", "<=>", "ITE", "OR", "=>", "⊕", "∨", "∧", "→", "↔", "⇔",
         "⇒", "⤙"]
      else ["AND", "XOR", "OR"]
  | .quantifier => if edition.isExtended then ["E", "A", "∃", "∀"] else ["E", "A"]
  | .negation => if edition.isExtended then ["-", "¬"] else ["-"]
  | .word text => [text]
  | _ => []

/-- The characters that a terminal takes from the start of a text. -/
def Terminal.lexeme? (edition : Edition) (terminal : Terminal) (text : List Char) :
    Option (List Char) :=
  match terminal with
  | .name =>
      if Text.startsWith groupingWords.toList text then none
      else nameFrom edition (fun c => c.isLower || isEmblem edition c) text
  | .blockName => nameFrom edition (fun c => c.isUpper || isEmblem edition c) text
  | .index =>
      match nameFrom edition Char.isLower text with
      | some lexeme => some lexeme
      | none => runOf Char.isDigit text
  | .number => runOf Char.isDigit text
  | .familyName => runOf (· ≠ ';') text
  | .code => runOf (·.toNat ≠ 0x60) text
  | .finish => if text.isEmpty then some [] else none
  | terminal => firstWord (terminal.choices edition) text

/-- The length of a comment behind its opening mark. A star takes the character after it
along, unless that closes the comment. -/
def commentLength : List Char -> Option Nat
  | [] => none
  | ['*'] => none
  | '*' :: '/' :: _ => some 2
  | '*' :: _ :: rest => (commentLength rest).map (· + 2)
  | _ :: rest => (commentLength rest).map (· + 1)

/-- The length of a blank, a line break or a comment at the start of a text. -/
def ignoredLength : List Char -> Option Nat
  | ' ' :: _ => some 1
  | '\t' :: _ => some 1
  | '\n' :: _ => some 1
  | '\r' :: '\n' :: _ => some 2
  | '/' :: '*' :: rest => (commentLength rest).map (· + 2)
  | _ => none

/-- A place in a text: what follows, and the line and column of its first character, both
counted from one. -/
structure Cursor where
  rest : List Char
  line : Nat := 1
  column : Nat := 1

namespace Cursor

/-- Step over one character. -/
def step (cursor : Cursor) : Cursor :=
  match cursor.rest with
  | [] => cursor
  | '\n' :: rest => { rest := rest, line := cursor.line + 1, column := 1 }
  | _ :: rest => { cursor with rest := rest, column := cursor.column + 1 }

/-- Step over some characters. -/
def skip : Nat -> Cursor -> Cursor
  | 0, cursor => cursor
  | n + 1, cursor => skip n cursor.step

/-- Step over everything that is ignored. -/
def skipIgnored : Nat -> Cursor -> Cursor
  | 0, cursor => cursor
  | fuel + 1, cursor =>
      match ignoredLength cursor.rest with
      | some length => skipIgnored fuel (cursor.skip length)
      | none => cursor

/-- The place of the next terminal. -/
def settle (cursor : Cursor) : Cursor :=
  cursor.skipIgnored (cursor.rest.length)

/-- The line and column of a place. -/
def position (cursor : Cursor) : Nat × Nat :=
  (cursor.line, cursor.column)

end Cursor

end QuantFamily.Language
