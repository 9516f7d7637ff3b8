import QuantFamily.Decimal.Binary
import QuantFamily.Text.Identifier
import QuantFamily.Text.Line
import QuantFamily.Text.Numeral

/-!
# Tokens of expressions

Cutting the text of an expression, or of an assignment, into tokens. Inside brackets line
breaks are white space; outside they end a line, and a line other than the first may not
be indented. A text that has no tokens in this sense yields nothing.
-/

namespace QuantFamily.Expr

/-- A token of an expression. -/
inductive Token where
  | name (s : String)
  | word (s : String)
  | int (n : Nat)
  | real (x : Float)
  | str (s : String)
  | op (s : String)
  | newline

namespace Token

/-- The words that are not names. -/
def reserved : List String :=
  ["False", "None", "True", "and", "as", "assert", "async", "await", "break", "class",
   "continue", "def", "del", "elif", "else", "except", "finally", "for", "from", "global",
   "if", "import", "in", "is", "lambda", "nonlocal", "not", "or", "pass", "raise", "return",
   "try", "while", "with", "yield"]

/-- The name of the constant that cannot be assigned. -/
def constant : String := "__debug__"

/-- The operators and brackets, each before its own beginnings. -/
def operators : List String :=
  ["**=", ">>=", "<<=", "//=", "...", "**", "//", ">>", "<<", "<=", ">=", "==", "!=", "->",
   "+=", "-=", "*=", "/=", "%=", "&=", "|=", "^=", "@=", ":=", "+", "-", "*", "/", "%", "&",
   "|", "^", "~", "<", ">", "(", ")", "[", "]", "\x7b", "\x7d", ":", ",", ";", ".", "=", "@"]

/-- The deepest nesting of brackets. -/
def maxDepth : Nat := 200

/-- Whether a character may stand in a word before the word is checked. -/
def isWordChar (c : Char) : Bool :=
  c.isAlphanum || c == '_' || decide (0x80 ≤ c.toNat)

/-- The words that may follow a number without a space. -/
def wordsAfterNumber : List (List Char) :=
  ["and", "else", "for", "if", "in", "is", "or", "not"].map String.toList

/-- Whether a number may end before the given text. -/
def numberEnds : List Char -> Bool
  | [] => true
  | c :: rest => !isWordChar c || wordsAfterNumber.any (Text.startsWith · (c :: rest))

/-- Digits of a class with single underscores between them: the digits without the
underscores, and the text after them. -/
def digitRun (isDigit : Char -> Bool) : List Char -> List Char × List Char
  | c :: '_' :: d :: rest =>
      if isDigit c then
        if isDigit d then
          let (digits, after) := digitRun isDigit (d :: rest)
          (c :: digits, after)
        else ([c], '_' :: d :: rest)
      else ([], c :: '_' :: d :: rest)
  | c :: rest =>
      if isDigit c then
        let (digits, after) := digitRun isDigit rest
        (c :: digits, after)
      else ([], c :: rest)
  | [] => ([], [])

/-- The number that digits denote in a base. -/
def valueOf (base : Nat) (digits : List Char) : Nat :=
  digits.foldl (fun acc c => acc * base + (Text.alphanumValue? c).getD 0) 0

/-- Whether a character is a digit of a base. -/
def isDigitOf (base : Nat) (c : Char) : Bool :=
  decide (c.toNat < 0x80) &&
    match Text.alphanumValue? c with
    | some d => decide (d < base)
    | none => false

/-- A number with a base mark in front, after the mark. -/
def markedInt (base : Nat) (text : List Char) : Option (Token × List Char) :=
  let text := match text with
    | '_' :: rest => rest
    | text => text
  match digitRun (isDigitOf base) text with
  | ([], _) => none
  | (digits, rest) => if numberEnds rest then some (.int (valueOf base digits), rest) else none

/-- A point and the digits behind it, if there is a point: whether there is one, the digits,
and the text after them. -/
def fractionPart : List Char -> Bool × List Char × List Char
  | '.' :: after =>
      let (fraction, rest) := digitRun Char.isDigit after
      (true, fraction, rest)
  | rest => (false, [], rest)

/-- A power of ten behind a number, if there is one. -/
def exponentPart : List Char -> Option (Int × List Char)
  | c :: rest =>
      if c = 'e' ∨ c = 'E' then
        let (negative, digits) := match rest with
          | '-' :: digits => (true, digits)
          | '+' :: digits => (false, digits)
          | digits => (false, digits)
        match digitRun Char.isDigit digits with
        | ([], _) => none
        | (digits, rest) =>
            let n := Int.ofNat (valueOf 10 digits)
            some (if negative then -n else n, rest)
      else none
  | [] => none

/-- The double of decimal digits and a power of ten. Powers far out of range give zero or
an infinite double at once. -/
def realOf (digits : List Char) (exponent : Int) : Float :=
  let value := valueOf 10 digits
  let place := Int.ofNat (toString value).length + exponent
  if value = 0 ∨ place < -400 then 0.0
  else if 400 < place then Decimal.ofDecimal 1 400
  else Decimal.ofDecimal value exponent

/-- A number that starts with a decimal digit or a point. -/
def decimalNumber (text : List Char) : Option (Token × List Char) :=
  let (whole, rest) := digitRun Char.isDigit text
  let (point, fraction, rest) := fractionPart rest
  match exponentPart rest with
  | some (exponent, rest) =>
      if numberEnds rest then
        some (.real (realOf (whole ++ fraction) (exponent - Int.ofNat fraction.length)), rest)
      else none
  | none =>
      if !numberEnds rest then none
      else if point then
        some (.real (realOf (whole ++ fraction) (- Int.ofNat fraction.length)), rest)
      else if whole.head? = some '0' ∧ !whole.all (· == '0') then none
      else if Text.maxDigits < whole.length then none
      else some (.int (valueOf 10 whole), rest)

/-- A number. -/
def number : List Char -> Option (Token × List Char)
  | '0' :: c :: rest =>
      if c = 'x' ∨ c = 'X' then markedInt 16 rest
      else if c = 'o' ∨ c = 'O' then markedInt 8 rest
      else if c = 'b' ∨ c = 'B' then markedInt 2 rest
      else decimalNumber ('0' :: c :: rest)
  | text => decimalNumber text

/-- A character given by a fixed number of hexadecimal digits. -/
def hexEscape (width : Nat) (text : List Char) : Option (Char × List Char) :=
  let digits := text.take width
  if digits.length = width ∧ digits.all (isDigitOf 16) then
    let code := valueOf 16 digits
    if code.isValidChar then some (Char.ofNat code, text.drop width) else none
  else none

/-- A character given by up to three octal digits. -/
def octalEscape (text : List Char) : Char × List Char :=
  let digits := (text.take 3).takeWhile (isDigitOf 8)
  (Char.ofNat (valueOf 8 digits), text.drop digits.length)

/-- What a backslash and the text after it stand for. -/
def escape : List Char -> Option (List Char × List Char)
  | [] => none
  | '\n' :: rest => some ([], rest)
  | '\\' :: rest => some (['\\'], rest)
  | '\'' :: rest => some (['\''], rest)
  | '"' :: rest => some (['"'], rest)
  | 'a' :: rest => some ([Char.ofNat 7], rest)
  | 'b' :: rest => some ([Char.ofNat 8], rest)
  | 'f' :: rest => some ([Char.ofNat 12], rest)
  | 'n' :: rest => some (['\n'], rest)
  | 'r' :: rest => some (['\r'], rest)
  | 't' :: rest => some (['\t'], rest)
  | 'v' :: rest => some ([Char.ofNat 11], rest)
  | 'x' :: rest => (hexEscape 2 rest).map fun (c, rest) => ([c], rest)
  | 'u' :: rest => (hexEscape 4 rest).map fun (c, rest) => ([c], rest)
  | 'U' :: rest => (hexEscape 8 rest).map fun (c, rest) => ([c], rest)
  | 'N' :: _ => none
  | c :: rest =>
      if isDigitOf 8 c then
        let (d, rest) := octalEscape (c :: rest)
        some ([d], rest)
      else some (['\\', c], rest)

/-- The text up to a closing quote, and what follows the quote. A raw text keeps its
backslashes; a long text may hold line breaks. -/
def quoted (raw long : Bool) (close : List Char) : Nat -> List Char ->
    Option (List Char × List Char)
  | 0, _ => none
  | fuel + 1, text =>
      match Text.dropStart? close text with
      | some rest => some ([], rest)
      | none =>
          match text with
          | [] => none
          | '\\' :: rest =>
              if raw then
                match rest with
                | [] => none
                | c :: rest => do
                    let (body, rest) <- quoted raw long close fuel rest
                    some ('\\' :: c :: body, rest)
              else do
                let (piece, rest) <- escape rest
                let (body, rest) <- quoted raw long close fuel rest
                some (piece ++ body, rest)
          | c :: rest =>
              if c = '\n' ∧ !long then none
              else do
                let (body, rest) <- quoted raw long close fuel rest
                some (c :: body, rest)

/-- A text literal from its opening quote on. -/
def literal (raw : Bool) (mark : Char) (text : List Char) : Option (Token × List Char) := do
  let long := [mark, mark, mark]
  let (body, rest) <-
    match Text.dropStart? long text with
    | some rest => quoted raw true long (text.length + 1) rest
    | none => quoted raw false [mark] (text.length + 1) (text.drop 1)
  some (.str (String.ofList body), rest)

/-- Whether a character opens a text literal. -/
def isQuote (c : Char) : Bool := c == '\'' || c == '"'

/-- A word: a reserved word, the constant, a name in its plain form, or the mark of a text
literal. -/
def wordToken (text : List Char) : Option (Token × List Char) :=
  let word := text.takeWhile isWordChar
  let rest := text.dropWhile isWordChar
  match rest with
  | c :: _ =>
      if isQuote c then
        if word = ['u'] ∨ word = ['U'] then literal false c rest
        else if word = ['r'] ∨ word = ['R'] then literal true c rest
        else if reserved.contains (String.ofList word) then
          some (.word (String.ofList word), rest)
        else plain word rest
      else plain word rest
  | [] => plain word rest
where
  /-- A word that is not the mark of a text literal. -/
  plain (word rest : List Char) : Option (Token × List Char) :=
    let s := String.ofList word
    if reserved.contains s then some (.word s, rest)
    else if Text.isIdentifier word then
      let name := String.ofList (Text.fold word)
      some (if name = constant then .word name else .name name, rest)
    else none

/-- An operator or a bracket. -/
def operator? (text : List Char) : Option (String × List Char) :=
  operators.findSome? fun op => (Text.dropStart? op.toList text).map fun rest => (op, rest)

/-- The white space inside a line. -/
def isSpace (c : Char) : Bool :=
  c == ' ' || c == '\t' || c == Char.ofNat 12

/-- A text without the rest of its first line. -/
def skipLine (text : List Char) : List Char :=
  text.dropWhile (· != '\n')

/-- Whether a line break or the end comes next, perhaps after a comment. -/
def lineEnds : List Char -> Bool
  | [] => true
  | c :: _ => c == '\n' || c == '#'

/-- The line that a line ending in a backslash goes on with. -/
def nextLine : List Char -> Option (List Char)
  | '\n' :: c :: rest => some (c :: rest)
  | _ => none

/-- The tokens of a text. `depth` counts the open brackets and `start` says whether a new
line begins here. -/
def scanFrom : Nat -> Nat -> Bool -> List Char -> Option (List Token)
  | 0, _, _, _ => none
  | _ + 1, depth, _, [] => if depth = 0 then some [] else none
  | fuel + 1, depth, true, c :: rest =>
      let body := (c :: rest).dropWhile isSpace
      if lineEnds body then
        match skipLine body with
        | [] => some []
        | _ :: rest => scanFrom fuel depth true rest
      else if isSpace c then none
      else scanFrom fuel depth false (c :: rest)
  | fuel + 1, depth, false, c :: rest =>
      if isSpace c then scanFrom fuel depth false rest
      else if c = '#' then scanFrom fuel depth false (skipLine rest)
      else if c = '\n' then
        if depth = 0 then do some (.newline :: (<- scanFrom fuel 0 true rest))
        else scanFrom fuel depth false rest
      else if c = '\\' then do scanFrom fuel depth false (<- nextLine rest)
      else if isQuote c then do
        let (token, rest) <- literal false c (c :: rest)
        some (token :: (<- scanFrom fuel depth false rest))
      else if c.isDigit || (c == '.' && (rest.head?.map Char.isDigit).getD false) then do
        let (token, rest) <- number (c :: rest)
        some (token :: (<- scanFrom fuel depth false rest))
      else if isWordChar c then do
        let (token, rest) <- wordToken (c :: rest)
        some (token :: (<- scanFrom fuel depth false rest))
      else do
        let (sign, rest) <- operator? (c :: rest)
        if sign = "(" ∨ sign = "[" ∨ sign = "\x7b" then
          if maxDepth ≤ depth then none
          else some (.op sign :: (<- scanFrom fuel (depth + 1) false rest))
        else if sign = ")" ∨ sign = "]" ∨ sign = "\x7d" then
          if depth = 0 then none
          else some (.op sign :: (<- scanFrom fuel (depth - 1) false rest))
        else some (.op sign :: (<- scanFrom fuel depth false rest))

/-- The tokens of a text that begins a line. -/
def scan (text : List Char) : Option (List Token) :=
  let text := Text.unifyBreaks text
  scanFrom (2 * text.length + 2) 0 true text

end Token

end QuantFamily.Expr
