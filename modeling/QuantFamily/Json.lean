import QuantFamily.Decimal.Shortest
import QuantFamily.Text.Quoted
import QuantFamily.Text.Numeral

/-!
# Data interchange text

Reading and writing data in the usual interchange notation. Objects keep the order of
their names; a name that is given twice keeps its first place and its last value.
Integers have any size. The three values of doubles that are not finite have names of
their own.
-/

namespace QuantFamily

/-- Interchange data. -/
inductive Json where
  | null
  | bool (b : Bool)
  | int (n : Int)
  | real (x : Float)
  | str (s : String)
  | arr (items : List Json)
  | obj (entries : List (String × Json))
deriving Inhabited

namespace Json

/-- The value of a name in an object. -/
def get? (j : Json) (name : String) : Option Json :=
  match j with
  | .obj entries => entries.lookup name
  | _ => none

/-- Write a value at a name, in its old place if the name is there already. -/
def putName (name : String) (value : Json) : List (String × Json) -> List (String × Json)
  | [] => [(name, value)]
  | entry :: rest =>
      if entry.1 = name then (name, value) :: rest else entry :: putName name value rest

/-- Whether a character is white space between tokens. -/
def isSpace (c : Char) : Bool :=
  c == ' ' || c == '\t' || c == '\n' || c == '\r'

/-- Four hexadecimal digits as a number. -/
def hex4? : List Char -> Option (Nat × List Char)
  | a :: b :: c :: d :: rest => do
      let a <- digit? a
      let b <- digit? b
      let c <- digit? c
      let d <- digit? d
      some (((a * 16 + b) * 16 + c) * 16 + d, rest)
  | _ => none
where
  /-- The value of a hexadecimal digit. -/
  digit? (c : Char) : Option Nat :=
    if c.toNat < 0x80 then (Text.alphanumValue? c).filter (· < 16) else none

/-- A character given by its code in hexadecimal; two codes may form one character. -/
def codeEscape (text : List Char) : Option (Char × List Char) := do
  let (high, rest) <- hex4? text
  if 0xd800 ≤ high ∧ high < 0xdc00 then
    match rest with
    | '\\' :: 'u' :: more =>
        match hex4? more with
        | some (low, rest') =>
            if 0xdc00 ≤ low ∧ low < 0xe000 then
              some (Char.ofNat (0x10000 + (high - 0xd800) * 0x400 + (low - 0xdc00)), rest')
            else some (Char.ofNat 0xfffd, rest)
        | none => some (Char.ofNat 0xfffd, rest)
    | rest => some (Char.ofNat 0xfffd, rest)
  else if 0xdc00 ≤ high ∧ high < 0xe000 then some (Char.ofNat 0xfffd, rest)
  else some (Char.ofNat high, rest)

/-- The rest of a text literal behind its opening quote. -/
def readText : Nat -> List Char -> List Char -> Option (String × List Char)
  | 0, _, _ => none
  | _ + 1, _, [] => none
  | _ + 1, acc, '"' :: rest => some (String.ofList acc.reverse, rest)
  | fuel + 1, acc, '\\' :: c :: rest =>
      match c with
      | '"' => readText fuel ('"' :: acc) rest
      | '\\' => readText fuel ('\\' :: acc) rest
      | '/' => readText fuel ('/' :: acc) rest
      | 'b' => readText fuel (Char.ofNat 8 :: acc) rest
      | 'f' => readText fuel (Char.ofNat 12 :: acc) rest
      | 'n' => readText fuel ('\n' :: acc) rest
      | 'r' => readText fuel ('\r' :: acc) rest
      | 't' => readText fuel ('\t' :: acc) rest
      | 'u' =>
          match codeEscape rest with
          | some (c, rest) => readText fuel (c :: acc) rest
          | none => none
      | _ => none
  | fuel + 1, acc, c :: rest =>
      if c.toNat < 0x20 then none else readText fuel (c :: acc) rest

/-- A number: digits without a leading zero, and perhaps a fraction and a power of ten. -/
def readNumber (text : List Char) : Option (Json × List Char) :=
  let (negative, text) := match text with
    | '-' :: rest => (true, rest)
    | text => (false, text)
  let whole := text.takeWhile Char.isDigit
  let rest := text.dropWhile Char.isDigit
  let (whole, rest) := match whole with
    | '0' :: d :: more => (['0'], d :: more ++ rest)
    | whole => (whole, rest)
  if whole.isEmpty then none
  else
    let (fraction, rest) := match rest with
      | '.' :: more =>
          match more.takeWhile Char.isDigit with
          | [] => ([], rest)
          | digits => (digits, more.dropWhile Char.isDigit)
      | rest => ([], rest)
    let (power, rest) := powerPart rest
    let digits := (whole ++ fraction).foldl (fun acc c => acc * 10 + (c.toNat - '0'.toNat)) 0
    match fraction, power with
    | [], none => some (.int (if negative then - Int.ofNat digits else Int.ofNat digits), rest)
    | fraction, power =>
        let exponent := power.getD 0 - Int.ofNat fraction.length
        let size := Int.ofNat (toString digits).length + exponent
        let x :=
          if digits = 0 ∨ size < -400 then 0.0
          else if 400 < size then Decimal.ofDecimal 1 400
          else Decimal.ofDecimal digits exponent
        some (.real (if negative then -x else x), rest)
where
  /-- A power of ten, if there is one. -/
  powerPart : List Char -> Option Int × List Char
    | c :: rest =>
        if c = 'e' ∨ c = 'E' then
          let (negative, more) := match rest with
            | '-' :: more => (true, more)
            | '+' :: more => (false, more)
            | more => (false, more)
          match more.takeWhile Char.isDigit with
          | [] => (none, c :: rest)
          | digits =>
              let n := Int.ofNat (digits.foldl (fun acc c => acc * 10 + (c.toNat - '0'.toNat)) 0)
              (some (if negative then -n else n), more.dropWhile Char.isDigit)
        else (none, c :: rest)
    | [] => (none, [])

/-- The words with a meaning. -/
def words : List (String × Json) :=
  [("null", .null), ("true", .bool true), ("false", .bool false), ("NaN", .real (0.0 / 0.0)),
   ("Infinity", .real (1.0 / 0.0)), ("-Infinity", .real (-1.0 / 0.0))]

mutual

/-- A value, perhaps after white space. -/
def readValue : Nat -> List Char -> Option (Json × List Char)
  | 0, _ => none
  | fuel + 1, text =>
      match text.dropWhile isSpace with
      | '"' :: rest => (readText (rest.length + 1) [] rest).map fun (s, rest) => (.str s, rest)
      | '[' :: rest =>
          match rest.dropWhile isSpace with
          | ']' :: rest => some (.arr [], rest)
          | rest => (readItems fuel rest).map fun (items, rest) => (.arr items, rest)
      | c :: rest =>
          if c.toNat = 0x7b then
            match rest.dropWhile isSpace with
            | [] => none
            | d :: rest' =>
                if d.toNat = 0x7d then some (.obj [], rest')
                else (readEntries fuel [] (d :: rest')).map fun (es, rest) => (.obj es, rest)
          else
            match words.findSome? fun w =>
                (Text.dropStart? w.1.toList (c :: rest)).map fun rest => (w.2, rest) with
            | some found => some found
            | none => readNumber (c :: rest)
      | [] => none

/-- The items of an array up to its closing bracket. -/
def readItems : Nat -> List Char -> Option (List Json × List Char)
  | 0, _ => none
  | fuel + 1, text => do
      let (item, rest) <- readValue fuel text
      match rest.dropWhile isSpace with
      | ',' :: rest => do
          let (items, rest) <- readItems fuel rest
          some (item :: items, rest)
      | ']' :: rest => some ([item], rest)
      | _ => none

/-- The entries of an object up to its closing brace. -/
def readEntries : Nat -> List (String × Json) -> List Char ->
    Option (List (String × Json) × List Char)
  | 0, _, _ => none
  | fuel + 1, acc, text =>
      match text.dropWhile isSpace with
      | '"' :: rest => do
          let (name, rest) <- readText (rest.length + 1) [] rest
          match rest.dropWhile isSpace with
          | ':' :: rest => do
              let (value, rest) <- readValue fuel rest
              let acc := putName name value acc
              match rest.dropWhile isSpace with
              | ',' :: rest => readEntries fuel acc rest
              | c :: rest => if c.toNat = 0x7d then some (acc, rest) else none
              | [] => none
          | _ => none
      | _ => none

end

/-- The data that a whole text denotes. -/
def parse? (text : String) : Option Json := do
  let chars := text.toList
  let (value, rest) <- readValue (chars.length + 1) chars
  if rest.all isSpace then some value else none

/-- A sixteen-bit code in hexadecimal. -/
def unit (code : Nat) : List Char :=
  '\\' :: 'u' :: Text.hex 4 code

/-- How a character is written in a text literal: only printable basic Latin characters
stand for themselves. -/
def writeChar (c : Char) : List Char :=
  if c = '"' then ['\\', '"']
  else if c = '\\' then ['\\', '\\']
  else if c = '\n' then ['\\', 'n']
  else if c = '\r' then ['\\', 'r']
  else if c = '\t' then ['\\', 't']
  else if c.toNat = 8 then ['\\', 'b']
  else if c.toNat = 12 then ['\\', 'f']
  else if 0x20 ≤ c.toNat ∧ c.toNat < 0x7f then [c]
  else if c.toNat < 0x10000 then unit c.toNat
  else
    let low := c.toNat - 0x10000
    unit (0xd800 + low / 0x400) ++ unit (0xdc00 + low % 0x400)

/-- A text literal. -/
def writeText (s : String) : String :=
  String.ofList ('"' :: s.toList.flatMap writeChar ++ ['"'])

/-- A double. -/
def writeReal (x : Float) : String :=
  match Decimal.parts x with
  | .undefined => "NaN"
  | .infinite negative => if negative then "-Infinity" else "Infinity"
  | .finite _ _ _ => Decimal.text x

mutual

/-- The text of data on one line, with a space behind commas and colons. -/
def write : Json -> String
  | .null => "null"
  | .bool true => "true"
  | .bool false => "false"
  | .int n => Text.showInt n
  | .real x => writeReal x
  | .str s => writeText s
  | .arr items => "[" ++ ", ".intercalate (writeAll items) ++ "]"
  | .obj entries => "\x7b" ++ ", ".intercalate (writeEntries entries) ++ "\x7d"

/-- The texts of several data. -/
def writeAll : List Json -> List String
  | [] => []
  | item :: items => write item :: writeAll items

/-- The texts of the entries of an object. -/
def writeEntries : List (String × Json) -> List String
  | [] => []
  | (name, value) :: entries => (writeText name ++ ": " ++ write value) :: writeEntries entries

end

end Json

end QuantFamily
