import QuantFamily.Decimal.Fixed
import QuantFamily.Digest.Sha256
import QuantFamily.Text.Numeral

/-!
# Measured values

What a benchmark returns. Values are compared through a fingerprint: the digest of a
sequence of bytes that names the kind of every part. The order of the members of a set
and of the keys of a table does not matter, doubles count with six significant digits,
and lists and tuples are not told apart. Only the first items of a long list count, and
nothing counts below a certain depth.
-/

namespace QuantFamily.Benchmark

open Digest

/-- The items of an array with a shape. -/
inductive Cells where
  | reals (items : List Float)
  | bytes (content : Bytes)

/-- A value that a benchmark returns or takes. -/
inductive Value where
  | none
  | bool (b : Bool)
  | int (n : Int)
  | real (x : Float)
  | complex (re im : Float)
  | str (s : String)
  | bytes (kind : String) (content : Bytes)
  | list (items : List Value)
  | tuple (items : List Value)
  | set (kind : String) (items : List Value)
  | table (entries : List (Value × Value))
  | record (fields : List (String × Value))
  /-- A value of which only its kind and its text matter. -/
  | named (kind : String) (text : String)
  | array (shape : List Nat) (layout : String) (cells : Cells)
deriving Inhabited

namespace Value

/-- The word for the kind of a value. -/
def kind : Value -> String
  | .none => "NoneType"
  | .bool _ => "bool"
  | .int _ => "int"
  | .real _ => "float"
  | .complex _ _ => "complex"
  | .str _ => "str"
  | .bytes kind _ => kind
  | .list _ => "list"
  | .tuple _ => "tuple"
  | .set kind _ => kind
  | .table _ => "dict"
  | .record _ => "Data"
  | .named kind _ => kind
  | .array _ _ _ => "ndarray"

/-- A truth value as text. -/
def boolText (b : Bool) : String :=
  if b then "True" else "False"

/-- The text of a double with six significant digits. -/
def realText (x : Float) : String :=
  Decimal.text (Decimal.roundSignificant 6 x)

/-- The text of a shape. -/
def shapeText : List Nat -> String
  | [n] => "(" ++ Nat.repr n ++ ",)"
  | shape => "(" ++ ", ".intercalate (shape.map Nat.repr) ++ ")"

/-- The bytes of a collection: its mark, its size and its parts. -/
def framed (mark : String) (parts : List Bytes) : Bytes :=
  bytesOf (mark ++ Nat.repr parts.length) ++ parts.flatten

/-- The number of items of a list that count. -/
def lengthLimit : Nat := 2000

/-- The number of collections around a value that counts. -/
def depthLimit : Nat := 8

/-- The bytes of a list: its mark, its size and its first parts. -/
def framedList (parts : List Bytes) : Bytes :=
  bytesOf ("L" ++ Nat.repr parts.length) ++ (parts.take lengthLimit).flatten

/-- The digests of byte sequences in ascending order. -/
def sortedDigests (parts : List Bytes) : List Bytes :=
  ((parts.map fun part => (digest part).hex).mergeSort (· ≤ ·)).map bytesOf

/-- Keyed parts in the order of the digests of their keys. -/
def sortedByKey (parts : List (Bytes × Bytes)) : List Bytes :=
  let keyed := parts.map fun (key, part) => ((digest key).hex, part)
  (keyed.mergeSort fun a b => a.1 ≤ b.1).map (·.2)

/-- The bytes of a text at a depth. -/
def streamText (depth : Nat) (s : String) : Bytes :=
  if depthLimit < depth then [] else bytesOf ("s" ++ s)

mutual

/-- The bytes that stand for a value at a depth in its fingerprint. -/
def stream (depth : Nat) (v : Value) : Bytes :=
  if depthLimit < depth then []
  else
    match v with
    | .none => bytesOf "None"
    | .bool b => bytesOf (boolText b)
    | .int n => bytesOf (Text.showInt n)
    | .real x => bytesOf (realText x)
    | .complex re im => bytesOf ("c" ++ realText re ++ realText im)
    | .str s => streamText depth s
    | .bytes _ content => bytesOf "b" ++ content
    | .list items => framedList (streams (depth + 1) items)
    | .tuple items => framedList (streams (depth + 1) items)
    | .set _ items => framed "S" (sortedDigests (streams 0 items))
    | .table entries => framed "D" (sortedByKey (streamPairs (depth + 1) entries))
    | .record fields => framed "D" (sortedByKey (streamFields (depth + 1) fields))
    | .named _ text => bytesOf text
    | .array shape layout cells =>
        bytesOf ("A" ++ shapeText shape ++ layout) ++
          match cells with
          | .reals items => items.flatMap fun x => bytesOf (realText x)
          | .bytes content => (digest content).bytes

/-- The bytes of several values. -/
def streams (depth : Nat) : List Value -> List Bytes
  | [] => []
  | item :: items => stream depth item :: streams depth items

/-- The bytes of keys and values, each with the bytes of the key on its own. -/
def streamPairs (depth : Nat) : List (Value × Value) -> List (Bytes × Bytes)
  | [] => []
  | (key, value) :: entries =>
      (stream 0 key, stream depth key ++ stream depth value) :: streamPairs depth entries

/-- The bytes of named values, each with the bytes of the name on its own. -/
def streamFields (depth : Nat) : List (String × Value) -> List (Bytes × Bytes)
  | [] => []
  | (name, value) :: fields =>
      (streamText 0 name, streamText depth name ++ stream depth value) ::
        streamFields depth fields

end

/-- The fingerprint of a value. -/
def fingerprint (v : Value) : String :=
  (digest (v.stream 0)).hex

/-- Texts between brackets. -/
def enclosed (opening closing : String) (parts : List String) : String :=
  opening ++ ", ".intercalate parts ++ closing

mutual

/-- A value as it is shown inside another value. -/
def render : Value -> String
  | .none => "None"
  | .bool b => boolText b
  | .int n => Text.showInt n
  | .real x => Decimal.text x
  | .complex re im => "(" ++ Decimal.text re ++ "+" ++ Decimal.text im ++ "j)"
  | .str s => Text.quote s
  | .bytes _ content => "b" ++ Text.quote (String.ofList (content.map fun b => Char.ofNat b.toNat))
  | .list items => enclosed "[" "]" (renderAll items)
  | .tuple [item] => "(" ++ render item ++ ",)"
  | .tuple items => enclosed "(" ")" (renderAll items)
  | .set _ items => enclosed "\x7b" "\x7d" (renderAll items)
  | .table entries => enclosed "\x7b" "\x7d" (renderPairs entries)
  | .record fields => enclosed "Data(" ")" (renderFields fields)
  | .named _ text => text
  | .array shape layout _ => "array(" ++ shapeText shape ++ ", " ++ layout ++ ")"

/-- Several values as they are shown. -/
def renderAll : List Value -> List String
  | [] => []
  | item :: items => render item :: renderAll items

/-- Keys and values as they are shown. -/
def renderPairs : List (Value × Value) -> List String
  | [] => []
  | (key, value) :: entries => (render key ++ ": " ++ render value) :: renderPairs entries

/-- Named values as they are shown. -/
def renderFields : List (String × Value) -> List String
  | [] => []
  | (name, value) :: fields => (name ++ "=" ++ render value) :: renderFields fields

end

/-- A value as it is printed: a text stands for itself. -/
def text : Value -> String
  | .str s => s
  | v => v.render

end Value

/-- Lists and tuples of the same items have one fingerprint. -/
theorem fingerprint_tuple (items : List Value) :
    (Value.tuple items).fingerprint = (Value.list items).fingerprint := by
  simp only [Value.fingerprint, Value.stream]

end QuantFamily.Benchmark
