import QuantFamily.Decimal.Shortest
import QuantFamily.Expr.Number
import QuantFamily.Text.Numeral
import QuantFamily.Text.Quoted

/-!
# Values of expressions

What an expression can compute, how a value is shown, when it counts as true, and when
two values are equal or ordered. A truth value is a number in every computation.
-/

namespace QuantFamily.Expr

/-- The functions that every expression may call. -/
inductive Builtin where
  | len | range | abs | min | max | sum | sorted | all | any
  | int | str | bool | list | pow | divmod
deriving DecidableEq

/-- The name of a function. -/
def Builtin.name : Builtin -> String
  | .len => "len"
  | .range => "range"
  | .abs => "abs"
  | .min => "min"
  | .max => "max"
  | .sum => "sum"
  | .sorted => "sorted"
  | .all => "all"
  | .any => "any"
  | .int => "int"
  | .str => "str"
  | .bool => "bool"
  | .list => "list"
  | .pow => "pow"
  | .divmod => "divmod"

/-- All functions. -/
def Builtin.every : List Builtin :=
  [.len, .range, .abs, .min, .max, .sum, .sorted, .all, .any,
   .int, .str, .bool, .list, .pow, .divmod]

/-- Whether a function is the constructor of a kind of value. -/
def Builtin.isKind : Builtin -> Bool
  | .range | .int | .str | .bool | .list => true
  | _ => false

/-- A value of an expression. A record is a table with text keys, given by its names and
their values. The formula stands for the formula under construction itself, and
`drained` for a sequence of pairs that has been used up; neither supports any operation
but being passed around. -/
inductive Value where
  | none
  | bool (b : Bool)
  | int (n : Int)
  | real (x : Float)
  | str (s : String)
  | list (items : List Value)
  | tuple (items : List Value)
  | range (start stop step : Int)
  | record (names : List String) (values : List Value)
  | builtin (f : Builtin)
  | formula
  | drained
deriving Inhabited

namespace Value

/-- The entries of a record, each shown as a name and a value. -/
def joinEntries : List String -> List String -> List String
  | name :: names, value :: values => (Text.quote name ++ ": " ++ value) :: joinEntries names values
  | _, _ => []

mutual

/-- A value as it is shown inside other values. -/
def render : Value -> String
  | .none => "None"
  | .bool true => "True"
  | .bool false => "False"
  | .int n => Text.showInt n
  | .real x => Decimal.text x
  | .str s => Text.quote s
  | .list items => "[" ++ ", ".intercalate (renderAll items) ++ "]"
  | .tuple items =>
      match renderAll items with
      | [item] => "(" ++ item ++ ",)"
      | items => "(" ++ ", ".intercalate items ++ ")"
  | .range start stop step =>
      let ends := Text.showInt start ++ ", " ++ Text.showInt stop
      "range(" ++ (if step = 1 then ends else ends ++ ", " ++ Text.showInt step) ++ ")"
  | .record names values =>
      "\x7b" ++ ", ".intercalate (joinEntries names (renderAll values)) ++ "\x7d"
  | .builtin f =>
      if f.isKind then "<class '" ++ f.name ++ "'>" else "<built-in function " ++ f.name ++ ">"
  | .formula => "<formula>"
  | .drained => "<pairs>"

/-- Each value as it is shown inside other values. -/
def renderAll : List Value -> List String
  | [] => []
  | item :: items => item.render :: renderAll items

end

/-- A value as it is printed on its own: a text without its quotes. -/
def text : Value -> String
  | .str s => s
  | v => v.render

mutual

/-- Whether all integers in a value have no more digits than can be written. -/
def isWritable : Value -> Bool
  | .int n => Text.isConvertible n
  | .list items => areWritable items
  | .tuple items => areWritable items
  | .range start stop step => [start, stop, step].all Text.isConvertible
  | .record _ values => areWritable values
  | _ => true

/-- Whether all values can be written. -/
def areWritable : List Value -> Bool
  | [] => true
  | item :: items => item.isWritable && areWritable items

end

/-- A value as a number, if it is one. -/
def number? : Value -> Option Number
  | .bool b => some (.int (if b then 1 else 0))
  | .int n => some (.int n)
  | .real x => some (.real x)
  | _ => Option.none

/-- A value as an integer, if it is an integer or a truth value. -/
def integer? : Value -> Option Int
  | .bool b => some (if b then 1 else 0)
  | .int n => some n
  | _ => Option.none

/-- A number as a value. -/
def ofNumber : Number -> Value
  | .int n => .int n
  | .real x => .real x

/-- The number of integers in a range. -/
def rangeLength (start stop step : Int) : Nat :=
  if 0 < step then ((stop - start + step - 1).fdiv step).toNat
  else ((start - stop - step - 1).fdiv (-step)).toNat

/-- Whether a value counts as true. -/
def truth : Value -> Bool
  | .none => false
  | .bool b => b
  | .int n => n != 0
  | .real x => x != 0.0
  | .str s => !s.isEmpty
  | .list items => !items.isEmpty
  | .tuple items => !items.isEmpty
  | .range start stop step => rangeLength start stop step != 0
  | .record names _ => !names.isEmpty
  | .builtin _ => true
  | .formula => true
  | .drained => true

/-- The value of a name in a record. -/
def recordGet? (names : List String) (values : List Value) (name : String) : Option Value :=
  match names, values with
  | n :: names, v :: values => if n = name then some v else recordGet? names values name
  | _, _ => Option.none

mutual

/-- Whether two values are equal. Numbers are compared by their exact value, ranges by
the integers they hold, and records without regard to order. -/
def equal : Value -> Value -> Bool
  | .none, .none => true
  | .str s, .str t => s == t
  | .list xs, .list ys => equalAll xs ys
  | .tuple xs, .tuple ys => equalAll xs ys
  | .range a b c, .range a' b' c' =>
      let n := rangeLength a b c
      n == rangeLength a' b' c' && (n == 0 || (a == a' && (n == 1 || c == c')))
  | .record names values, .record names' values' =>
      names.length == names'.length && equalEntries names values names' values'
  | .builtin f, .builtin g => f == g
  | .formula, .formula => true
  | .drained, .drained => true
  | v, w =>
      match v.number?, w.number? with
      | some a, some b => a.order? b == some .eq
      | _, _ => false

/-- Whether two lists have equal items. -/
def equalAll : List Value -> List Value -> Bool
  | [], [] => true
  | x :: xs, y :: ys => equal x y && equalAll xs ys
  | _, _ => false

/-- Whether every entry of the first record is in the second one. -/
def equalEntries : List String -> List Value -> List String -> List Value -> Bool
  | name :: names, value :: values, names', values' =>
      (match recordGet? names' values' name with
        | some other => equal value other
        | Option.none => false) && equalEntries names values names' values'
  | _, _, _, _ => true

end

/-- The order relations. -/
inductive Relation where
  | less | lessEq | greater | greaterEq
deriving DecidableEq

/-- Whether a relation holds of two things in the given order. -/
def Relation.holds : Relation -> Ordering -> Bool
  | .less, o => o == .lt
  | .lessEq, o => o != .gt
  | .greater, o => o == .gt
  | .greaterEq, o => o != .lt

mutual

/-- Whether two values are in a relation. Only numbers, texts, and two lists or two
tuples are ordered, the latter by the first place where they differ. -/
def related? (r : Relation) : Value -> Value -> Option Bool
  | .str s, .str t => some (r.holds (compare s t))
  | .list xs, .list ys => relatedAll? r xs ys
  | .tuple xs, .tuple ys => relatedAll? r xs ys
  | v, w =>
      match v.number?, w.number? with
      | some a, some b =>
          match a.order? b with
          | some o => some (r.holds o)
          | Option.none => some false
      | _, _ => Option.none

/-- Whether two lists are in a relation. -/
def relatedAll? (r : Relation) : List Value -> List Value -> Option Bool
  | [], [] => some (r.holds .eq)
  | [], _ :: _ => some (r.holds .lt)
  | _ :: _, [] => some (r.holds .gt)
  | x :: xs, y :: ys => if equal x y then relatedAll? r xs ys else related? r x y

end

end Value

end QuantFamily.Expr
