import QuantFamily.Session

/-!
# Quantifier lines

The variables of a quantified block are found by expanding the blocks in its body. The
quantifier lines of a formula are those of its first part: a block without attribute
stands for the lines of its bricks.
-/

namespace QuantFamily

namespace Formula

/-- Enough steps to expand any block that does not contain itself. -/
def nestingBound (φ : Formula) : Nat :=
  φ.contents.size + 2

/-- A number with another number's sign on it. -/
def withSign (brick n : Int) : Int :=
  if brick < 0 then -n else n

/-- The number that a piece of a list spells, blanks around it aside. -/
def readLiteral (piece : List Char) : Except Fault Int :=
  match Text.readInt? piece with
  | some n => .ok n
  | none => .error .unreadableNumber

/-- The numbers of a text that has a comma behind each of them. What follows the last comma
is left out. -/
def readLiterals (text : String) : Except Fault (List Int) :=
  (Text.splitAt (· = ',') text.toList).dropLast.mapM readLiteral

/-- The text of the literals that one signed identifier stands for: its own, if it is a
variable, or those of the bricks below it. The latter are read back from their text to take
on the sign. -/
def brickText (φ : Formula) (below : List Id -> Except Fault String) (brick : Id) :
    Except Fault String :=
  let id := Int.ofNat brick.natAbs
  if φ.isVariable id then return Text.showInt brick ++ ", "
  else
    match φ.contents.get? id with
    | none => throw .missingEntry
    | some b => do
        let ns <- readLiterals (<- below b.body)
        return String.join (ns.map fun n => Text.showInt (withSign brick n) ++ ", ")

/-- The texts of signed identifiers one after the other, and a fault if a block contains
itself. -/
def literalTextWithin (φ : Formula) : Nat -> List Id -> Except Fault String
  | 0, _ => .error .endlessNesting
  | fuel + 1, bricks => do
      return String.join (<- bricks.mapM (φ.brickText (φ.literalTextWithin fuel)))

/-- The literals of signed identifiers, each followed by a comma and a space. -/
def literalText (φ : Formula) (bricks : List Id) : Except Fault String :=
  φ.literalTextWithin φ.nestingBound bricks

/-- A text without its last two characters. -/
def dropTwo (text : String) : String :=
  String.ofList (text.toList.take (text.length - 2))

/-- The quantifier line of a marked block: the last separator gives way to a bracket. -/
def markedLine (φ : Formula) (mark : Attribute) (body : List Id) : Except Fault String := do
  let text <- φ.literalText body
  return dropTwo (mark.word ++ "(" ++ text) ++ ")\n"

/-- The quantifier lines of a block. -/
def quantifierLines (φ : Formula) : Nat -> Block -> Except Fault String
  | 0, _ => .error .endlessNesting
  | fuel + 1, b =>
      match b.mark with
      | some mark => φ.markedLine mark b.body
      | none => do
          let lines <- b.body.mapM fun brick =>
            match φ.contents.get? brick with
            | none => throw .missingEntry
            | some inner => φ.quantifierLines fuel inner
          return String.join lines

/-- The block at a place of the output block's body. -/
def outputPart (φ : Formula) (place : Nat) : Except Fault Id :=
  match φ.output.bind φ.contents.get? with
  | none => .error .missingEntry
  | some b =>
      match b.body[place]? with
      | none => .error .missingItem
      | some id => .ok id

/-- The contents of a block that has them. -/
def contentsOf (φ : Formula) (id : Id) : Except Fault Block :=
  match φ.contents.get? id with
  | none => .error .missingEntry
  | some b => .ok b

end Formula

end QuantFamily
