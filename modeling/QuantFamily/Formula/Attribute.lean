import QuantFamily.Edition

/-!
# Attributes of blocks

A block may carry one attribute: a quantifier over its variables, or an operator that
joins its bricks. This module gives their signs in the language and their words in the
output.
-/

namespace QuantFamily

/-- The quantifiers. -/
inductive Quantifier where
  | existential
  | universal
deriving DecidableEq

/-- The operators of gates. -/
inductive Operator where
  | or
  | and
  | xor
  | implies
  | iff
  | ite
deriving DecidableEq

/-- What a block can be marked with. -/
inductive Attribute where
  | quantifier (q : Quantifier)
  | operator (o : Operator)
deriving DecidableEq

/-- The word of a quantifier in the output. -/
def Quantifier.word : Quantifier -> String
  | .existential => "exists"
  | .universal => "forall"

/-- The word of an operator in the output. -/
def Operator.word : Operator -> String
  | .or => "or"
  | .and => "and"
  | .xor => "xor"
  | .implies => "imp"
  | .iff => "dimp"
  | .ite => "ite"

namespace Attribute

/-- The word of an attribute in the output. -/
def word : Attribute -> String
  | .quantifier q => q.word
  | .operator o => o.word

/-- The word of an attribute that may be missing. -/
def wordOf : Option Attribute -> String
  | some a => a.word
  | none => "None"

/-- The signs that all editions know. -/
def basicSigns : List (String × Attribute) :=
  [("E", .quantifier .existential), ("A", .quantifier .universal), ("XOR", .operator .xor),
   ("OR", .operator .or), ("AND", .operator .and)]

/-- The signs that only the full edition knows. -/
def extendedSigns : List (String × Attribute) :=
  [("∃", .quantifier .existential), ("∀", .quantifier .universal), ("⊕", .operator .xor),
   ("∨", .operator .or), ("∧", .operator .and), ("=>", .operator .implies),
   ("→", .operator .implies), ("⇒", .operator .implies), ("<=>", .operator .iff),
   ("↔", .operator .iff), ("⇔", .operator .iff), ("ITE", .operator .ite),
   ("if-then-else", .operator .ite), ("⤙", .operator .ite)]

/-- The signs of an edition. -/
def signs (edition : Edition) : List (String × Attribute) :=
  if edition.isExtended then basicSigns ++ extendedSigns else basicSigns

/-- The attribute that a sign stands for. -/
def ofSign? (edition : Edition) (sign : String) : Option Attribute :=
  (signs edition).lookup sign

end Attribute

end QuantFamily
