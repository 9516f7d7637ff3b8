import QuantFamily.Expr.Operation
import QuantFamily.Expr.Token

/-!
# Terms

The structure of an expression, and how it is read off a list of tokens. Operators bind,
from loosest to tightest: the choice between two terms, disjunction, conjunction,
negation, comparison, the bitwise operators, shifts, sums, products, signs, and powers.
-/

namespace QuantFamily.Expr

/-- What a gathering list binds each item to: one name, or several names for the parts of
the item. -/
inductive Pattern where
  | single (name : String)
  | several (names : List String)

/-- The structure of an expression. -/
inductive Term where
  | value (v : Value)
  | name (s : String)
  | unary (f : Unary) (t : Term)
  | binary (f : Binary) (a b : Term)
  /-- A chain of comparisons; each holds between neighbours. -/
  | compare (first : Term) (links : List Comparison) (rest : List Term)
  | both (a b : Term)
  | either (a b : Term)
  | negation (t : Term)
  | choice (condition yes no : Term)
  | list (items : List Term)
  | tuple (items : List Term)
  | item (t index : Term)
  | slice (t first last step : Term)
  | call (f : Term) (args : List Term) (names : List String) (named : List Term)
  /-- The list of the values of a body, one for each item of a source that passes all
  tests. -/
  | gather (body : Term) (pattern : Pattern) (source : Term) (tests : List Term)

namespace Term

/-- The binary operators of a precedence level, loosest first. -/
def binaryAt : Nat -> String -> Option Binary
  | 0, "|" => some .bitOr
  | 1, "^" => some .bitXor
  | 2, "&" => some .bitAnd
  | 3, "<<" => some .shiftLeft
  | 3, ">>" => some .shiftRight
  | 4, "+" => some .add
  | 4, "-" => some .sub
  | 5, "*" => some .mul
  | 5, "/" => some .div
  | 5, "//" => some .floorDiv
  | 5, "%" => some .floorMod
  | _, _ => none

/-- The comparison that a list of tokens starts with. -/
def comparison? : List Token -> Option (Comparison × List Token)
  | .op "==" :: rest => some (.eq, rest)
  | .op "!=" :: rest => some (.ne, rest)
  | .op "<" :: rest => some (.less, rest)
  | .op "<=" :: rest => some (.lessEq, rest)
  | .op ">" :: rest => some (.greater, rest)
  | .op ">=" :: rest => some (.greaterEq, rest)
  | .word "in" :: rest => some (.member, rest)
  | .word "not" :: .word "in" :: rest => some (.notMember, rest)
  | .word "is" :: .word "not" :: rest => some (.isNotSame, rest)
  | .word "is" :: rest => some (.isSame, rest)
  | _ => none

/-- The text literals that a list of tokens starts with, joined. -/
def joinTexts : List Token -> String × List Token
  | .str s :: rest =>
      let (more, rest) := joinTexts rest
      (s ++ more, rest)
  | tokens => ("", tokens)

/-- Names with commas between them and `in` behind them. -/
def severalNames : List Token -> Option (List String × List Token)
  | .word "in" :: rest => some ([], rest)
  | .name s :: .word "in" :: rest => some ([s], rest)
  | .name s :: .op "," :: rest => do
      let (names, rest) <- severalNames rest
      some (s :: names, rest)
  | _ => none

/-- What stands between `for` and `in`. -/
def pattern? : List Token -> Option (Pattern × List Token)
  | .name s :: .word "in" :: rest => some (.single s, rest)
  | .name s :: .op "," :: rest => do
      let (names, rest) <- severalNames rest
      some (.several (s :: names), rest)
  | _ => none

/-- The absent value, which a slice takes for an end that is not written. -/
def absent : Term := .value .none

mutual

/-- A term. -/
def expr : Nat -> List Token -> Option (Term × List Token)
  | 0, _ => none
  | fuel + 1, tokens => do
      let (yes, tokens) <- disjunction fuel tokens
      match tokens with
      | .word "if" :: tokens => do
          let (condition, tokens) <- disjunction fuel tokens
          match tokens with
          | .word "else" :: tokens => do
              let (no, tokens) <- expr fuel tokens
              some (.choice condition yes no, tokens)
          | _ => none
      | tokens => some (yes, tokens)

/-- Terms joined by `or`. -/
def disjunction : Nat -> List Token -> Option (Term × List Token)
  | 0, _ => none
  | fuel + 1, tokens => do
      let (a, tokens) <- conjunction fuel tokens
      match tokens with
      | .word "or" :: tokens => do
          let (b, tokens) <- disjunction fuel tokens
          some (.either a b, tokens)
      | tokens => some (a, tokens)

/-- Terms joined by `and`. -/
def conjunction : Nat -> List Token -> Option (Term × List Token)
  | 0, _ => none
  | fuel + 1, tokens => do
      let (a, tokens) <- inversion fuel tokens
      match tokens with
      | .word "and" :: tokens => do
          let (b, tokens) <- conjunction fuel tokens
          some (.both a b, tokens)
      | tokens => some (a, tokens)

/-- A term with any number of `not` in front. -/
def inversion : Nat -> List Token -> Option (Term × List Token)
  | 0, _ => none
  | fuel + 1, .word "not" :: tokens => do
      let (t, tokens) <- inversion fuel tokens
      some (.negation t, tokens)
  | fuel + 1, tokens => do
      let (first, tokens) <- climb fuel 0 tokens
      let (links, rest, tokens) <- chain fuel tokens
      if links.isEmpty then some (first, tokens) else some (.compare first links rest, tokens)

/-- The comparisons behind a term. -/
def chain : Nat -> List Token -> Option (List Comparison × List Term × List Token)
  | 0, _ => none
  | fuel + 1, tokens =>
      match comparison? tokens with
      | none => some ([], [], tokens)
      | some (link, tokens) => do
          let (t, tokens) <- climb fuel 0 tokens
          let (links, rest, tokens) <- chain fuel tokens
          some (link :: links, t :: rest, tokens)

/-- A term of the given precedence level or tighter. -/
def climb : Nat -> Nat -> List Token -> Option (Term × List Token)
  | 0, _, _ => none
  | fuel + 1, level, tokens =>
      if 6 ≤ level then factor fuel tokens
      else do
        let (a, tokens) <- climb fuel (level + 1) tokens
        climbRest fuel level a tokens

/-- The operators of a level behind a term, grouped to the left. -/
def climbRest : Nat -> Nat -> Term -> List Token -> Option (Term × List Token)
  | 0, _, _, _ => none
  | fuel + 1, level, a, tokens =>
      match tokens with
      | .op sign :: rest =>
          match binaryAt level sign with
          | some f => do
              let (b, rest) <- climb fuel (level + 1) rest
              climbRest fuel level (.binary f a b) rest
          | none => some (a, tokens)
      | tokens => some (a, tokens)

/-- A term with signs in front, or a power. -/
def factor : Nat -> List Token -> Option (Term × List Token)
  | 0, _ => none
  | fuel + 1, .op "-" :: tokens => do
      let (t, tokens) <- factor fuel tokens
      some (.unary .neg t, tokens)
  | fuel + 1, .op "+" :: tokens => do
      let (t, tokens) <- factor fuel tokens
      some (.unary .pos t, tokens)
  | fuel + 1, .op "~" :: tokens => do
      let (t, tokens) <- factor fuel tokens
      some (.unary .invert t, tokens)
  | fuel + 1, tokens => do
      let (a, tokens) <- atom fuel tokens
      let (a, tokens) <- trailers fuel a tokens
      match tokens with
      | .op "**" :: tokens => do
          let (b, tokens) <- factor fuel tokens
          some (.binary .pow a b, tokens)
      | tokens => some (a, tokens)

/-- A name, a literal, or a term in brackets. -/
def atom : Nat -> List Token -> Option (Term × List Token)
  | 0, _ => none
  | fuel + 1, tokens =>
      match tokens with
      | .name s :: tokens => some (.name s, tokens)
      | .word "None" :: tokens => some (.value .none, tokens)
      | .word "True" :: tokens => some (.value (.bool true), tokens)
      | .word "False" :: tokens => some (.value (.bool false), tokens)
      | .word "__debug__" :: tokens => some (.value (.bool true), tokens)
      | .int n :: tokens => some (.value (.int (Int.ofNat n)), tokens)
      | .real x :: tokens => some (.value (.real x), tokens)
      | .str s :: tokens =>
          let (text, tokens) := joinTexts (.str s :: tokens)
          some (.value (.str text), tokens)
      | .op "(" :: .op ")" :: tokens => some (.tuple [], tokens)
      | .op "(" :: tokens => do
          let (t, tokens) <- exprList fuel tokens
          match tokens with
          | .op ")" :: tokens => some (t, tokens)
          | _ => none
      | .op "[" :: .op "]" :: tokens => some (.list [], tokens)
      | .op "[" :: tokens => do
          let (first, tokens) <- expr fuel tokens
          match tokens with
          | .word "for" :: tokens => do
              let (t, tokens) <- gathering fuel first tokens
              match tokens with
              | .op "]" :: tokens => some (t, tokens)
              | _ => none
          | tokens => do
              let (rest, _, tokens) <- more fuel tokens
              match tokens with
              | .op "]" :: tokens => some (.list (first :: rest), tokens)
              | _ => none
      | _ => none

/-- What follows `for` in a gathering list. -/
def gathering : Nat -> Term -> List Token -> Option (Term × List Token)
  | 0, _, _ => none
  | fuel + 1, body, tokens => do
      let (pattern, tokens) <- pattern? tokens
      let (source, tokens) <- disjunction fuel tokens
      let (tests, tokens) <- conditions fuel tokens
      some (.gather body pattern source tests, tokens)

/-- The tests of a gathering list. -/
def conditions : Nat -> List Token -> Option (List Term × List Token)
  | 0, _ => none
  | fuel + 1, .word "if" :: tokens => do
      let (t, tokens) <- disjunction fuel tokens
      let (rest, tokens) <- conditions fuel tokens
      some (t :: rest, tokens)
  | _ + 1, tokens => some ([], tokens)

/-- Further terms, each behind a comma, with a comma allowed at the end. The flag says
whether there was any comma. -/
def more : Nat -> List Token -> Option (List Term × Bool × List Token)
  | 0, _ => none
  | fuel + 1, .op "," :: tokens =>
      match expr fuel tokens with
      | some (t, tokens) => do
          let (rest, _, tokens) <- more fuel tokens
          some (t :: rest, true, tokens)
      | none => some ([], true, tokens)
  | _ + 1, tokens => some ([], false, tokens)

/-- One term, or a tuple of terms with commas between them. -/
def exprList : Nat -> List Token -> Option (Term × List Token)
  | 0, _ => none
  | fuel + 1, tokens => do
      let (first, tokens) <- expr fuel tokens
      let (rest, comma, tokens) <- more fuel tokens
      some (if comma then .tuple (first :: rest) else first, tokens)

/-- The calls and index brackets behind a term. -/
def trailers : Nat -> Term -> List Token -> Option (Term × List Token)
  | 0, _, _ => none
  | fuel + 1, t, .op "(" :: tokens => do
      let (args, names, named, tokens) <- arguments fuel tokens
      trailers fuel (.call t args names named) tokens
  | fuel + 1, t, .op "[" :: tokens => do
      let (t, tokens) <- subscript fuel t tokens
      trailers fuel t tokens
  | _ + 1, _, .op "." :: _ => none
  | _ + 1, t, tokens => some (t, tokens)

/-- The arguments of a call up to its closing bracket. -/
def arguments : Nat -> List Token ->
    Option (List Term × List String × List Term × List Token)
  | 0, _ => none
  | _ + 1, .op ")" :: tokens => some ([], [], [], tokens)
  | fuel + 1, .name s :: .op "=" :: tokens => do
      let (t, tokens) <- expr fuel tokens
      let (args, names, named, tokens) <- argumentsRest fuel tokens
      if args.isEmpty && !names.contains s then some ([], s :: names, t :: named, tokens)
      else none
  | fuel + 1, tokens => do
      let (t, tokens) <- expr fuel tokens
      match tokens with
      | .word "for" :: tokens => do
          let (t, tokens) <- gathering fuel t tokens
          match tokens with
          | .op ")" :: tokens => some ([t], [], [], tokens)
          | _ => none
      | tokens => do
          let (args, names, named, tokens) <- argumentsRest fuel tokens
          some (t :: args, names, named, tokens)

/-- The arguments of a call behind the first one. -/
def argumentsRest : Nat -> List Token ->
    Option (List Term × List String × List Term × List Token)
  | 0, _ => none
  | _ + 1, .op ")" :: tokens => some ([], [], [], tokens)
  | fuel + 1, .op "," :: tokens => arguments fuel tokens
  | _ + 1, _ => none

/-- What stands between index brackets: an index, several indices, or a slice. -/
def subscript : Nat -> Term -> List Token -> Option (Term × List Token)
  | 0, _, _ => none
  | fuel + 1, t, tokens => do
      let (first, tokens) <- bound fuel tokens
      match tokens with
      | .op ":" :: tokens => do
          let (last, tokens) <- bound fuel tokens
          let (step, tokens) <- match tokens with
            | .op ":" :: tokens => bound fuel tokens
            | tokens => some (none, tokens)
          match tokens with
          | .op "]" :: tokens =>
              some (.slice t (first.getD absent) (last.getD absent) (step.getD absent), tokens)
          | _ => none
      | tokens => do
          let first <- first
          let (rest, comma, tokens) <- more fuel tokens
          match tokens with
          | .op "]" :: tokens =>
              some (.item t (if comma then .tuple (first :: rest) else first), tokens)
          | _ => none

/-- A term, or nothing before a colon or a closing bracket. -/
def bound : Nat -> List Token -> Option (Option Term × List Token)
  | 0, _ => none
  | _ + 1, .op ":" :: tokens => some (none, .op ":" :: tokens)
  | _ + 1, .op "]" :: tokens => some (none, .op "]" :: tokens)
  | fuel + 1, tokens => do
      let (t, tokens) <- expr fuel tokens
      some (some t, tokens)

end

/-- Enough steps to read any list of tokens: every token is passed by at most a fixed
number of nested levels. -/
def fuelFor (tokens : List Token) : Nat :=
  24 * (tokens.length + 1)

/-- The term that a list of tokens denotes; line ends may follow it. -/
def ofTokens? (tokens : List Token) : Option Term := do
  let (t, rest) <- exprList (fuelFor tokens) tokens
  let isNewline := fun (token : Token) => match token with
    | .newline => true
    | _ => false
  if rest.all isNewline then some t else none

/-- The term that a text denotes; spaces and tabs in front of it are allowed. -/
def parse? (text : String) : Option Term := do
  let tokens <- Token.scan (text.toList.dropWhile fun c => c == ' ' || c == '\t')
  ofTokens? tokens

end Term

/-- A statement of an assignment text: the names it assigns, in order, and the term whose
value they get. A term without names is only evaluated. -/
structure Assignment where
  names : List String
  term : Term

namespace Assignment

/-- The names in front of a term, each followed by an equals sign. -/
def heads : List Token -> List String × List Token
  | .name s :: .op "=" :: tokens =>
      let (names, tokens) := heads tokens
      (s :: names, tokens)
  | tokens => ([], tokens)

/-- The statements of a list of tokens, which end at a semicolon or a line end. -/
def ofTokens? : Nat -> List Token -> Option (List Assignment)
  | 0, _ => none
  | _ + 1, [] => some []
  | fuel + 1, tokens => do
      let (names, tokens) := heads tokens
      let (term, rest) <- Term.exprList (Term.fuelFor tokens) tokens
      match rest with
      | [] => some [⟨names, term⟩]
      | .newline :: rest => do some (⟨names, term⟩ :: (<- ofTokens? fuel rest))
      | .op ";" :: .newline :: rest => do some (⟨names, term⟩ :: (<- ofTokens? fuel rest))
      | .op ";" :: rest => do some (⟨names, term⟩ :: (<- ofTokens? fuel rest))
      | _ => none

/-- The statements of a text. -/
def parse? (text : String) : Option (List Assignment) := do
  let tokens <- Token.scan text.toList
  ofTokens? (tokens.length + 1) tokens

end Assignment

end QuantFamily.Expr
