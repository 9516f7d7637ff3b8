import QuantFamily.Circuit.Simplify
import QuantFamily.Text.Line

/-!
# Reading circuits

A circuit text has comment lines, quantifier blocks from the outermost to the innermost,
one output line, and gate lines, each using only variables and gates of earlier lines.
Quantified variables are numbered from one: a name that is a small enough number keeps it,
the others take the least free numbers in their order.
-/

namespace QuantFamily.Circuit

/-- How the variables of a block are bound. Words that bind nothing are kept as they
are. -/
inductive Binder where
  | exists
  | forall
  | free
  | unknown (word : String)
deriving DecidableEq

/-- The word of a binder. -/
def Binder.word : Binder -> String
  | .exists => "exists"
  | .forall => "forall"
  | .free => "free"
  | .unknown word => word

/-- The binder with a given word. -/
def Binder.ofWord : String -> Binder
  | "exists" => .exists
  | "forall" => .forall
  | "free" => .free
  | word => .unknown word

/-- A quantifier block. -/
structure Scope where
  binder : Binder
  vars : List Int
deriving DecidableEq

/-- A circuit that has been read, with the names its variables and gates had. -/
structure Document where
  scopes : List Scope
  output : Circuit
  variableNames : Table Nat String
  gateNames : Table Circuit (List String)

namespace Reader

/-- Whether a character may stand in a name. -/
def isNameChar (c : Char) : Bool :=
  c.isAlphanum || c = '_'

/-- Whether a text is a name. -/
def isName (text : List Char) : Bool :=
  !text.isEmpty && text.all isNameChar

/-- The items of a list that is separated by commas or white space. -/
def items (text : List Char) : List (List Char) :=
  Text.words (text.map fun c => if c = ',' then ' ' else c)

/-- One or more spaces, and what follows them. -/
def spaces? : List Char -> Option (List Char)
  | ' ' :: rest => some (rest.dropWhile (· = ' '))
  | _ => none

/-- A run of characters of a class, which must not be empty, and what follows it. -/
def run? (class? : Char -> Bool) (text : List Char) : Option (List Char × List Char) :=
  match text.takeWhile class? with
  | [] => none
  | run => some (run, text.dropWhile class?)

/-- Whether a character may stand in the name that a comment gives to a variable. -/
def isGivenNameChar (c : Char) : Bool :=
  decide ('*' ≤ c) && decide (c ≤ 'z')

/-- A comment that gives a name to the variable of a number. -/
def givenName? (line : List Char) : Option (Nat × String) := do
  let rest <- spaces? (<- Text.dropStart? "#VarName".toList line)
  let (digits, rest) <- run? Char.isDigit rest
  match rest.dropWhile Text.isBlank with
  | ':' :: rest =>
      let name := rest.dropWhile Text.isBlank
      if !name.isEmpty && name.all isGivenNameChar then
        some ((<- Text.readDigits 10 digits false 0), String.ofList name)
      else none
  | _ => none

/-- Read the comments that give names, up to the first line that is not a comment. -/
def givenNames : List (Nat × List Char) -> Table Nat String ->
    Except Fault (Table Nat String × List (Nat × List Char))
  | [], names => .ok (names, [])
  | (number, line) :: rest, names =>
      let text := Text.trim line
      if Text.startsWith "#VarName ".toList text then
        match givenName? text with
        | some (index, name) => givenNames rest (names.put index name)
        | none => .error (.line number .variableName)
      else if text.isEmpty || text.head? = some '#' then givenNames rest names
      else .ok (names, (number, line) :: rest)

/-- A word followed by something in round brackets that end the line. -/
def bracketed? (line : List Char) : Option (String × List Char) := do
  let (word, rest) <- run? Char.isAlpha line
  match rest with
  | '(' :: inner =>
      if inner.getLast? = some ')' then some ((String.ofList word).toLower, inner.dropLast)
      else none
  | _ => none

/-- Whether a text is a literal. -/
def isLiteral : List Char -> Bool
  | '-' :: rest => isName rest
  | text => isName text

/-- The quantifier blocks by name, the output literal, and the lines after it. -/
structure Heading where
  scopes : List (Binder × List String)
  output : List Char
  rest : List (Nat × List Char)

/-- Read quantifier blocks and the output line. The last number is that of the line after
the end of the text. -/
def heading (last : Nat) : List (Nat × List Char) -> List (Binder × List String) ->
    Except Fault Heading
  | [], _ => .error (.line last .quantifierExpected)
  | (number, line) :: rest, scopes =>
      let text := Text.trim line
      if text.isEmpty || text.head? = some '#' then heading last rest scopes
      else
        match bracketed? text with
        | none => .error (.line number .quantifierExpected)
        | some ("output", inner) =>
            if isLiteral inner then .ok { scopes := scopes, output := inner, rest := rest }
            else .error (.line number (.outputLiteral (String.ofList inner)))
        | some (word, inner) =>
            match Binder.ofWord word with
            | .unknown word => .error (.line number (.unknownToken word))
            | binder =>
                if binder = .free ∧ scopes ≠ [] then .error (.line number .freeNotFirst)
                else
                  let names := items inner
                  match names.find? fun name => !isName name with
                  | some name => .error (.line number (.variableText (String.ofList name)))
                  | none => heading last rest (scopes ++ [(binder, names.map String.ofList)])

/-- Variables with their numbers, and the numbers that are still free. -/
structure Allotment where
  numbers : Table String Int := {}
  free : List Int

/-- A name that is a number within the given bound keeps it. -/
def keepNumber (bound : Nat) (a : Allotment) (name : String) : Except Fault Allotment :=
  match Text.readInt? name.toList with
  | none => .ok a
  | some n =>
      if n > bound then .ok a
      else if n ∈ a.free then
        .ok { numbers := a.numbers.put name n, free := a.free.filter (· ≠ n) }
      else .error .missingEntry

/-- A name without a number takes the least free one. -/
def takeNumber (a : Allotment) (name : String) : Except Fault Allotment :=
  if a.numbers.contains name then .ok a
  else
    match a.free with
    | [] => .error .missingEntry
    | n :: free => .ok { numbers := a.numbers.put name n, free := free }

/-- The numbers of variables that are given in the order of their blocks. -/
def allot (names : List String) : Except Fault (Table String Int) := do
  let free := (List.range names.length).map fun n => Int.ofNat (n + 1)
  let a <- names.foldlM (keepNumber names.length) { free := free }
  let a <- names.foldlM takeNumber a
  return a.numbers

/-- The names of numbers, in ascending order of the numbers. -/
def namesByNumber (numbers : Table String Int) : Table Nat String :=
  Table.ofList ((numbers.entries.map fun entry => (entry.2.toNat, entry.1)).mergeSort
    fun a b => decide (a.1 ≤ b.1))

/-- Let a comment rename a variable whose name is its number. Comments about other
variables count for nothing. -/
def rename (vars : List String) (names : Table Nat String) (given : Nat × String) :
    Except Fault (Table Nat String) :=
  let number := Nat.repr given.1
  if number ∈ vars then
    match names.get? given.1 with
    | none => .error .missingEntry
    | some name =>
        if name = number then .ok (names.put given.1 given.2) else .error .failedCheck
  else .ok names

/-- What names stand for: numbered variables, and gates. -/
structure Known where
  vars : Table String Int
  gates : Table String Circuit := {}
  gateNames : Table Circuit (List String) := {}

/-- The circuit of a name; a variable hides a gate. -/
def Known.find (known : Known) (report : LineFault -> Fault) (name : List Char) :
    Except Fault Circuit :=
  let text := String.ofList name
  if isName name then
    match known.vars.get? text, known.gates.get? text with
    | some n, _ => .ok (.lit n)
    | none, some c => .ok c
    | none, none => .error (report (.undefined text))
  else .error (report (.variableText text))

/-- The circuit of a literal. Faults behind its sign are reported in a way of their
own. -/
def Known.literal (known : Known) (report inner : LineFault -> Fault) :
    List Char -> Except Fault Circuit
  | ['-'] => .error .missingItem
  | '-' :: '-' :: _ => .error (report .doubleNegation)
  | '-' :: name => (known.find inner name).map negate
  | name => known.find report name

/-- The text before the last closing bracket. -/
def beforeLastBracket? (text : List Char) : Option (List Char) :=
  match text.reverse.dropWhile (· ≠ ')') with
  | [] => none
  | _ :: inner => some inner.reverse

/-- The parts of a gate line: the gate, its kind and the list of its inputs. -/
def gateParts? (line : List Char) : Option (String × String × List Char) := do
  let (name, rest) <- run? isNameChar line
  match <- spaces? rest with
  | '=' :: rest =>
      let (kind, rest) <- run? Char.isAlpha (<- spaces? rest)
      match rest with
      | '(' :: inner =>
          some (String.ofList name, String.ofList kind, (<- beforeLastBracket? inner))
      | _ => none
  | _ => none

/-- Check the kind of a gate against the number of its inputs. -/
def checkKind (number : Nat) (kind : String) (count : Nat) : Except Fault Unit :=
  match kind with
  | "and" | "or" => .ok ()
  | "xor" => if count = 2 then .ok () else .error (.line number .parityInputs)
  | "ite" => if count = 3 then .ok () else .error (.line number .choiceInputs)
  | _ => .error (.unrecognizedOperator kind)

/-- Read a gate line. -/
def gate (known : Known) (number : Nat) (line : List Char) : Except Fault Known := do
  let some (name, kind, inner) := gateParts? line | .error (.line number .gateExpected)
  match (inner.filter (· = ';')).length with
  | 0 => pure ()
  | 1 => .error (.line number .quantifiedGate)
  | _ => .error (.line number .semicolons)
  let args := items inner
  checkKind number kind args.length
  if known.gates.contains name then .error (.line number .repeatedGate)
  let args <- args.mapM (known.literal (.line number) (.line number))
  let some circuit := ofWord? kind args | .error .failedCheck
  let names := (known.gateNames.get? circuit).getD []
  return { known with
    gates := known.gates.put name circuit
    gateNames := known.gateNames.put circuit (names ++ [name]) }

/-- Read the gate lines. -/
def gates : List (Nat × List Char) -> Known -> Except Fault Known
  | [], known => .ok known
  | (number, line) :: rest, known => do
      let text := Text.trim line
      if text.isEmpty || text.head? = some '#' then gates rest known
      else gates rest (<- gate known number line)

end Reader

/-- Read a circuit text. Comments that name variables are heeded or not. -/
def Document.read (heedNames : Bool) (text : String) : Except Fault Document := do
  let lines := Text.numberedLines (Text.unifyBreaks text.toList)
  let last := lines.length + 1
  let (given, lines) <-
    if heedNames then Reader.givenNames lines {} else .ok ({}, lines)
  let heading <- Reader.heading last lines []
  let vars := heading.scopes.flatMap (·.2)
  let numbers <- Reader.allot vars
  let names <- given.entries.foldlM (Reader.rename vars) (Reader.namesByNumber numbers)
  let scopes := heading.scopes.map fun scope =>
    { binder := scope.1, vars := scope.2.filterMap numbers.get? : Scope }
  let known <- Reader.gates heading.rest { vars := numbers }
  let output <- known.literal .outputLookup (.line last) heading.output
  return { scopes, output, variableNames := names, gateNames := known.gateNames }

end QuantFamily.Circuit
