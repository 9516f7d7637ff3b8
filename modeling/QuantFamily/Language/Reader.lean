import QuantFamily.Language.Statement
import QuantFamily.Language.Terminal

/-!
# Reading the definition language

A text is read from left to right, and what is acceptable at each place depends only on
what has been read. A statement counts as read when the terminal after it has been read
too and can follow it. Reading stops at the first place where nothing acceptable matches;
the statements read up to then remain.
-/

namespace QuantFamily.Language

/-- A terminal as it stands in a text. -/
structure Lexeme where
  terminal : Terminal
  text : List Char
  /-- Where it begins. -/
  place : Cursor

/-- How far a text has been read. -/
structure Progress where
  cursor : Cursor
  /-- The terminals read so far, latest first. -/
  lexemes : List Lexeme := []
  /-- The statements read so far, latest first. -/
  done : List Statement := []
  /-- A statement that waits for the terminal after it. -/
  pending : Option Statement := none

/-- The line and column of the last terminal. -/
def Progress.last (progress : Progress) : Nat × Nat :=
  match progress.lexemes with
  | lexeme :: _ => lexeme.place.position
  | [] => (1, 1)

/-- A step of reading. It fails with the place of the first terminal that does not fit. -/
abbrev Reading := EStateM (Nat × Nat) Progress

namespace Reading

/-- The first acceptable terminal that matches, with its text. -/
def firstMatch (edition : Edition) (text : List Char) : List Terminal ->
    Option (Terminal × List Char)
  | [] => none
  | terminal :: others =>
      match terminal.lexeme? edition text with
      | some lexeme => some (terminal, lexeme)
      | none => firstMatch edition text others

/-- Read one of the acceptable terminals. A statement that waits is read with it. -/
def next (edition : Edition) (acceptable : List Terminal) : Reading (Terminal × String) := do
  let progress <- get
  let cursor := progress.cursor.settle
  match firstMatch edition cursor.rest acceptable with
  | some (terminal, lexeme) =>
      set { cursor := cursor.skip lexeme.length
            lexemes :=
              if terminal = .finish then progress.lexemes
              else ⟨terminal, lexeme, cursor⟩ :: progress.lexemes
            done := progress.pending.toList ++ progress.done
            pending := none : Progress }
      return (terminal, String.ofList lexeme)
  | none => throw (if cursor.rest.isEmpty then progress.last else cursor.position)

/-- Read a terminal and keep its text. -/
def text (edition : Edition) (terminal : Terminal) : Reading String := do
  return (<- next edition [terminal]).2

/-- Read a fixed word. -/
def expect (edition : Edition) (word : String) : Reading Unit := do
  let _ <- next edition [.word word]

/-- Fail at the terminal that was read last. -/
def reject {α : Type} : Reading α := do
  throw (<- get).last

/-- Let a statement wait for the terminal after it. -/
def await (statement : Statement) : Reading Unit :=
  modify fun progress => { progress with pending := some statement }

/-- The opening brace. -/
def openBrace : String := "\x7b"

/-- The closing brace. -/
def closeBrace : String := "\x7d"

/-- The backquote around an expression. -/
def backquote : String := "\x60"

/-- Read an expression that goes on behind the terminal just read. -/
def expressionFrom (edition : Edition) (start : Terminal × String) : Reading String := do
  if start.1 = .word backquote then
    let code <- text edition .code
    expect edition backquote
    return code
  else return start.2

/-- Read an expression: a number, or code between backquotes. -/
def expression (edition : Edition) : Reading String := do
  expressionFrom edition (<- next edition [.number, .word backquote])

/-- Read a limit of a range. -/
def limit (edition : Edition) : Reading String := do
  expressionFrom edition (<- next edition [.name, .index, .number, .word backquote])

/-- Read the indices behind a first one, up to a closing word. -/
def indicesFrom (edition : Edition) (closing : String) : Nat -> List String ->
    Reading (List String)
  | 0, _ => reject
  | fuel + 1, found => do
      match <- next edition [.word closing, .word ","] with
      | (.word ",", _) => do
          let index <- text edition .index
          indicesFrom edition closing fuel (found ++ [index])
      | _ => return found

/-- The number of steps that any loop over what follows can take. -/
def bound : Reading Nat := do
  return (<- get).cursor.rest.length + 1

/-- Read the indices between round brackets, behind the opening one. -/
def bracketedIndices (edition : Edition) : Reading (List String) := do
  let index <- text edition .index
  indicesFrom edition ")" (<- bound) [index]

/-- Read a range of indices of which the first has been read. -/
def rangesFrom (edition : Edition) (indices : List String) : Reading (List Condition) := do
  let low <- limit edition
  expect edition ".."
  let high <- limit edition
  return indices.map fun index => .range index low high

/-- Read the ranges of a variable, up to the semicolon. -/
def variableRanges (edition : Edition) : Nat -> List Condition -> Reading (List Condition)
  | 0, _ => reject
  | fuel + 1, found => do
      let index <- text edition .index
      let indices <- indicesFrom edition "in" (<- bound) [index]
      let found := found ++ (<- rangesFrom edition indices)
      match <- next edition [.word ",", .word ";"] with
      | (.word ",", _) => variableRanges edition fuel found
      | _ => return found

/-- Read a condition of a definition. -/
def condition (edition : Edition) : Reading (List Condition) := do
  match <- next edition [.index, .number, .word backquote] with
  | (.index, index) => do
      match <- next edition [.word "in", .word "=", .word ","] with
      | (.word "=", _) => do
          let value <- expression edition
          return [.range index value value]
      | (.word ",", _) => do
          let second <- text edition .index
          let indices <- indicesFrom edition "in" (<- bound) [index, second]
          rangesFrom edition indices
      | _ => rangesFrom edition [index]
  | start => do
      return [.test (<- expressionFrom edition start)]

/-- Read conditions up to the semicolon. -/
def conditions (edition : Edition) : Nat -> List Condition -> Reading (List Condition)
  | 0, _ => reject
  | fuel + 1, found => do
      let found := found ++ (<- condition edition)
      match <- next edition [.word ",", .word ";"] with
      | (.word ",", _) => conditions edition fuel found
      | _ => return found

/-- Read the indices of a name, if it has any, and the word after it. -/
def indicesAnd (edition : Edition) (words : List String) :
    Reading (List String × Terminal) := do
  let words := words.map Terminal.word
  match <- next edition (words ++ [.word "("]) with
  | (.word "(", _) => do
      let indices <- bracketedIndices edition
      return (indices, (<- next edition words).1)
  | (found, _) => return ([], found)

/-- Read a brick and the word after it. -/
def brick (edition : Edition) : Reading (Brick × Terminal) := do
  let reference := fun (negated : Bool) (name : String) => do
    let (indices, found) <- indicesAnd edition [",", ";"]
    return (Brick.ref negated name indices, found)
  match <- next edition [.name, .blockName, .word groupingWords, .negation] with
  | (.word _, _) => do
      let grouping <- text edition .blockName
      let (found, _) <- next edition [.word ",", .word ";"]
      return (.all grouping, found)
  | (.negation, _) => do
      let (_, name) <- next edition [.name, .blockName]
      reference true name
  | (_, name) => reference false name

/-- Read bricks up to the semicolon. -/
def bricks (edition : Edition) : Nat -> List Brick -> Reading (List Brick)
  | 0, _ => reject
  | fuel + 1, found => do
      let (brick, stop) <- brick edition
      if stop = .word "," then bricks edition fuel (found ++ [brick])
      else return found ++ [brick]

/-- Read the definition of a block whose name has been read. -/
def definition (edition : Edition) (name : String) : Reading Definition := do
  let (indices, _) <- indicesAnd edition [":="]
  let bricks <- bricks edition (<- bound) []
  return { name, indices, bricks }

/-- Read definitions up to the closing brace. -/
def definitions (edition : Edition) : Nat -> List Definition -> Reading (List Definition)
  | 0, _ => reject
  | fuel + 1, found => do
      match <- next edition [.blockName, .word closeBrace] with
      | (.blockName, name) => do
          definitions edition fuel (found ++ [<- definition edition name])
      | _ => return found

/-- Read the definitions of several blocks. -/
def severalBlocks (edition : Edition) : Reading Statement := do
  let grouping <- do
    match <- next edition [.word "grouped in", .word openBrace] with
    | (.word "grouped in", _) => do
        let name <- text edition .blockName
        expect edition openBrace
        pure (some name)
    | _ => pure none
  let first <- text edition .blockName
  let found <- definitions edition (<- bound) [<- definition edition first]
  match <- next edition [.word "where", .word ";"] with
  | (.word "where", _) => return .blocks found (<- conditions edition (<- bound) []) grouping
  | _ => return .blocks found [] grouping

/-- The words before an attribute, and the attribute they announce. -/
def attributeWords : List (String × Terminal) :=
  [("quantified with", .quantifier), ("operated with", .operator)]

/-- Read the sign of an attribute whose words have been read, and the semicolon. -/
def attributeSign (edition : Edition) (words : Terminal) : Reading String := do
  let sign := match attributeWords.find? fun entry => words = .word entry.1 with
    | some entry => entry.2
    | none => .operator
  let sign <- text edition sign
  expect edition ";"
  return sign

/-- Read further blocks of an attribute, and the words before the attribute. -/
def furtherBlocks (edition : Edition) : Nat -> List (String × List String) ->
    Reading (List (String × List String) × Terminal)
  | 0, _ => reject
  | fuel + 1, found => do
      let name <- text edition .blockName
      let (indices, stop) <- indicesAnd edition (attributeWords.map (·.1) ++ [","])
      let found := found ++ [(name, indices)]
      if stop = .word "," then furtherBlocks edition fuel found else return (found, stop)

/-- Read a statement of the part with blocks, whose first words have been read. -/
def blockStatement (edition : Edition) : Terminal -> Reading Statement
  | .word "define block" => do
      let name <- text edition .blockName
      return .blocks [<- definition edition name] [] none
  | .word "define blocks" => severalBlocks edition
  | .word "block" => do
      let name <- text edition .blockName
      let (indices, words) <- indicesAnd edition (attributeWords.map (·.1))
      return .mark [(name, indices)] (<- attributeSign edition words)
  | .word "blocks" => do
      let name <- text edition .blockName
      let (indices, _) <- indicesAnd edition [","]
      let (found, words) <- furtherBlocks edition (<- bound) [(name, indices)]
      return .mark found (<- attributeSign edition words)
  | _ => do
      let grouping <- text edition .blockName
      let (words, _) <- next edition (attributeWords.map fun entry => .word entry.1)
      return .markGrouping grouping (<- attributeSign edition words)

/-- The words that begin a statement of the part with blocks, and the closing brace. -/
def blockWords : List Terminal :=
  [.word groupingWords, .word "define blocks", .word "define block", .word "blocks",
   .word "block", .word closeBrace]

/-- Read the statements of the part with blocks up to the closing brace. -/
def blockStatements (edition : Edition) : Nat -> Reading Unit
  | 0 => reject
  | fuel + 1 => do
      match <- next edition blockWords with
      | (.word "\x7d", _) => return
      | (start, _) => do
          await (<- blockStatement edition start)
          blockStatements edition fuel

/-- Read the part with blocks: a definition, and at least one more statement. -/
def blockPart (edition : Edition) : Reading Unit := do
  expect edition openBrace
  let (start, _) <- next edition [.word "define blocks", .word "define block"]
  await (<- blockStatement edition start)
  match <- next edition blockWords with
  | (.word "\x7d", _) => reject
  | (start, _) => do
      await (<- blockStatement edition start)
      blockStatements edition (<- bound)

/-- Read the constraints of a parameter up to the semicolon. -/
def constraints (edition : Edition) : Nat -> List String -> Reading (List String)
  | 0, _ => reject
  | fuel + 1, found => do
      match <- next edition [.word ",", .word ";"] with
      | (.word ",", _) => constraints edition fuel (found ++ [<- expression edition])
      | _ => return found

/-- Read a parameter whose name has been read. -/
def parameter (edition : Edition) (name : String) : Reading Statement := do
  expect edition ":"
  let kind <- text edition .kind
  return .parameter name kind (<- constraints edition (<- bound) [])

/-- Read a variable whose name has been read. -/
def vars (edition : Edition) (name : String) : Reading Statement := do
  match <- next edition [.word "(", .word ";"] with
  | (.word "(", _) => do
      let indices <- bracketedIndices edition
      match <- next edition [.word "where", .word ";"] with
      | (.word "where", _) =>
          return .vars name indices (<- variableRanges edition (<- bound) [])
      | _ => return .vars name indices []
  | _ => return .vars name [] []

/-- Read declarations up to the closing brace. -/
def declarations (edition : Edition) (declaration : String -> Reading Statement) :
    Nat -> Reading Unit
  | 0 => reject
  | fuel + 1 => do
      match <- next edition [.name, .word closeBrace] with
      | (.name, name) => do
          await (<- declaration name)
          declarations edition declaration fuel
      | _ => return

/-- Read a part with at least one declaration. -/
def declarationPart (edition : Edition) (declaration : String -> Reading Statement) :
    Reading Unit := do
  expect edition openBrace
  let name <- text edition .name
  await (<- declaration name)
  declarations edition declaration (<- bound)

/-- Read the definition of a family behind its first word. -/
def family (edition : Edition) : Reading Unit := do
  let name <- text edition .familyName
  expect edition ";"
  await (.family name)
  expect edition "format:"
  let format <- text edition .format
  expect edition ";"
  await (.format format)
  match <- next edition [.word "parameters:", .word "variables:"] with
  | (.word "parameters:", _) => do
      declarationPart edition (parameter edition)
      expect edition "variables:"
  | _ => pure ()
  declarationPart edition (vars edition)
  expect edition "blocks:"
  blockPart edition
  expect edition "output block:"
  let output <- text edition .blockName
  let (indices, _) <- indicesAnd edition [";"]
  await (.output output indices)
  let _ <- next edition [.finish]

/-- Read values, and perhaps the definition of a family, up to the end of the text. -/
def whole (edition : Edition) : Nat -> Reading Unit
  | 0 => reject
  | fuel + 1 => do
      match <- next edition [.word "value:", .word "name:", .finish] with
      | (.word "value:", _) => do
          let name <- text edition .name
          expect edition "="
          let value <- expression edition
          expect edition ";"
          await (.value name value)
          whole edition fuel
      | (.finish, _) => return
      | _ => family edition

end Reading

/-- Where reading stopped, and the statement before that place if it was complete but for
the terminal after it. -/
structure Stop where
  place : Nat × Nat
  waiting : Option Statement := none
deriving DecidableEq

/-- What reading a text gives: the statements read, and where reading stopped if the text
does not belong to the language. -/
structure Script where
  statements : List Statement
  stop : Option Stop
deriving DecidableEq

/-- Read a text. -/
def Script.read (edition : Edition) (text : String) : Script :=
  let chars := text.toList
  match (Reading.whole edition (chars.length + 1)).run { cursor := { rest := chars } } with
  | .ok _ progress => { statements := progress.done.reverse, stop := none }
  | .error place progress =>
      { statements := progress.done.reverse, stop := some ⟨place, progress.pending⟩ }

end QuantFamily.Language
