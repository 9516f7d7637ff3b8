import QuantFamily.Language.Interpret
import QuantFamily.Output.Clauses
import QuantFamily.Text.Line

/-!
# Requests

A request names the texts of a formula and the outputs that are wanted of it. The values
are read before the definition, into one formula; then the outputs are written in their
order.
-/

namespace QuantFamily

/-- The forms of output. -/
inductive OutputForm where
  | circuit
  | clauses
  | nestedCircuit
deriving DecidableEq

/-- The option that asks for a form. -/
def OutputForm.option : OutputForm -> String
  | .circuit => "-QCIR"
  | .clauses => "-QDIMACS"
  | .nestedCircuit => "-non-prenex-QCIR"

/-- The form that an option asks for. -/
def OutputForm.ofOption? (option : String) : Option OutputForm :=
  [circuit, clauses, nestedCircuit].find? fun form => form.option = option

/-- The destination that stands for the screen. -/
def screen : String := "-stdIO"

/-- A request for outputs. -/
structure Request where
  definition : String
  values : String
  verbose : Bool := false
  /-- Whether the formula is listed before all outputs. -/
  listed : Bool := false
  outputs : List (OutputForm × String) := []

namespace Action

/-- The text of a file, with its line breaks in one spelling. -/
def readFile? (name : String) : Action (Option String) := do
  return ((<- get).files.get? name).map fun text =>
    String.ofList (Text.unifyBreaks text.toList)

/-- Let a text take effect. Every fault that has no report of its own counts as a text
that cannot be read. A text that leaves the language is reported after the statement
before that place has been probed, whose own faults come first. -/
def readSource (edition : Edition) (verbose : Bool) (source : Source) (text : String) :
    Action Unit := do
  let stop <- tryCatch (Language.interpret edition verbose text) fun fault =>
    match fault.report? with
    | some _ => throw fault
    | none => throw (.unreadable source none)
  match stop with
  | some stop => do
      stop.probe edition verbose
      throw (.unreadable source (some stop.place))
  | none => pure ()

/-- Read a file of a request into the formula. -/
def load (edition : Edition) (verbose : Bool) (source : Source) (file : String) :
    Action Unit := do
  match <- readFile? file with
  | some text => readSource edition verbose source text
  | none => throw (.missingInput source file)

/-- The text of an output, if the formula has one in this form. -/
def outputText (edition : Edition) : OutputForm -> Action (Option String)
  | .circuit => circuitText edition
  | .clauses => clauseText edition
  | .nestedCircuit => do return some (<- nestedText)

/-- Whether a file can be created under a name. All files lie in one directory. -/
def isUsableName (name : String) : Bool :=
  !name.isEmpty && !name.toList.contains '/'

/-- Put out a text. On the screen a missing text is named as such; a file is created
before its text is written. -/
def deliver (destination : String) (text : Option String) : Action Unit := do
  if destination = screen then
    say ""
    say (text.getD "None")
    say ""
  else if isUsableName destination then
    writeFile destination ""
    writeFile destination (<- orElse .unsuitableValue text)
  else throw .unusableFileName

/-- Print the listing of the formula. -/
def list : Action Unit := do
  say (<- lift (<- formula).listing)

/-- Serve a request. -/
def serve (edition : Edition) (request : Request) : Action Unit := do
  load edition request.verbose .values request.values
  load edition request.verbose .definition request.definition
  if request.listed then list
  request.outputs.forM fun output => do
    deliver output.2 (<- outputText edition output.1)

end Action

end QuantFamily
