import QuantFamily.Request

/-!
# Command line

Arguments are a definition file, a values file, and options. An output option may be
followed by a file name; without one its output goes to the screen.
-/

namespace QuantFamily

namespace Request

/-- An output option that waits for its destination goes to the screen. -/
def settle (request : Request) : Option OutputForm -> Request
  | some form => { request with outputs := request.outputs ++ [(form, screen)] }
  | none => request

/-- Take over options from left to right. The form is that of an output option whose
destination may follow. -/
def addOptions (request : Request) (waiting : Option OutputForm) :
    List String -> Except Fault Request
  | [] => .ok (request.settle waiting)
  | "-internal" :: rest => { request with listed := true }.addOptions waiting rest
  | "-verbose" :: rest => { request with verbose := true }.addOptions waiting rest
  | argument :: rest =>
      match OutputForm.ofOption? argument, waiting with
      | some form, waiting => (request.settle waiting).addOptions (some form) rest
      | none, some form =>
          { request with outputs := request.outputs ++ [(form, argument)] }.addOptions none rest
      | none, none => .error (.strayArgument argument)

/-- The request that arguments describe. -/
def ofArguments : List String -> Except Fault Request
  | definition :: values :: options => do
      let request <- ({ definition, values } : Request).addOptions none options
      if request.outputs.isEmpty && !request.listed then throw .noOutputs
      return request
  | _ => .error .missingItem

end Request

/-- The options that ask for help. -/
def helpOptions : List String := ["-help", "--help", "-h", "--h"]

/-- The inputs that an edition takes, as its help names them. -/
def Edition.inputWords (edition : Edition) : String :=
  if edition.isExtended then "definition_file values_file" else "input_file"

/-- The options as the help names them. -/
def optionWords : String :=
  "[-internal] [-QDIMACS \x7bfile.qdimacs | [-stdIO]\x7d] [-QCIR \x7bfile.QCIR | [-stdIO]\x7d] " ++
    "[-non-prenex-QCIR \x7bfile.QCIR | [-stdIO]\x7d]"

namespace Action

/-- Print the help. -/
def help (edition : Edition) : Action Unit := do
  say ""
  say "Input should be of the form:"
  say ""
  say ("python main.py " ++ edition.inputWords ++ " " ++ optionWords)
  say ""

/-- Do what the arguments ask for. -/
def obey (edition : Edition) (arguments : List String) : Action Unit :=
  match arguments with
  | [] => say "Missing arguments!"
  | arguments =>
      if 10 < arguments.length then say "Too many arguments!"
      else if arguments.length = 1 && arguments.all helpOptions.contains then help edition
      else do
        let request <- lift (Request.ofArguments arguments)
        serve edition request

end Action

end QuantFamily
