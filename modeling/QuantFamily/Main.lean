import QuantFamily.CommandLine

/-!
# The program

Reads the files that the arguments name, does what they ask for, prints what was said on
the way and writes the files that changed.
-/

namespace QuantFamily

/-- The text of a file, if it can be read. -/
def loadFile (name : String) : IO (Option (String × String)) := do
  try
    let text <- IO.FS.readFile name
    return some (name, text)
  catch _ => return none

/-- Obey the arguments in the working directory. A fault without a report is one of the
program and not of its input, and shows in the exit code. -/
def runProgram (arguments : List String) : IO UInt32 := do
  let found <- (arguments.take 2).filterMapM loadFile
  let before := Table.ofList found
  let (outcome, session) := (Action.obey .full arguments).settle { files := before }
  IO.print session.transcript
  for (name, text) in session.files.entries do
    if before.get? name != some text then IO.FS.writeFile name text
  match outcome with
  | .ok _ => return 0
  | .error fault => return if fault.report?.isSome then 0 else 1

end QuantFamily

/-- The entry point. -/
def main (arguments : List String) : IO UInt32 :=
  QuantFamily.runProgram arguments
