import QuantFamily.Language.Reader
import QuantFamily.Output.Listing

/-!
# Interpreting texts

The statements of a text take effect one after the other. A text outside the language
still has the effect of the statements before the place where reading stopped.
-/

namespace QuantFamily.Language

/-- Let the statements of a text take effect, and return where reading stopped, if it did.
An edition that lists formulas does so at the end of the text. -/
def interpret (edition : Edition) (verbose : Bool) (text : String) :
    Action (Option Stop) := do
  let script := Script.read edition text
  script.statements.forM (Statement.perform edition verbose)
  match script.stop with
  | some stop => return some stop
  | none => do
      if edition.listsAfterwards then
        Action.say (<- Action.lift (<- Action.formula).listing)
      return none

/-- Find out what could follow a statement behind which reading stopped: it takes effect
once for every terminal that can follow it. -/
def Stop.probe (edition : Edition) (verbose : Bool) (stop : Stop) : Action Unit :=
  match stop.waiting with
  | some statement =>
      (List.replicate statement.followers statement).forM (Statement.perform edition verbose)
  | none => pure ()

end QuantFamily.Language
