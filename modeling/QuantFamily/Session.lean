import QuantFamily.Fault
import QuantFamily.Formula.Basic

/-!
# Sessions

A session is a formula under construction together with what has been printed and with
the files around it. An action changes the session and may end in a fault; the changes it
made before the fault stay.
-/

namespace QuantFamily

/-- A formula with its surroundings. -/
structure Session where
  formula : Formula := {}
  transcript : String := ""
  files : Table String String := {}
  /-- Whether there is a converter from circuits to clauses. -/
  hasConverter : Bool := true

/-- A step of a session. -/
abbrev Action := EStateM Fault Session

namespace Action

/-- The formula. -/
def formula : Action Formula := do
  return (<- get).formula

/-- Change the formula. -/
def update (change : Formula -> Formula) : Action Unit :=
  modify fun s => { s with formula := change s.formula }

/-- Print a line. -/
def say (line : String) : Action Unit :=
  modify fun s => { s with transcript := s.transcript ++ line ++ "\n" }

/-- An outcome that does not depend on the session. -/
def lift {α : Type} : Except Fault α -> Action α
  | .ok a => pure a
  | .error fault => throw fault

/-- The value of an optional outcome, or a fault. -/
def orElse {α : Type} (fault : Fault) : Option α -> Action α
  | some a => pure a
  | none => throw fault

/-- Create or replace a file. -/
def writeFile (name text : String) : Action Unit :=
  modify fun s => { s with files := s.files.put name text }

/-- Delete a file. -/
def removeFile (name : String) : Action Unit :=
  modify fun s => { s with files := s.files.erase name }

/-- The outcome of an action in a session, and the session after it. -/
def perform {α : Type} (action : Action α) (session : Session) : Except Fault α × Session :=
  match action.run session with
  | .ok a session => (.ok a, session)
  | .error fault session => (.error fault, session)

/-- The outcome of an action in a session, and the session after it. A fault that is
reported has its line printed. -/
def settle {α : Type} (action : Action α) (session : Session) : Except Fault α × Session :=
  match action.perform session with
  | (.error fault, session) =>
      match fault.report? with
      | some line => (.error fault, { session with transcript := session.transcript ++ line ++ "\n" })
      | none => (.error fault, session)
  | result => result

end Action

end QuantFamily
