import QuantFamily.Benchmark.Value

/-!
# Subjects and profiles

A subject is something to be measured: it can be called again and again, with settings of
its own or with none. A suite holds the subjects of one measurement. A profile tells how
the time of one call is spread over the files of the program.
-/

namespace QuantFamily.Benchmark

/-- Why a call failed. -/
structure Failure where
  kind : String
  message : String

/-- A failure in one line. -/
def Failure.text (failure : Failure) : String :=
  failure.kind ++ ": " ++ failure.message

/-- Named arguments. -/
abbrev Setting := List (String × Value)

/-- The label of a setting. -/
def Setting.label (setting : Setting) : String :=
  if setting.isEmpty then "-"
  else ",".intercalate (setting.map fun (name, value) => name ++ "=" ++ value.text)

/-- Something to be measured. -/
structure Subject where
  name : String
  /-- The settings that it is to be tried with. -/
  settings : List Setting := []
  /-- The outcome of a call, given how many calls came before it. -/
  call : Nat -> Setting -> Except Failure Value

/-- What is measured together: the subjects, or why they cannot be loaded. -/
abbrev Suite := Except Failure (List Subject)

/-- The mark that the name of a subject starts with. -/
def subjectMark : String := "bench_"

/-- The subjects among candidates, in the order of their names. -/
def selectSubjects (candidates : List Subject) : List Subject :=
  (candidates.filter fun s => s.name.startsWith subjectMark).mergeSort fun a b => a.name ≤ b.name

/-- The results that a subject gives in turn. -/
def inTurn (results : List Value) (turn : Nat) : Value :=
  (results[turn % results.length]?).getD .none

/-- How the time of a call is spread over files. -/
structure Profile where
  total : Float := 0.0
  rows : List (String × Float) := []

/-- Where the time of a row is spent. -/
inductive Place where
  /-- In the program that is measured. -/
  | own
  /-- In code that the program calls. -/
  | foreign
  /-- In the measurement itself. -/
  | ignored
deriving DecidableEq

/-- The file that holds the subjects. -/
def subjectFile : String := "microbench.py"

/-- The mark that the names of measuring files start with. -/
def toolMark : String := "_pti_"

/-- The name under which a profile lists code that has no file. -/
def builtinFile : String := "~"

/-- Directories with code that is kept beside the program. -/
def sideDirectories : List String := ["vendor"]

/-- The place of a file whose path leads from the root of the program, or that lies
outside if there is no such path. -/
def placeOf : Option String -> Place
  | none => .foreign
  | some path =>
      let parts := path.splitOn "/"
      let last := parts.getLastD path
      if path = subjectFile ∨ last.startsWith toolMark then .ignored
      else if parts.any sideDirectories.contains then .ignored
      else .own

/-- The path of a file inside the working directory. -/
def workingPath? (file : String) : Option String :=
  if file = builtinFile ∨ file.startsWith "/" then none else some file

/-- The path of a file inside a directory that is given by its name and a slash. -/
def pathIn? (root file : String) : Option String :=
  (Text.dropStart? root.toList file.toList).map String.ofList

namespace Profile

/-- The time that is spent in a place. -/
def timeIn (profile : Profile) (path? : String -> Option String) (place : Place) : Float :=
  ((profile.rows.filter fun row => placeOf (path? row.1) = place).map (·.2)).foldl (· + ·) 0.0

/-- A part of the total time, as a number from zero to one. -/
def share (profile : Profile) (time : Float) : Float :=
  if 0.0 < profile.total then time / profile.total else 0.0

/-- The profiles that calls find in turn. -/
def inTurn (profiles : List Profile) (turn : Nat) : Profile :=
  (profiles[turn % profiles.length]?).getD {}

end Profile

end QuantFamily.Benchmark
