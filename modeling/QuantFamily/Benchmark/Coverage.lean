import QuantFamily.Benchmark.Survey

/-!
# Coverage runs

A coverage run calls every subject once while a recorder notes the lines that are
reached. The report of the recorder is completed with the number of subjects and with
their failures.
-/

namespace QuantFamily.Benchmark

/-- A request to the recorder. -/
inductive RecorderCall where
  /-- Prepare a recorder that leaves out files, given by patterns. -/
  | prepare (omitted : List String)
  | start
  | stop
  /-- Write the report and pass over files that cannot be read. -/
  | report

/-- What a coverage run did. -/
structure CoverageRun where
  calls : List RecorderCall
  report : Json
  printed : String

/-- The failures of subjects when each is called once, with the name under which they are
reported. -/
def failuresOf : Suite -> List (String × Failure)
  | .error failure => [("<import>", failure)]
  | .ok subjects => (selectSubjects subjects).filterMap fun subject =>
      match subject.call 0 [] with
      | .ok _ => none
      | .error failure => some (subject.name, failure)

/-- The number of subjects in a suite. -/
def subjectCount : Suite -> Nat
  | .error _ => 0
  | .ok subjects => (selectSubjects subjects).length

/-- The entries of an object. -/
def entriesOf : Json -> List (String × Json)
  | .obj entries => entries
  | _ => []

/-- A number as a double. -/
def numberOf : Json -> Float
  | .real x => x
  | .int n => (Decimal.ofInt? n).getD 0.0
  | _ => 0.0

/-- The value at a path of names. -/
def valueAt (data : Json) : List String -> Json
  | [] => data
  | name :: rest => valueAt ((data.get? name).getD .null) rest

/-- A number as it is printed. -/
def shownNumber (data : Json) : String :=
  data.write

/-- Run the subjects of a suite under the recorder, whose report is given. -/
def coverageRun (suite : Suite) (omitted : List String) (report : Json) : CoverageRun :=
  let failures := failuresOf suite
  let noted := objectOf (failures.map fun (name, failure) => (name, .str failure.text))
  let counted := Json.int (Int.ofNat (subjectCount suite))
  let added := Json.putName "_pti_n_benches" counted
    (Json.putName "_pti_bench_errors" noted (entriesOf (valueAt report ["meta"])))
  let total := fun name => valueAt report ["totals", name]
  { calls := [.prepare omitted, .start, .stop, .report]
    report := .obj (Json.putName "meta" (.obj added) (entriesOf report))
    printed :=
      "coverage: " ++ Decimal.fixed 1 (numberOf (total "percent_covered")) ++ "% (" ++
        shownNumber (total "covered_lines") ++ "/" ++ shownNumber (total "num_statements") ++
        " stmts, " ++ Nat.repr (subjectCount suite) ++ " benches, " ++
        Nat.repr failures.length ++ " errors)\n" }

end QuantFamily.Benchmark
