import QuantFamily.Benchmark.Subject
import QuantFamily.Json

/-!
# Surveys

A survey calls every subject twice without a setting and once with each of its settings.
It reports the fingerprints of the results and how much of the time was spent in the
program itself. A shorter survey reports the share of the program alone, with the parts
of foreign code that took most of the time.
-/

namespace QuantFamily.Benchmark

/-- What a survey found about a subject. -/
structure Finding where
  kind : String
  /-- The fingerprints of the two calls without a setting. -/
  stable : List String := []
  /-- The fingerprints of the calls with settings. -/
  bySetting : List (String × String) := []
  /-- The profile of each call, under its label. -/
  profiles : List (String × Profile) := []
  /-- The fingerprints of the arguments. -/
  arguments : List String := []

/-- The label of a call without a setting. -/
def usualLabel : String := "<default>"

namespace Subject

/-- The results of calls with settings, where a number of calls came before. -/
def callAll (subject : Subject) : Nat -> List Setting -> Except Failure (List (String × Value))
  | _, [] => .ok []
  | turn, setting :: rest => do
      let value <- subject.call turn setting
      return (setting.label, value) :: (<- subject.callAll (turn + 1) rest)

/-- Survey a subject. The profiles of its calls start at the given turn. -/
def survey (subject : Subject) (profiles : List Profile) (turn : Nat) : Except Failure Finding := do
  let first <- subject.call 0 []
  let second <- subject.call 1 []
  let others <- subject.callAll 2 subject.settings
  let labels := usualLabel :: others.map (·.1)
  return {
    kind := first.kind
    stable := [first.fingerprint, second.fingerprint]
    bySetting := others.map fun (label, value) => (label, value.fingerprint)
    profiles := labels.zipIdx.map fun (label, i) => (label, Profile.inTurn profiles (turn + i))
    arguments := subject.settings.flatMap fun setting => setting.map fun a => a.2.fingerprint }

end Subject

/-- The findings on subjects, one after the other. A subject that fails has a finding that
names the failure, and takes up no profile. -/
def surveyAll (profiles : List Profile) : Nat -> List Subject -> List (String × Finding)
  | _, [] => []
  | turn, subject :: rest =>
      match subject.survey profiles turn with
      | .ok finding =>
          (subject.name, finding) :: surveyAll profiles (turn + finding.profiles.length) rest
      | .error failure =>
          (subject.name, { kind := "<" ++ failure.kind ++ ">" }) :: surveyAll profiles turn rest

/-- An object whose names may repeat; the last value of a name counts. -/
def objectOf (entries : List (String × Json)) : Json :=
  .obj (entries.foldl (fun acc (name, value) => Json.putName name value acc) [])

namespace Finding

/-- A quantity of each profile. -/
def measured (finding : Finding) (quantity : Profile -> Float) : Json :=
  objectOf (finding.profiles.map fun (label, profile) => (label, .real (quantity profile)))

/-- A finding as data. Times are in thousandths of a second. -/
def toJson (finding : Finding) : Json :=
  let own := fun (p : Profile) => p.timeIn workingPath? .own
  let foreign := fun (p : Profile) => p.timeIn workingPath? .foreign
  .obj [
    ("ret_type", .str finding.kind),
    ("fp_stable", .arr (finding.stable.map .str)),
    ("fp_by_param", objectOf (finding.bySetting.map fun (label, fp) => (label, .str fp))),
    ("repo_tt_ms", finding.measured fun p => Decimal.roundPlaces 3 (own p * 1000.0)),
    ("repo_frac", finding.measured fun p => Decimal.roundPlaces 3 (p.share (own p))),
    ("ext_frac", finding.measured fun p => Decimal.roundPlaces 3 (p.share (foreign p))),
    ("param_fps", .arr (finding.arguments.map .str))]

end Finding

/-- What a program printed, and the code it ended with if it ended early. -/
structure Printed where
  text : String
  code : Option Nat := none

/-- The report of a suite that cannot be loaded. -/
def unloadable (failure : Failure) : Printed :=
  ⟨(Json.obj [("_import_error", .str failure.text)]).write ++ "\n", some 0⟩

/-- The survey of a suite. -/
def survey (profiles : List Profile) : Suite -> Printed
  | .error failure => unloadable failure
  | .ok subjects =>
      let findings := surveyAll profiles 0 (selectSubjects subjects)
      let entries := findings.map fun (name, finding) => (name, finding.toJson)
      ⟨(Json.obj [("semcheck", objectOf entries)]).write ++ "\n", none⟩

/-- The name under which foreign code is listed. -/
def foreignName (file : String) : String :=
  if file = builtinFile then "builtins"
  else
    let parts := file.splitOn "/"
    let last := parts.getLastD file
    let last := if last = "__init__.py" then parts.dropLast.getLastD last else last
    (last.splitOn ".").headD last

/-- The number of parts of foreign code that are listed. -/
def listedParts : Nat := 3

/-- The share of foreign code by name, the largest first, in percent. -/
def Profile.foreignShares (profile : Profile) (path? : String -> Option String) :
    List (Float × String) :=
  let rows := profile.rows.filter fun row => placeOf (path? row.1) = .foreign
  let names := (rows.map fun row => foreignName row.1).eraseDups
  let shares := names.map fun name =>
    let time := ((rows.filter fun row => foreignName row.1 = name).map (·.2)).foldl (· + ·) 0.0
    (Decimal.roundPlaces 1 (100.0 * profile.share time), name)
  (shares.mergeSort fun a b => b.1 ≤ a.1).take listedParts

/-- The share of the program in one call of each subject, in percent, and the foreign code
that took most of the rest. -/
def shareAll (profiles : List Profile) (path? : String -> Option String) :
    Nat -> List Subject -> List (String × Float × List (Float × String))
  | _, [] => []
  | turn, subject :: rest =>
      match subject.call 0 [] with
      | .ok _ =>
          let profile := Profile.inTurn profiles turn
          let own := Decimal.roundPlaces 1 (100.0 * profile.share (profile.timeIn path? .own))
          (subject.name, own, profile.foreignShares path?) ::
            shareAll profiles path? (turn + 1) rest
      | .error failure =>
          (subject.name, -1.0, [(0.0, "<" ++ failure.kind ++ ">")]) ::
            shareAll profiles path? turn rest

/-- The report on the share of the program in each subject of a suite. -/
def shareReport (root : String) (profiles : List Profile) : Suite -> Printed
  | .error failure => unloadable failure
  | .ok subjects =>
      let found := shareAll profiles (pathIn? root) 0 (selectSubjects subjects)
      let parts := fun (shares : List (Float × String)) =>
        Json.arr (shares.map fun (share, name) => .arr [.real share, .str name])
      ⟨(Json.obj [
        ("repo_time_pct", objectOf (found.map fun (name, own, _) => (name, .real own))),
        ("hot_ext", objectOf (found.map fun (name, _, shares) => (name, parts shares)))]).write ++
          "\n", none⟩

end QuantFamily.Benchmark
