import QuantFamily.Benchmark.Coverage
import QuantFamily.Text.Line

/-!
# Measurement rounds

A round prints the coverage of the program by file and the share of the program in each
subject. It appends a line to a record of all rounds, and says when further rounds are of
no use: when no subject is below the wanted share, or when the last rounds brought no
improvement.
-/

namespace QuantFamily.Benchmark

/-- What a round starts from. -/
structure RoundInput where
  /-- The coverage report. -/
  coverage : Json := .obj []
  /-- The text that defines the subjects. -/
  subjects : String := ""
  /-- The record of earlier rounds, if there is one. -/
  journal : Option String := none
  /-- What the share report printed. -/
  shares : String := ""
  /-- What the survey printed. -/
  findings : String := ""
  /-- The time before and after the coverage run, in seconds. -/
  started : Float := 10.0
  ended : Float := 12.5
  /-- The present time in seconds. -/
  now : Float := 1000.0

/-- What a round leaves. -/
structure RoundOutput where
  printed : String
  journal : Option String

/-- The share in percent that subjects should reach. -/
def wantedShare : Float := 50.0

/-- The share in percent below which a subject is marked. -/
def leastShare : Float := 45.0

/-- The coverage in percent that is needed to stop. -/
def leastCoverage : Float := 60.0

/-- The number of rounds without improvement after which to stop. -/
def patience : Nat := 3

/-- A text padded on the right. -/
def padRight (width : Nat) (text : String) : String :=
  text ++ String.ofList (List.replicate (width - text.length) ' ')

/-- A text padded on the left. -/
def padLeft (width : Nat) (text : String) : String :=
  String.ofList (List.replicate (width - text.length) ' ') ++ text

/-! ## Coverage by file -/

/-- Ascending numbers with runs joined: each run as its first and last number. -/
def runsOf : List Int -> List (Int × Int)
  | [] => []
  | n :: rest =>
      match runsOf rest with
      | (first, last) :: runs =>
          if n + 1 = first then (n, last) :: runs else (n, n) :: (first, last) :: runs
      | [] => [(n, n)]

/-- Runs of numbers as text. -/
def runsText (numbers : List Int) : String :=
  ", ".intercalate ((runsOf numbers).map fun (first, last) =>
    if first = last then Text.showInt first else Text.showInt first ++ "-" ++ Text.showInt last)

/-- A line of the coverage table. -/
def tableLine (width : Nat) (name statements missed covered missing : String) : String :=
  padRight width name ++ "  " ++ padLeft 5 statements ++ "  " ++ padLeft 4 missed ++ "  " ++
    padLeft 5 covered ++ missing

/-- A percentage without places behind the point. -/
def wholePercent (data : Json) : String :=
  Decimal.fixed 0 (numberOf data) ++ "%"

/-- The whole number in data. -/
def wholeOf : Json -> Int
  | .int n => n
  | _ => 0

/-- The whole numbers of a list. -/
def wholesOf : Json -> List Int
  | .arr items => items.map wholeOf
  | _ => []

/-- The line of one file. -/
def fileLine (width : Nat) (name : String) (data : Json) : String :=
  let missing := wholesOf (valueAt data ["missing_lines"])
  tableLine width name (shownNumber (valueAt data ["summary", "num_statements"]))
    (Nat.repr missing.length) (wholePercent (valueAt data ["summary", "percent_covered"]))
    (if missing.isEmpty then "" else "  " ++ runsText missing)

/-- The coverage table. -/
def coverageTable (coverage : Json) : List String :=
  let files := entriesOf (valueAt coverage ["files"])
  let width := files.foldl (fun width (name, _) => max width name.length) 4
  let rule := String.ofList (List.replicate (width + 42) '-')
  let statements := wholeOf (valueAt coverage ["totals", "num_statements"])
  let covered := wholeOf (valueAt coverage ["totals", "covered_lines"])
  [tableLine width "Name" "Stmts" "Miss" "Cover" "  Missing", rule] ++
    files.map (fun (name, data) => fileLine width name data) ++
    [rule, tableLine width "TOTAL" (Text.showInt statements) (Text.showInt (statements - covered))
      (wholePercent (valueAt coverage ["totals", "percent_covered"])) ""]

/-! ## Shares of the program -/

/-- The shares that a report gives, by subject. A negative share means that the subject
failed. -/
def sharesOf (report : Json) : List (String × Float) :=
  (entriesOf (valueAt report ["repo_time_pct"])).map fun (name, share) => (name, numberOf share)

/-- The shares of subjects that did not fail. -/
def validShares (shares : List (String × Float)) : List (String × Float) :=
  shares.filter fun (_, share) => 0.0 ≤ share

/-- The number of subjects with too small a share. -/
def belowCount (shares : List (String × Float)) : Nat :=
  ((validShares shares).filter fun (_, share) => share < leastShare).length

/-- The foreign code that took most of the time, as a note. -/
def foreignNote (report : Json) (name : String) : String :=
  match valueAt report ["hot_ext", name] with
  | .arr (part :: parts) =>
      let texts := (part :: parts).map fun part =>
        match part with
        | .arr [share, .str name] => name ++ " " ++ wholePercent share
        | _ => ""
      " (hot: " ++ " ".intercalate texts ++ ")"
  | _ => ""

/-- The line of one subject. -/
def shareLine (report : Json) (name : String) (share : Float) : String :=
  let failed := share < 0.0
  let low := !failed && share < leastShare
  (if low then "  * " else "    ") ++ padRight 32 name ++
    padLeft 6 (Decimal.fixed 1 (if failed then 0.0 else share)) ++ "%" ++
    (if failed then "  <error>" else if low then foreignNote report name else "")

/-- The lines on the shares of all subjects, the smallest share first. -/
def shareLines (report : Json) : List String :=
  let shares := (sharesOf report).mergeSort fun a b => a.2 ≤ b.2
  if shares.isEmpty then []
  else
    ["", "repo_time (target " ++ Decimal.fixed 0 wantedShare ++ "%; * = below " ++
      Decimal.fixed 0 leastShare ++ "%):"] ++
      shares.map fun (name, share) => shareLine report name share

/-! ## Verdicts -/

/-- The time in thousandths of a second below which a subject is too fast. -/
def leastTime : Float := 1.0

/-- The verdict on a subject from what a survey found. -/
def verdict (finding : Json) : String :=
  let usual := fun name => numberOf (valueAt finding [name, usualLabel])
  match valueAt finding ["ret_type"] with
  | .str kind =>
      if kind.startsWith "<" then "error"
      else if usual "repo_frac" * 100.0 < wantedShare then "low-repo-time"
      else if usual "repo_tt_ms" < leastTime then "too-fast"
      else "ok"
  | _ => "error"

/-- The verdicts on all subjects. -/
def verdicts (findings : Json) : List (String × String) :=
  (entriesOf (valueAt findings ["semcheck"])).map fun (name, finding) => (name, verdict finding)

/-! ## The record -/

/-- The number of definitions of subjects in a text. -/
def definedSubjects (text : String) : Nat :=
  ((Text.lines text.toList).filter fun line =>
    (Text.dropStart? ("def " ++ subjectMark).toList line).isSome).length

/-- The lines of the record that are not blank. -/
def recordLines (journal : String) : List String :=
  ((journal.splitOn "\n").filter fun line => !line.toList.all Char.isWhitespace)

/-- The earlier rounds. Nothing is known of them if one line cannot be read. -/
def earlierRounds (journal : String) : Option (List Json) :=
  (recordLines journal).mapM fun line =>
    match Json.parse? line with
    | some (.obj entries) => some (.obj entries)
    | _ => none

/-- The time since the last round, or none. -/
def timeSince (now : Float) (rounds : List Json) : Float :=
  match rounds.getLast?.map fun round => valueAt round ["ts"] with
  | some (.int n) => now - numberOf (.int n)
  | some (.real x) => now - x
  | _ => 0.0

/-- The numbers of subjects with too small a share in earlier rounds, where known. -/
def earlierCounts (rounds : List Json) : List Int :=
  rounds.filterMap fun round =>
    match valueAt round ["n_below_repo_time"] with
    | .int n => some n
    | _ => none

/-- The least of some numbers. -/
def least? : List Int -> Option Int
  | [] => none
  | n :: rest => some (rest.foldl min n)

/-- The reason to stop, if there is one. The counts include the present round. -/
def stopReason? (coverage : Float) (present : Option Nat) (counts : List Int) : Option String :=
  match present with
  | none => none
  | some present =>
      if coverage < leastCoverage then none
      else if present = 0 then some "0 below"
      else
        let early := counts.take (counts.length - patience)
        let late := counts.drop (counts.length - patience)
        match least? early, least? late, least? counts with
        | some before, some after, some best =>
            if before ≤ after then
              some ("no improvement in " ++ Nat.repr patience ++ " rounds; best " ++
                Text.showInt best ++ " below")
            else none
        | _, _, _ => none

namespace RoundInput

/-- The share report as data. -/
def shareReport (input : RoundInput) : Json :=
  (Json.parse? input.shares).getD (.obj [])

/-- The number of subjects with too small a share, unless all of them failed. -/
def below? (input : RoundInput) : Option Nat :=
  let shares := sharesOf input.shareReport
  if (validShares shares).isEmpty then none else some (belowCount shares)

/-- A number of the coverage totals. -/
def total (input : RoundInput) (name : String) : Json :=
  valueAt input.coverage ["totals", name]

/-- The number of the round. -/
def number (input : RoundInput) : Nat :=
  (recordLines (input.journal.getD "")).length + 1

/-- The length of the coverage run. -/
def duration (input : RoundInput) : Float :=
  input.ended - input.started

/-- The line of the round for the record. -/
def entry (input : RoundInput) (earlier : List Json) : Json :=
  let found := verdicts ((Json.parse? input.findings).getD (.obj []))
  let count := fun (n : Nat) => Json.int (Int.ofNat n)
  .obj [
    ("round", count input.number),
    ("ts", .real input.now),
    ("wall_since_prev_s", .real (Decimal.roundPlaces 3 (timeSince input.now earlier))),
    ("coverage_pct", input.total "percent_covered"),
    ("covered_lines", input.total "covered_lines"),
    ("num_statements", input.total "num_statements"),
    ("n_bench_fns", count (definedSubjects input.subjects)),
    ("n_bench_errors", count (entriesOf (valueAt input.coverage ["meta", "_pti_bench_errors"])).length),
    ("cov_measure_s", .real (Decimal.roundPlaces 3 input.duration)),
    ("repo_time_pct", .obj (entriesOf (valueAt input.shareReport ["repo_time_pct"]))),
    ("n_below_repo_time", match input.below? with
      | some n => count n
      | none => .null),
    ("semcheck", .obj (found.map fun (name, word) => (name, .str word))),
    ("n_not_self_checking", count (found.filter fun (_, word) => word != "ok").length)]

/-- The line that sums up the round. -/
def summary (input : RoundInput) : String :=
  let shares := sharesOf input.shareReport
  "[round " ++ Nat.repr input.number ++ ": " ++ Nat.repr (definedSubjects input.subjects) ++
    " benches, " ++ Decimal.fixed 1 (numberOf (input.total "percent_covered")) ++ "% covered, " ++
    Nat.repr (belowCount shares) ++ "/" ++ Nat.repr (validShares shares).length ++
    " below repo_time " ++ Decimal.fixed 0 leastShare ++ "%, measured in " ++
    Decimal.fixed 1 input.duration ++ "s]"

/-- The advice to stop, if there is a reason. -/
def advice (input : RoundInput) (earlier : Option (List Json)) : List String :=
  let present := input.below?
  let counts := earlierCounts (earlier.getD []) ++ (present.map Int.ofNat).toList
  match stopReason? (numberOf (input.total "percent_covered")) present counts with
  | some reason =>
      ["", ">>> STOP: repo_time converged (" ++ reason ++ "). Finalize " ++ subjectFile ++
        " now. <<<"]
  | none => []

/-- Do a round. A record that cannot be read is left as it is. -/
def run (input : RoundInput) : RoundOutput :=
  let earlier := earlierRounds (input.journal.getD "")
  let lines := coverageTable input.coverage ++ shareLines input.shareReport ++
    ["", input.summary] ++ input.advice earlier
  { printed := String.join (lines.map (· ++ "\n"))
    journal := match earlier with
      | some earlier => some (input.journal.getD "" ++ (input.entry earlier).write ++ "\n")
      | none => input.journal }

end RoundInput

end QuantFamily.Benchmark
