import QuantFamily.Benchmark.Sample
import QuantFamily.Benchmark.Value
import QuantFamily.CommandLine

/-!
# Workloads

Jobs of adjustable size that use the library from end to end. A workload returns sizes of
what it made: lengths of outputs and numbers of variables and blocks.
-/

namespace QuantFamily.Benchmark

/-- Why a workload broke off. -/
inductive Breakdown where
  /-- An operation ended in a fault. -/
  | operation (cause : Fault)
  /-- A statement of a text ended in a fault that is not reported. -/
  | statement (cause : Fault)

/-- A run of a workload: what it printed and what it returned. -/
structure Run where
  printed : String
  outcome : Except Breakdown (List Value)

/-- A number as a value. -/
def Value.nat (n : Nat) : Value :=
  .int (Int.ofNat n)

/-- The length of an output that may be missing. -/
def textSize (text : Option String) : Value :=
  .nat ((text.getD "").length)

namespace Run

/-- Do a job in a new session. -/
def ofAction (action : Action (List Value)) : Run :=
  match action.settle {} with
  | (.ok sizes, session) => ⟨session.transcript, .ok sizes⟩
  | (.error fault, session) => ⟨session.transcript, .error (.operation fault)⟩

/-- A run without what it printed. -/
def silent (run : Run) : Run :=
  { run with printed := "" }

/-- Two runs one after the other; the second is not done if the first broke off. -/
def andThen (first second : Run) : Run :=
  match first.outcome with
  | .error _ => first
  | .ok sizes =>
      ⟨first.printed ++ second.printed, second.outcome.map fun more => sizes ++ more⟩

end Run

namespace Sample

/-- Read a family of the given size into the formula. -/
def load (sample : Sample) (edition : Edition) (size : Int) : Action Unit := do
  let _ <- Language.interpret edition false (sample.values size)
  let _ <- Language.interpret edition false sample.definition

/-- The files of a family of the given size. -/
def files (sample : Sample) (size : Int) : Table String String :=
  Table.ofList [("definition.txt", sample.definition), ("values.txt", sample.values size)]

/-- The number of blocks after a command on the files of a family, however it ends. -/
def blocksAfter (sample : Sample) (edition : Edition) (size : Int) (arguments : List String) :
    Value :=
  let session := ((Action.obey edition arguments).settle { files := sample.files size }).2
  .nat session.formula.blocks.size

/-- The number of blocks after a request for an output of a family. -/
def served (sample : Sample) (edition : Edition) (form : OutputForm) (size : Int) : Run :=
  let request : Request :=
    { definition := "definition.txt", values := "values.txt", outputs := [(form, screen)] }
  match (Action.serve edition request).settle { files := sample.files size } with
  | (.ok _, session) => ⟨session.transcript, .ok [.nat session.formula.blocks.size]⟩
  | (.error fault, session) => ⟨session.transcript, .error (.operation fault)⟩

end Sample

/-- Arguments that lead to no formula: a request for help, too few arguments, and an
argument that is no option. -/
def idleCommands : List (List String) :=
  [["--help"], ["definition.txt"], ["definition.txt", "values.txt", "-unknown"]]

/-- Arguments for the outputs of a clausal family. -/
def clausalCommands : List (List String) :=
  [["definition.txt", "values.txt", "-QCIR"], ["definition.txt", "values.txt", "-QDIMACS"]]

/-- A clausal family defined step by step: one clause for each pair of variables. -/
def stepwise (edition : Edition) (size : Int) : Action (List Value) := do
  let each := [Condition.range "i" "1" "n"]
  let brick := fun (name : String) => Brick.ref false name ["i"]
  Action.update fun φ => { φ with name := "Stairs" }
  Action.setFormat "CNF"
  Action.addValue "n" (Text.showInt size)
  Action.addParameter "n" "int" ["n >= 1"]
  Action.addVariables "x" ["i"] each
  Action.addVariables "y" ["i"] each
  Action.addBlocks [{ name := "QX", indices := ["i"], bricks := [brick "x"] }] each (some "QX")
  Action.addBlocks [{ name := "QY", indices := ["i"], bricks := [brick "y"] }] each (some "QY")
  Action.addBlocks [{ name := "Q", indices := [], bricks := [.all "QX", .all "QY"] }] [] none
  Action.addBlocks
    [{ name := "C", indices := ["i"], bricks := [.ref true "x" ["i"], brick "y"] }] each (some "C")
  Action.addBlocks [{ name := "F", indices := [], bricks := [.all "C"] }] [] none
  Action.addBlocks
    [{ name := "Phi", indices := [], bricks := [.ref false "Q" [], .ref false "F" []] }] [] none
  Action.addAttributeToGrouping edition "QX" "E"
  Action.addAttributeToGrouping edition "QY" "A"
  Action.addAttributeToGrouping edition "C" "OR"
  Action.addAttribute edition "F" [] "AND"
  Action.setOutput "Phi" []
  let circuit <- Action.circuitText edition
  let clauses <- Action.clauseText edition
  return [textSize circuit, textSize clauses, .nat (<- Action.formula).blocks.size]

/-- The signs that the gates of a queue carry in turn. The last gate of a turn carries
none. -/
def queueSigns : List (Option String) :=
  [some "OR", some "AND", some "XOR", some "=>", some "<=>", none]

/-- Gates over neighbouring variables, written in the order of a queue. -/
def gateQueue (edition : Edition) (size : Nat) : Action (List Value) := do
  let places := List.range size
  places.forM fun i => Action.saveVariable ("x(" ++ Nat.repr (i + 1) ++ ")")
  let gates <- places.mapM fun i => do
    let name := "B(" ++ Nat.repr (i + 1) ++ ")"
    Action.saveBlock name
    let body := [Int.ofNat (i + 1), Int.ofNat ((i + 1) % size + 1)].eraseDups
    Action.saveContents name body none
    let id <- Action.brickId name
    match (queueSigns[i % queueSigns.length]?).join with
    | some sign => Action.markBlock edition id sign
    | none => pure ()
    Action.block id
  let _ <- Action.orElse .missingItem gates.head?
  let text <- Action.queueText edition gates
  return [.nat text.length, .nat gates.length]

/-- The workloads. -/
inductive Workload where
  | clauses
  | circuit
  | nested
  | queue
  | classicClauses
  | classicPair
  | steps
  | tracing
  | requests
  | commands
  | classicCommands
deriving DecidableEq

namespace Workload

/-- The name of the size of a workload. -/
def sizeName : Workload -> String
  | .clauses | .classicClauses | .commands | .classicCommands => "t_param"
  | .queue => "n_blocks"
  | _ => "n_vars"

/-- The size that a workload has unless another one is asked for. -/
def usualSize : Workload -> Int
  | .clauses | .classicClauses => 14
  | .circuit | .steps => 30
  | .nested | .classicPair => 25
  | .queue => 40
  | .requests => 15
  | .tracing | .commands | .classicCommands => 10

/-- The sizes that a workload is tried with. -/
def trialSizes : Workload -> List Int
  | .clauses | .classicClauses => [6, 14, 30]
  | .circuit | .steps => [10, 30, 80]
  | .nested => [8, 25, 70]
  | .classicPair => [8, 25, 60]
  | .queue => [12, 40, 120]
  | .requests => [5, 15, 40]
  | .tracing | .commands | .classicCommands => [4, 10, 20]

/-- The sizes of the two outputs of the alternating family. -/
def alternationSizes (edition : Edition) (size : Int) : Action (List Value) := do
  Sample.alternation.load edition size
  let circuit <- Action.circuitText edition
  let clauses <- Action.clauseText edition
  return [textSize circuit, textSize clauses]

/-- The size of the circuit of a family. -/
def circuitSize (sample : Sample) (edition : Edition) (size : Int) : Action Value := do
  sample.load edition size
  return textSize (<- Action.circuitText edition)

/-- Do a workload of the given size. -/
def run (workload : Workload) (size : Int) : Run :=
  match workload with
  | .clauses => .ofAction do
      let sizes <- alternationSizes .full size
      let φ <- Action.formula
      return sizes ++ [.nat φ.vars.size, .nat φ.blocks.size]
  | .circuit => .ofAction do
      let length <- circuitSize .operators .full size
      let φ <- Action.formula
      return [length, .nat φ.vars.size, .nat φ.blocks.size]
  | .nested => .ofAction do
      Sample.nested.load .full size
      let text <- Action.nestedText
      let blocks := (<- Action.formula).blocks.size
      return [.nat text.length, .nat blocks, .bool (text.startsWith circuitHeader)]
  | .queue => .ofAction (gateQueue .full size.toNat)
  | .classicClauses => .ofAction do
      let sizes <- alternationSizes .classic size
      return sizes ++ [.nat (<- Action.formula).blocks.size]
  | .classicPair => .ofAction do
      let length <- circuitSize .parity .classic size
      let before := (<- Action.formula).blocks.size
      Action.update fun _ => {}
      Sample.nested.load .classic size
      let text <- Action.nestedText
      return [length, .nat text.length, .nat (before + (<- Action.formula).blocks.size)]
  | .steps => .ofAction (stepwise .split size)
  | .tracing =>
      match (Language.interpret .tracing false (Sample.pairs.values size)).perform {} with
      | (.ok _, session) => ⟨"", .ok [.nat session.formula.values.size]⟩
      | (.error fault, _) => ⟨"", .error (.statement fault)⟩
  | .requests =>
      ((Sample.pairs.served .split .circuit size).andThen
        (Sample.nested.served .split .nestedCircuit size)).silent
  | .commands =>
      ⟨"", .ok ((idleCommands ++ clausalCommands).map
        (Sample.alternation.blocksAfter .full size))⟩
  | .classicCommands =>
      ⟨"", .ok ((idleCommands ++ clausalCommands).map
        (Sample.alternation.blocksAfter .classic size) ++
        [Sample.nested.blocksAfter .classic size
          ["definition.txt", "values.txt", "-non-prenex-QCIR"]])⟩

end Workload

end QuantFamily.Benchmark
