import QuantFamily.Formula.Name

/-!
# Conditions and valuations

A definition is repeated for every valuation of its indices. Conditions are taken in
order: a range binds an index to each integer between two limits, and a test keeps only
some of the valuations found so far. An index that is pinned from outside takes its
pinned value instead of running through its range. The search keeps its candidates in a
queue and hands out valuations one after the other; a fault may end it early.
-/

namespace QuantFamily

open QuantFamily.Expr (Value Evaluation)

/-- A condition behind `where`. -/
inductive Condition where
  | range (index low high : String)
  | test (expression : String)
deriving DecidableEq

/-- The index name that conditions reserve for tests. -/
def Condition.reserved : String := "other"

/-- A valuation on its way through a search, with the conditions that it has still to meet. -/
structure Candidate where
  valuation : Valuation
  conditions : List Condition

/-- What a search hands out, one valuation after the other, and the fault that ends it if it
does not come to its end. -/
structure Findings where
  found : List Valuation := []
  fault : Option Fault := none

/-- Findings behind one that was handed out before them. -/
def Findings.after (findings : Findings) (v : Valuation) : Findings :=
  { findings with found := v :: findings.found }

namespace Formula

/-- The value of an expression among the values of the formula and of bound indices. -/
def evaluate (φ : Formula) (expression : String) (indices : Valuation := {}) :
    Except Fault Value :=
  match Evaluation.run ⟨expression, φ.values, indices⟩ with
  | .ok v => .ok v
  | .error failure => .error (.ofFailure failure)

/-- A pair of limits in the place of an expression has no value. -/
def evaluatePair (φ : Formula) (low high : String) (indices : Valuation) :
    Except Fault Value :=
  let text := (Value.tuple [.str low, .str high]).render
  match Evaluation.scope ⟨text, φ.values, indices⟩ with
  | .ok _ => .error (.evaluation (.unevaluable text))
  | .error failure => .error (.ofFailure failure)

/-- The integers between two limits that are expressions. -/
def between (φ : Formula) (low high : String) (indices : Valuation) :
    Except Fault (List Int) := do
  let low <- φ.evaluate low indices
  let high <- φ.evaluate high indices
  match low.integer?, high.integer? with
  | some a, some b => return Value.rangeItems a (b + 1) 1
  | _, _ => throw .unsuitableValue

/-- The valuations that a condition makes of one valuation. -/
def extend (φ : Formula) (pinned : Valuation) (condition : Condition) (v : Valuation) :
    Except Fault (List Valuation) :=
  match condition with
  | .test expression => do
      let outcome <- φ.evaluate expression v
      return if outcome.truth then [v] else []
  | .range index low high =>
      if index = Condition.reserved then do
        let outcome <- φ.evaluatePair low high v
        return if outcome.truth then [v] else []
      else
        match pinned.get? index with
        | some value => return [v.put index value]
        | none => do
            let numbers <- φ.between low high v
            return numbers.map fun n => v.put index (.int n)

/-- The number of candidates that a search sees on the way from a valuation to all that meet
the conditions. -/
def effort (φ : Formula) (pinned : Valuation) : List Condition -> Valuation -> Nat
  | [], _ => 1
  | condition :: rest, v =>
      match φ.extend pinned condition v with
      | .ok extended => extended.foldr (fun w n => φ.effort pinned rest w + n) 0 + 1
      | .error _ => 1

/-- The number of candidates that a search sees until its queue is empty. -/
def efforts (φ : Formula) (pinned : Valuation) (queue : List Candidate) : Nat :=
  queue.foldr (fun candidate n => φ.effort pinned candidate.conditions candidate.valuation + n) 0

theorem efforts_append (φ : Formula) (pinned : Valuation) (first second : List Candidate) :
    φ.efforts pinned (first ++ second) = φ.efforts pinned first + φ.efforts pinned second := by
  induction first with
  | nil => simp [efforts]
  | cons candidate rest ih =>
      simp only [efforts, List.cons_append, List.foldr_cons] at ih ⊢
      omega

/-- Serve a queue of candidates, the oldest first. One that has met all conditions is handed
out; of another one the extensions by its next condition go to the end of the queue. -/
def serve (φ : Formula) (pinned : Valuation) (queue : List Candidate) : Findings :=
  match queue with
  | [] => {}
  | ⟨v, []⟩ :: queue => (φ.serve pinned queue).after v
  | ⟨v, condition :: rest⟩ :: queue =>
      match extended : φ.extend pinned condition v with
      | .error fault => { fault := some fault }
      | .ok vs => φ.serve pinned (queue ++ vs.map fun w => ⟨w, rest⟩)
termination_by φ.efforts pinned queue
decreasing_by
  · simp [efforts, effort]
  · rw [efforts_append]
    simp only [efforts, effort, extended, List.foldr_cons, List.foldr_map]
    omega

/-- The search for the valuations that satisfy a list of conditions. -/
def search (φ : Formula) (conditions : List Condition) (pinned : Valuation := {}) : Findings :=
  φ.serve pinned [⟨{}, conditions⟩]

/-- The valuations that satisfy a list of conditions, if no fault ends the search. -/
def valuations (φ : Formula) (conditions : List Condition) (pinned : Valuation := {}) :
    Except Fault (List Valuation) :=
  let findings := φ.search conditions pinned
  match findings.fault with
  | none => .ok findings.found
  | some fault => .error fault

end Formula

end QuantFamily
