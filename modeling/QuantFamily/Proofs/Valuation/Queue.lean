import QuantFamily.Formula.Define
import QuantFamily.Proofs.Session.Calculus

/-!
# The queue of a search

At every moment the queue of a search holds candidates of two generations at most: in front those
that wait for a condition, behind them those that have met it. So the search goes through the
conditions in rounds, and it does not hand out a valuation before it has passed the last condition.
A fault therefore ends a search that has handed out nothing, and whoever uses the findings of a
search has not begun when the fault comes.
-/

namespace QuantFamily

namespace Formula

variable {φ : Formula} {pinned : Valuation}

/-! ## Steps of the queue -/

theorem serve_nil : φ.serve pinned [] = {} := by
  rw [serve]

theorem serve_complete (v : Valuation) (queue : List Candidate) :
    φ.serve pinned (⟨v, []⟩ :: queue) = (φ.serve pinned queue).after v := by
  rw [serve]

theorem serve_of_error {condition : Condition} {v : Valuation} {fault : Fault}
    (h : φ.extend pinned condition v = .error fault) (rest : List Condition)
    (queue : List Candidate) :
    φ.serve pinned (⟨v, condition :: rest⟩ :: queue) = { fault := some fault } := by
  rw [serve]
  split
  · rename_i other hother
    cases h.symm.trans hother
    rfl
  · rename_i vs hvs
    cases h.symm.trans hvs

theorem serve_of_ok {condition : Condition} {v : Valuation} {vs : List Valuation}
    (h : φ.extend pinned condition v = .ok vs) (rest : List Condition)
    (queue : List Candidate) :
    φ.serve pinned (⟨v, condition :: rest⟩ :: queue) =
      φ.serve pinned (queue ++ vs.map fun w => ⟨w, rest⟩) := by
  rw [serve]
  split
  · rename_i fault hfault
    cases h.symm.trans hfault
  · rename_i other hother
    cases h.symm.trans hother
    rfl

/-! ## Rounds -/

/-- Valuations that have the same conditions to meet. -/
def waiting (conditions : List Condition) (vs : List Valuation) : List Candidate :=
  vs.map fun v => ⟨v, conditions⟩

theorem waiting_append (conditions : List Condition) (vs ws : List Valuation) :
    waiting conditions (vs ++ ws) = waiting conditions vs ++ waiting conditions ws :=
  List.map_append

/-- One round: every valuation found so far gives way to its extensions. -/
def advance (φ : Formula) (pinned : Valuation) (found : List Valuation)
    (condition : Condition) : Except Fault (List Valuation) := do
  let lists <- found.mapM (φ.extend pinned condition)
  return lists.flatten

theorem advance_cons (v : Valuation) (found : List Valuation) (condition : Condition) :
    φ.advance pinned (v :: found) condition = (do
      let vs <- φ.extend pinned condition v
      let others <- φ.advance pinned found condition
      return vs ++ others) := by
  unfold advance
  rw [List.mapM_cons]
  cases φ.extend pinned condition v with
  | error fault => rfl
  | ok vs =>
      cases found.mapM (φ.extend pinned condition) with
      | error fault => rfl
      | ok lists => rfl

/-- The findings of a search that has come to its end or not, all at once. -/
def Findings.ofOutcome : Except Fault (List Valuation) → Findings
  | .ok found => { found := found }
  | .error fault => { fault := some fault }

/-- The candidates in front are served while those behind them wait, and their extensions go to
the end. -/
theorem serve_round (condition : Condition) (rest : List Condition) (front back : List Valuation) :
    φ.serve pinned (waiting (condition :: rest) front ++ waiting rest back) =
      match φ.advance pinned front condition with
      | .ok found => φ.serve pinned (waiting rest (back ++ found))
      | .error fault => { fault := some fault } := by
  induction front generalizing back with
  | nil =>
      change φ.serve pinned (waiting rest back) = φ.serve pinned (waiting rest (back ++ []))
      rw [List.append_nil]
  | cons v front ih =>
      have hqueue : waiting (condition :: rest) (v :: front) ++ waiting rest back =
          ⟨v, condition :: rest⟩ :: (waiting (condition :: rest) front ++ waiting rest back) := rfl
      rw [hqueue, advance_cons]
      cases hextend : φ.extend pinned condition v with
      | error fault => exact serve_of_error hextend rest _
      | ok vs =>
          rw [serve_of_ok hextend, List.append_assoc]
          change φ.serve pinned (waiting (condition :: rest) front ++
            (waiting rest back ++ waiting rest vs)) = _
          rw [← waiting_append, ih]
          cases φ.advance pinned front condition with
          | error fault => rfl
          | ok found =>
              change φ.serve pinned (waiting rest (back ++ vs ++ found)) =
                φ.serve pinned (waiting rest (back ++ (vs ++ found)))
              rw [List.append_assoc]

/-- Valuations that have met all conditions are handed out in their order. -/
theorem serve_waiting_nil (found : List Valuation) :
    φ.serve pinned (waiting [] found) = { found := found } := by
  induction found with
  | nil => exact serve_nil
  | cons v found ih =>
      have hqueue : waiting [] (v :: found) = ⟨v, []⟩ :: waiting [] found := rfl
      rw [hqueue, serve_complete, ih]
      rfl

/-- A queue of one generation goes through the conditions in rounds. -/
theorem serve_waiting (conditions : List Condition) (found : List Valuation) :
    φ.serve pinned (waiting conditions found) =
      Findings.ofOutcome (conditions.foldlM (φ.advance pinned) found) := by
  induction conditions generalizing found with
  | nil => exact serve_waiting_nil found
  | cons condition rest ih =>
      have hround := @serve_round φ pinned condition rest found []
      rw [show waiting rest [] = [] from rfl, List.append_nil] at hround
      rw [hround, List.foldlM_cons]
      cases φ.advance pinned found condition with
      | error fault => rfl
      | ok next => exact ih next

theorem search_eq_foldlM (conditions : List Condition) (pinned : Valuation) :
    φ.search conditions pinned =
      Findings.ofOutcome (conditions.foldlM (φ.advance pinned) [{}]) :=
  serve_waiting conditions [{}]

theorem valuations_eq_foldlM (φ : Formula) (conditions : List Condition) (pinned : Valuation) :
    φ.valuations conditions pinned = conditions.foldlM (φ.advance pinned) [{}] := by
  unfold valuations
  rw [search_eq_foldlM]
  cases conditions.foldlM (φ.advance pinned) [{}] with
  | error fault => rfl
  | ok found => rfl

/-- A search hands out all its valuations or none. -/
theorem search_eq_ofOutcome (φ : Formula) (conditions : List Condition) (pinned : Valuation) :
    φ.search conditions pinned = Findings.ofOutcome (φ.valuations conditions pinned) := by
  rw [valuations_eq_foldlM, search_eq_foldlM]

/-- A search reads the values of the formula and nothing else. -/
theorem valuations_congr {ψ : Formula} (h : ψ.values = φ.values) (conditions : List Condition)
    (pinned : Valuation) : ψ.valuations conditions pinned = φ.valuations conditions pinned := by
  have hextend : ψ.extend pinned = φ.extend pinned := by
    funext condition v
    unfold extend evaluatePair between evaluate
    rw [h]
  rw [valuations_eq_foldlM, valuations_eq_foldlM]
  unfold advance
  rw [hextend]

end Formula

/-! ## Using what a search hands out -/

namespace Action

variable {α : Type}

/-- Who does nothing without a finding does nothing when the search fails. -/
theorem consume_search (use : List Valuation → Action α) {a : α} (h : use [] = pure a)
    (φ : Formula) (conditions : List Condition) (pinned : Valuation) :
    consume (φ.search conditions pinned) use = lift (φ.valuations conditions pinned) >>= use := by
  rw [Formula.search_eq_ofOutcome]
  cases φ.valuations conditions pinned with
  | error fault =>
      change (use [] >>= fun _ => throw fault) = throw fault >>= use
      rw [h]
      rfl
  | ok found =>
      change (use found >>= fun result => pure result) = use found
      exact bind_pure _

theorem addVariables_ranged {name : String} {indices : List String} {ranges : List Condition}
    (hindices : indices ≠ []) (hranges : ranges ≠ []) :
    addVariables name indices ranges = (do
      let found <- lift ((<- formula).valuations ranges)
      found.forM fun v => saveVariable (declaredName name indices v)) := by
  have hboth : (indices.isEmpty || ranges.isEmpty) = false := by simp [hindices, hranges]
  unfold addVariables
  rw [hboth, if_neg Bool.false_ne_true]
  refine congrArg (formula >>= ·) (funext fun φ => ?_)
  exact consume_search (fun found => found.forM fun v => saveVariable (declaredName name indices v))
    rfl φ ranges {}

theorem addVariables_single {name : String} {indices : List String} {ranges : List Condition}
    (h : indices = [] ∨ ranges = []) :
    addVariables name indices ranges = saveVariable (indexedName name indices) := by
  have hboth : (indices.isEmpty || ranges.isEmpty) = true := by simpa using h
  unfold addVariables
  rw [hboth, if_pos rfl]

theorem bodyIds_cons (conditions : List Condition) (left : Valuation) (brick : Brick)
    (rest : List Brick) (used : List Id) :
    bodyIds conditions left (brick :: rest) used = (do
      let found <- lift ((<- formula).valuations conditions left)
      let (ids, used) <- brickIds brick left found used
      return ids :: (<- bodyIds conditions left rest used)) := by
  have hnone : brickIds brick left [] used = pure ([], used) := by
    cases brick <;> rfl
  rw [bodyIds]
  refine congrArg (formula >>= ·) (funext fun φ => ?_)
  rw [consume_search _ hnone, bind_assoc]

theorem addBlocks_eq (definitions : List Definition) (conditions : List Condition)
    (grouping : Option String) :
    addBlocks definitions conditions grouping = (do
      let ids <- definitions.mapM fun definition => do
        let found <- lift ((<- formula).valuations conditions)
        found.filterMapM (addBlock definition conditions grouping)
      saveGrouping grouping ids.flatten) := by
  unfold addBlocks
  congr 2
  funext definition
  refine congrArg (formula >>= ·) (funext fun φ => ?_)
  exact consume_search (fun found => found.filterMapM (addBlock definition conditions grouping))
    rfl φ conditions {}

end Action

end QuantFamily
