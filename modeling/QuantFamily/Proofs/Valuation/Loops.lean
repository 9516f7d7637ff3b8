import QuantFamily.Proofs.Valuation.Search

/-!
# A search as nested loops

The queue of a search takes one condition for all its candidates before it comes to the next one.
What it hands out is nevertheless what nested loops produce, one loop a range, the first condition
outermost: `loops` runs them, and `InOrder` says without running them that the valuations come in
the lexicographic order of the numbers chosen on the way. The two differ in what they meet first.
Nested loops that come to a fault may have produced valuations before it, a search has not.
-/

namespace QuantFamily

open QuantFamily.Expr (Value)

theorem ok_bind_iff {ε α β : Type} {first : Except ε α} {next : α → Except ε β} {b : β} :
    (first >>= next) = .ok b ↔ ∃ a, first = .ok a ∧ next a = .ok b := by
  constructor
  · exact exists_ok_of_bind
  · rintro ⟨a, rfl, h⟩
    exact h

theorem error_iff_not_ok {ε α : Type} {outcome : Except ε α} :
    (∃ fault, outcome = .error fault) ↔ ∀ a, outcome ≠ .ok a := by
  cases outcome with
  | error fault => simp
  | ok a => simp

theorem pairwise_rangeItems_one (a b : Int) : (Value.rangeItems a b 1).Pairwise (· < ·) := by
  unfold Value.rangeItems
  refine List.Pairwise.map _ (fun i j hij => ?_) List.pairwise_lt_range
  simp only [Int.ofNat_eq_natCast]
  omega

namespace Formula

variable {φ : Formula} {pinned : Valuation}

theorem between_pairwise {low high : String} {indices : Valuation} {ns : List Int}
    (h : φ.between low high indices = .ok ns) : ns.Pairwise (· < ·) := by
  obtain ⟨first, -, h⟩ := exists_ok_of_bind h
  obtain ⟨last, -, h⟩ := exists_ok_of_bind h
  split at h
  · cases h
    exact pairwise_rangeItems_one _ _
  · cases h

/-! ## Running the loops -/

/-- Nested loops over the conditions, the first condition outermost, begun in a valuation. -/
def loops (φ : Formula) (pinned : Valuation) :
    List Condition → Valuation → Except Fault (List Valuation)
  | [], v => return [v]
  | .test expression :: rest, v => do
      if (<- φ.evaluate expression v).truth then φ.loops pinned rest v
      else return []
  | .range index low high :: rest, v =>
      if index = Condition.reserved then do
        if (<- φ.evaluatePair low high v).truth then φ.loops pinned rest v
        else return []
      else
        match pinned.get? index with
        | some value => φ.loops pinned rest (v.put index value)
        | none => do
            let lists <- (<- φ.between low high v).mapM fun n =>
              φ.loops pinned rest (v.put index (.int n))
            return lists.flatten

/-- The loops begun in each of some valuations, one after the other. -/
def loopsFrom (φ : Formula) (pinned : Valuation) (conditions : List Condition)
    (vs : List Valuation) : Except Fault (List Valuation) := do
  let lists <- vs.mapM (φ.loops pinned conditions)
  return lists.flatten

theorem loopsFrom_cons (conditions : List Condition) (v : Valuation) (vs : List Valuation) :
    φ.loopsFrom pinned conditions (v :: vs) = (do
      let first <- φ.loops pinned conditions v
      let others <- φ.loopsFrom pinned conditions vs
      return first ++ others) := by
  unfold loopsFrom
  rw [List.mapM_cons]
  cases φ.loops pinned conditions v with
  | error fault => rfl
  | ok first =>
      cases vs.mapM (φ.loops pinned conditions) with
      | error fault => rfl
      | ok lists => rfl

theorem loopsFrom_singleton (conditions : List Condition) (v : Valuation) :
    φ.loopsFrom pinned conditions [v] = φ.loops pinned conditions v := by
  rw [loopsFrom_cons]
  cases φ.loops pinned conditions v with
  | error fault => rfl
  | ok found => exact congrArg Except.ok (List.append_nil found)

theorem loopsFrom_append_ok {conditions : List Condition} {vs ws found : List Valuation} :
    φ.loopsFrom pinned conditions (vs ++ ws) = .ok found ↔
      ∃ first others, φ.loopsFrom pinned conditions vs = .ok first ∧
        φ.loopsFrom pinned conditions ws = .ok others ∧ found = first ++ others := by
  induction vs generalizing found with
  | nil =>
      constructor
      · exact fun h => ⟨[], found, rfl, h, rfl⟩
      · rintro ⟨first, others, hfirst, hothers, rfl⟩
        cases hfirst
        exact hothers
  | cons v vs ih =>
      rw [List.cons_append, loopsFrom_cons, loopsFrom_cons]
      simp only [ok_bind_iff, ih]
      constructor
      · rintro ⟨head, hhead, rest, ⟨first, others, hfirst, hothers, rfl⟩, hfound⟩
        cases hfound
        exact ⟨head ++ first, others, ⟨head, hhead, first, hfirst, rfl⟩, hothers,
          (List.append_assoc ..).symm⟩
      · rintro ⟨both, others, ⟨head, hhead, first, hfirst, hboth⟩, hothers, rfl⟩
        cases hboth
        exact ⟨head, hhead, first ++ others, ⟨first, others, hfirst, hothers, rfl⟩,
          congrArg Except.ok (List.append_assoc ..).symm⟩

/-- The outermost loop makes the extensions by its condition, and the other loops begin in
each of them. -/
theorem loops_cons (condition : Condition) (rest : List Condition) (v : Valuation) :
    φ.loops pinned (condition :: rest) v = (do
      let vs <- φ.extend pinned condition v
      φ.loopsFrom pinned rest vs) := by
  have hkept : ∀ outcome : Value,
      (if outcome.truth then φ.loops pinned rest v else return []) =
        φ.loopsFrom pinned rest (if outcome.truth then [v] else []) := by
    intro outcome
    cases outcome.truth with
    | true => exact (loopsFrom_singleton rest v).symm
    | false => rfl
  cases condition with
  | test expression =>
      simp only [loops, extend]
      cases φ.evaluate expression v with
      | error fault => rfl
      | ok outcome => exact hkept outcome
  | range index low high =>
      simp only [loops, extend]
      split
      · cases φ.evaluatePair low high v with
        | error fault => rfl
        | ok outcome => exact hkept outcome
      · cases pinned.get? index with
        | some value => exact (loopsFrom_singleton rest _).symm
        | none =>
            cases φ.between low high v with
            | error fault => rfl
            | ok numbers =>
                change _ = φ.loopsFrom pinned rest (numbers.map fun n => v.put index (.int n))
                unfold loopsFrom
                rw [List.mapM_map]
                rfl

/-- A round and the loops behind it. The step of the induction over the conditions below. -/
theorem advance_loopsFrom {condition : Condition} {rest : List Condition}
    {found last : List Valuation} :
    (∃ next, φ.advance pinned found condition = .ok next ∧
        φ.loopsFrom pinned rest next = .ok last) ↔
      φ.loopsFrom pinned (condition :: rest) found = .ok last := by
  induction found generalizing last with
  | nil =>
      constructor
      · rintro ⟨next, hnext, hlast⟩
        cases hnext
        exact hlast
      · exact fun h => ⟨[], rfl, h⟩
  | cons v found ih =>
      simp only [advance_cons, loopsFrom_cons, loops_cons, ok_bind_iff, ← ih]
      constructor
      · rintro ⟨next, ⟨vs, hvs, others, hothers, hnext⟩, hlast⟩
        cases hnext
        obtain ⟨first, second, hfirst, hsecond, rfl⟩ := loopsFrom_append_ok.mp hlast
        exact ⟨first, ⟨vs, hvs, hfirst⟩, second, ⟨others, hothers, hsecond⟩, rfl⟩
      · rintro ⟨first, ⟨vs, hvs, hfirst⟩, second, ⟨others, hothers, hsecond⟩, hlast⟩
        cases hlast
        exact ⟨vs ++ others, ⟨vs, hvs, others, hothers, rfl⟩,
          loopsFrom_append_ok.mpr ⟨first, second, hfirst, hsecond, rfl⟩⟩

/-- Rounds over all conditions come to what the loops come to, if either comes to its end. -/
theorem foldlM_advance_ok_iff {conditions : List Condition} {found last : List Valuation} :
    conditions.foldlM (φ.advance pinned) found = .ok last ↔
      φ.loopsFrom pinned conditions found = .ok last := by
  induction conditions generalizing found with
  | nil =>
      have hmap : φ.loopsFrom pinned [] found = .ok found := by
        induction found with
        | nil => rfl
        | cons v found ih =>
            rw [loopsFrom_cons, ih]
            rfl
      rw [hmap]
      rfl
  | cons condition rest ih =>
      rw [List.foldlM_cons, ok_bind_iff, ← advance_loopsFrom]
      simp only [ih]

theorem valuations_ok_iff_loops {conditions : List Condition} {found : List Valuation} :
    φ.valuations conditions pinned = .ok found ↔ φ.loops pinned conditions {} = .ok found := by
  rw [valuations_eq_foldlM, foldlM_advance_ok_iff, loopsFrom_singleton]

theorem search_eq_found_iff {conditions : List Condition} {found : List Valuation} :
    φ.search conditions pinned = { found := found } ↔
      φ.loops pinned conditions {} = .ok found := by
  rw [search_eq_ofOutcome, ← valuations_ok_iff_loops]
  cases φ.valuations conditions pinned <;> simp [Findings.ofOutcome]

theorem search_eq_fault_iff {conditions : List Condition} :
    (∃ fault, φ.search conditions pinned = { fault := some fault }) ↔
      ∃ fault, φ.loops pinned conditions {} = .error fault := by
  rw [error_iff_not_ok, search_eq_ofOutcome]
  simp only [← valuations_ok_iff_loops, ne_eq]
  cases φ.valuations conditions pinned <;> simp [Findings.ofOutcome]

/-! ## Choices -/

/-- A condition leads from one valuation to another. Some number is chosen for a range, unless
its index is pinned. -/
inductive Takes (φ : Formula) (pinned : Valuation) :
    Condition → Valuation → List Int → Valuation → Prop where
  | test {expression v outcome} (value : φ.evaluate expression v = .ok outcome)
      (holds : outcome.truth = true) : Takes φ pinned (.test expression) v [] v
  | pinned {index low high v value} (free : index ≠ Condition.reserved)
      (pin : pinned.get? index = some value) :
      Takes φ pinned (.range index low high) v [] (v.put index value)
  | number {index low high v n} (free : index ≠ Condition.reserved)
      (unpinned : pinned.get? index = none) (between : φ.Between low high v n) :
      Takes φ pinned (.range index low high) v [n] (v.put index (.int n))

/-- The conditions lead one after the other from a valuation to another, and these are the numbers
chosen on the way. -/
inductive Chooses (φ : Formula) (pinned : Valuation) :
    List Condition → Valuation → List Int → Valuation → Prop where
  | done {v} : Chooses φ pinned [] v [] v
  | step {condition rest v ms u ns w} (first : Takes φ pinned condition v ms u)
      (behind : Chooses φ pinned rest u ns w) :
      Chooses φ pinned (condition :: rest) v (ms ++ ns) w

/-- A list of valuations goes through all choices that the conditions allow, and takes them in
lexicographic order. -/
def InOrder (φ : Formula) (pinned : Valuation) (conditions : List Condition) (v : Valuation)
    (found : List Valuation) : Prop :=
  ∃ choices : List (List Int × Valuation), found = choices.map Prod.snd ∧
    (choices.map Prod.fst).Pairwise (· < ·) ∧
    ∀ ns w, (ns, w) ∈ choices ↔ φ.Chooses pinned conditions v ns w

theorem chooses_test_iff {expression : String} {rest : List Condition} {v w : Valuation}
    {ns : List Int} {outcome : Value} (value : φ.evaluate expression v = .ok outcome) :
    φ.Chooses pinned (.test expression :: rest) v ns w ↔
      outcome.truth = true ∧ φ.Chooses pinned rest v ns w := by
  constructor
  · rintro (_ | ⟨first, behind⟩)
    cases first with
    | test other holds =>
        cases value.symm.trans other
        exact ⟨holds, behind⟩
  · rintro ⟨holds, behind⟩
    exact .step (.test value holds) behind

theorem chooses_pinned_iff {index low high : String} {rest : List Condition} {v w : Valuation}
    {ns : List Int} {value : Value} (free : index ≠ Condition.reserved)
    (pin : pinned.get? index = some value) :
    φ.Chooses pinned (.range index low high :: rest) v ns w ↔
      φ.Chooses pinned rest (v.put index value) ns w := by
  constructor
  · rintro (_ | ⟨first, behind⟩)
    cases first with
    | pinned _ other =>
        cases pin.symm.trans other
        exact behind
    | number _ unpinned _ => cases pin.symm.trans unpinned
  · exact fun behind => .step (.pinned free pin) behind

theorem chooses_free_iff {index low high : String} {rest : List Condition} {v w : Valuation}
    {ns : List Int} (free : index ≠ Condition.reserved) (unpinned : pinned.get? index = none) :
    φ.Chooses pinned (.range index low high :: rest) v ns w ↔
      ∃ n ms, ns = n :: ms ∧ φ.Between low high v n ∧
        φ.Chooses pinned rest (v.put index (.int n)) ms w := by
  constructor
  · rintro (_ | ⟨first, behind⟩)
    cases first with
    | pinned _ pin => cases unpinned.symm.trans pin
    | number _ _ between => exact ⟨_, _, rfl, between, behind⟩
  · rintro ⟨n, ms, rfl, between, behind⟩
    exact .step (.number free unpinned between) behind

/-- A loop over ascending numbers, each of which leads the inner loops to all their choices in
order. -/
theorem inOrder_loop {rest : List Condition} {start : Int → Valuation} {numbers : List Int}
    {lists : List (List Valuation)} (ascending : numbers.Pairwise (· < ·))
    (inner : ∀ n found, φ.loops pinned rest (start n) = .ok found →
      φ.InOrder pinned rest (start n) found)
    (h : numbers.mapM (fun n => φ.loops pinned rest (start n)) = .ok lists) :
    ∃ choices : List (List Int × Valuation), lists.flatten = choices.map Prod.snd ∧
      (choices.map Prod.fst).Pairwise (· < ·) ∧
      ∀ ns w, (ns, w) ∈ choices ↔
        ∃ n ms, ns = n :: ms ∧ n ∈ numbers ∧ φ.Chooses pinned rest (start n) ms w := by
  induction numbers generalizing lists with
  | nil =>
      cases h
      exact ⟨[], rfl, List.Pairwise.nil, by simp⟩
  | cons n numbers ih =>
      rw [List.mapM_cons] at h
      obtain ⟨found, hfound, h⟩ := exists_ok_of_bind h
      obtain ⟨others, hothers, h⟩ := exists_ok_of_bind h
      cases h
      obtain ⟨above, ascending⟩ := List.pairwise_cons.mp ascending
      obtain ⟨first, rfl, hfirst, hmem⟩ := inner n found hfound
      obtain ⟨second, hflat, hsecond, hmem'⟩ := ih ascending hothers
      refine ⟨first.map (fun choice => (n :: choice.1, choice.2)) ++ second, ?_, ?_, ?_⟩
      · simp [hflat, Function.comp_def]
      · rw [List.map_append, List.map_map, List.pairwise_append]
        refine ⟨?_, hsecond, ?_⟩
        · rw [List.pairwise_map] at hfirst ⊢
          refine hfirst.imp fun hlt => ?_
          exact List.cons_lt_cons_iff.mpr (.inr ⟨rfl, hlt⟩)
        · rintro ns hns ks hks
          obtain ⟨choice, -, rfl⟩ := List.mem_map.mp hns
          obtain ⟨⟨ks, w⟩, hmore, rfl⟩ := List.mem_map.mp hks
          obtain ⟨m, ms, rfl, hm, -⟩ := (hmem' ks w).mp hmore
          exact List.cons_lt_cons_iff.mpr (.inl (above m hm))
      · intro ns w
        rw [List.mem_append, hmem']
        constructor
        · rintro (hin | ⟨m, ms, rfl, hm, behind⟩)
          · obtain ⟨⟨ms, w⟩, hchoice, heq⟩ := List.mem_map.mp hin
            cases heq
            exact ⟨n, ms, rfl, List.mem_cons_self, (hmem ms w).mp hchoice⟩
          · exact ⟨m, ms, rfl, List.mem_cons_of_mem n hm, behind⟩
        · rintro ⟨m, ms, rfl, hm, behind⟩
          rcases List.mem_cons.mp hm with rfl | hm
          · exact .inl (List.mem_map.mpr ⟨(ms, w), (hmem ms w).mpr behind, rfl⟩)
          · exact .inr ⟨m, ms, rfl, hm, behind⟩

/-- Loops that come to their end have gone through all choices in order. -/
theorem inOrder_of_loops {conditions : List Condition} {v : Valuation} {found : List Valuation}
    (h : φ.loops pinned conditions v = .ok found) : φ.InOrder pinned conditions v found := by
  induction conditions generalizing v found with
  | nil =>
      cases h
      refine ⟨[([], v)], rfl, List.pairwise_singleton .., fun ns w => ?_⟩
      rw [List.mem_singleton]
      constructor
      · rintro ⟨⟩
        exact .done
      · rintro ⟨⟩
        rfl
  | cons condition rest ih =>
      cases condition with
      | test expression =>
          obtain ⟨outcome, houtcome, h⟩ := exists_ok_of_bind h
          simp only [InOrder, chooses_test_iff houtcome]
          cases htruth : outcome.truth with
          | true =>
              rw [htruth] at h
              simpa only [InOrder, true_and] using ih h
          | false =>
              rw [htruth] at h
              cases h
              exact ⟨[], rfl, List.Pairwise.nil, by simp⟩
      | range index low high =>
          by_cases free : index = Condition.reserved
          · rw [loops, if_pos free] at h
            obtain ⟨outcome, houtcome, -⟩ := exists_ok_of_bind h
            obtain ⟨fault, hfault⟩ := evaluatePair_error φ low high v
            cases houtcome.symm.trans hfault
          · rw [loops, if_neg free] at h
            cases hpin : pinned.get? index with
            | some value =>
                rw [hpin] at h
                simpa only [InOrder, chooses_pinned_iff free hpin] using ih h
            | none =>
                rw [hpin] at h
                obtain ⟨numbers, hnumbers, h⟩ := exists_ok_of_bind h
                obtain ⟨lists, hlists, h⟩ := exists_ok_of_bind h
                cases h
                obtain ⟨choices, hflat, hascend, hmem⟩ :=
                  inOrder_loop (between_pairwise hnumbers) (fun n found => ih) hlists
                refine ⟨choices, hflat, hascend, fun ns w => ?_⟩
                rw [hmem, chooses_free_iff free hpin]
                simp only [(between_ok hnumbers).2]

/-! ## Faults -/

/-- A condition that has no value in a valuation, or a range without its limits. -/
def Stuck (φ : Formula) (pinned : Valuation) (v : Valuation) : Condition → Prop
  | .test expression => ∃ fault, φ.evaluate expression v = .error fault
  | .range index low high =>
      index = Condition.reserved ∨
        pinned.get? index = none ∧ ∃ fault, φ.between low high v = .error fault

/-- Some choice leads through the first conditions to a place where the next one fails. -/
def ComesToFault (φ : Formula) (pinned : Valuation) (conditions : List Condition)
    (v : Valuation) : Prop :=
  ∃ earlier condition rest ns w, conditions = earlier ++ condition :: rest ∧
    φ.Chooses pinned earlier v ns w ∧ φ.Stuck pinned w condition

theorem comesToFault_cons_iff {condition : Condition} {rest : List Condition} {v : Valuation} :
    φ.ComesToFault pinned (condition :: rest) v ↔
      φ.Stuck pinned v condition ∨
        ∃ ns u, φ.Takes pinned condition v ns u ∧ φ.ComesToFault pinned rest u := by
  constructor
  · rintro ⟨earlier, c, later, ns, w, hsplit, way, stuck⟩
    cases way with
    | done =>
        cases hsplit
        exact .inl stuck
    | step first behind =>
        cases hsplit
        exact .inr ⟨_, _, first, _, c, later, _, w, rfl, behind, stuck⟩
  · rintro (stuck | ⟨ms, u, first, earlier, c, later, ns, w, rfl, behind, stuck⟩)
    · exact ⟨[], condition, rest, [], v, rfl, .done, stuck⟩
    · exact ⟨condition :: earlier, c, later, ms ++ ns, w, rfl, .step first behind, stuck⟩

theorem extend_error_iff {condition : Condition} {v : Valuation} :
    (∃ fault, φ.extend pinned condition v = .error fault) ↔ φ.Stuck pinned v condition := by
  cases condition with
  | test expression =>
      simp only [extend, Stuck]
      cases φ.evaluate expression v with
      | error fault => simp [bind, Except.bind]
      | ok outcome => simp [bind, Except.bind, pure, Except.pure]
  | range index low high =>
      simp only [extend, Stuck]
      by_cases free : index = Condition.reserved
      · obtain ⟨fault, hfault⟩ := evaluatePair_error φ low high v
        rw [if_pos free, hfault]
        exact ⟨fun _ => .inl free, fun _ => ⟨fault, rfl⟩⟩
      · rw [if_neg free]
        cases pinned.get? index with
        | some value => simp [free, pure, Except.pure]
        | none =>
            cases φ.between low high v with
            | error fault => simp [bind, Except.bind]
            | ok numbers => simp [free, bind, Except.bind, pure, Except.pure]

theorem mem_extend_iff {condition : Condition} {v : Valuation} {vs : List Valuation}
    (h : φ.extend pinned condition v = .ok vs) (u : Valuation) :
    u ∈ vs ↔ ∃ ns, φ.Takes pinned condition v ns u := by
  cases condition with
  | test expression =>
      obtain ⟨outcome, houtcome, rfl⟩ := extend_test h
      constructor
      · intro hu
        split at hu
        · rename_i holds
          cases List.mem_singleton.mp hu
          exact ⟨[], .test houtcome holds⟩
        · cases hu
      · rintro ⟨ns, ⟨other, holds⟩⟩
        cases houtcome.symm.trans other
        rw [if_pos holds]
        exact List.mem_singleton_self _
  | range index low high =>
      have free : index ≠ Condition.reserved := by
        rintro rfl
        exact extend_reserved φ pinned v low high _ h
      cases hpin : pinned.get? index with
      | some value =>
          rw [extend_pinned free hpin] at h
          cases h
          rw [List.mem_singleton]
          constructor
          · rintro rfl
            exact ⟨[], .pinned free hpin⟩
          · rintro ⟨ns, way⟩
            cases way with
            | pinned _ other =>
                cases hpin.symm.trans other
                rfl
            | number _ unpinned _ => cases hpin.symm.trans unpinned
      | none =>
          obtain ⟨numbers, hnumbers, rfl⟩ := extend_free free hpin h
          rw [List.mem_map]
          constructor
          · rintro ⟨n, hn, rfl⟩
            exact ⟨[n], .number free hpin (((between_ok hnumbers).2 n).mp hn)⟩
          · rintro ⟨ns, way⟩
            cases way with
            | pinned _ pin => cases hpin.symm.trans pin
            | number _ _ between => exact ⟨_, ((between_ok hnumbers).2 _).mpr between, rfl⟩

theorem loopsFrom_error_iff {conditions : List Condition} {vs : List Valuation} :
    (∃ fault, φ.loopsFrom pinned conditions vs = .error fault) ↔
      ∃ v ∈ vs, ∃ fault, φ.loops pinned conditions v = .error fault := by
  induction vs with
  | nil => simp [loopsFrom, bind, Except.bind, pure, Except.pure]
  | cons v vs ih =>
      simp only [loopsFrom_cons, List.mem_cons, exists_eq_or_imp, ← ih]
      cases φ.loops pinned conditions v with
      | error fault => simp [bind, Except.bind]
      | ok first =>
          cases φ.loopsFrom pinned conditions vs with
          | error fault => simp [bind, Except.bind]
          | ok others => simp [bind, Except.bind, pure, Except.pure]

/-- The loops fail if they come to a place where a condition fails, and only then. -/
theorem loops_error_iff {conditions : List Condition} {v : Valuation} :
    (∃ fault, φ.loops pinned conditions v = .error fault) ↔
      φ.ComesToFault pinned conditions v := by
  induction conditions generalizing v with
  | nil => simp [loops, ComesToFault, pure, Except.pure]
  | cons condition rest ih =>
      rw [comesToFault_cons_iff, ← extend_error_iff, loops_cons]
      cases hextend : φ.extend pinned condition v with
      | error fault => exact ⟨fun _ => .inl ⟨fault, rfl⟩, fun _ => ⟨fault, rfl⟩⟩
      | ok vs =>
          change (∃ fault, φ.loopsFrom pinned rest vs = .error fault) ↔ _
          rw [loopsFrom_error_iff]
          constructor
          · rintro ⟨u, hu, fails⟩
            obtain ⟨ns, first⟩ := (mem_extend_iff hextend u).mp hu
            exact .inr ⟨ns, u, first, ih.mp fails⟩
          · rintro (⟨fault, hfault⟩ | ⟨ns, u, first, comes⟩)
            · cases hfault
            · exact ⟨u, (mem_extend_iff hextend u).mpr ⟨ns, first⟩, ih.mpr comes⟩

end Formula

open Formula Action

/-- A search always comes to an end. It hands out what nested loops over the conditions produce,
which is one valuation for every choice of numbers between the limits of the ranges, in the
lexicographic order of the choices. If the loops come to a place where a limit or a test has no
value, wherever this is, the search fails before it hands out any valuation, and a declaration of
variables that rests on it leaves the session as it was. -/
theorem search_runs_nested_loops (φ : Formula) (conditions : List Condition)
    (pinned : Valuation) :
    (∀ found, φ.search conditions pinned = { found := found } ↔
      φ.loops pinned conditions {} = .ok found) ∧
    (∀ found, φ.search conditions pinned = { found := found } →
      φ.InOrder pinned conditions {} found) ∧
    ((∃ fault, φ.search conditions pinned = { fault := some fault }) ↔
      ∃ fault, φ.loops pinned conditions {} = .error fault) ∧
    ((∃ fault, φ.search conditions pinned = { fault := some fault }) ↔
      φ.ComesToFault pinned conditions {}) ∧
    ∀ name indices s, s.formula = φ → indices ≠ [] → φ.ComesToFault {} conditions {} →
      ∃ fault, addVariables name indices conditions s = .error fault s := by
  refine ⟨fun found => search_eq_found_iff, fun found h => ?_, search_eq_fault_iff, ?_, ?_⟩
  · exact inOrder_of_loops (search_eq_found_iff.mp h)
  · rw [search_eq_fault_iff, loops_error_iff]
  · rintro name indices s rfl hindices hfault
    have hranges : conditions ≠ [] := by
      rintro rfl
      simp [ComesToFault] at hfault
    rw [← loops_error_iff, ← search_eq_fault_iff, search_eq_ofOutcome] at hfault
    rw [addVariables_ranged hindices hranges]
    cases hvaluations : s.formula.valuations conditions with
    | ok found => simp [hvaluations, Findings.ofOutcome] at hfault
    | error fault =>
        refine ⟨fault, ?_⟩
        change (lift (s.formula.valuations conditions) >>= _) s = _
        rw [hvaluations]
        rfl

/-- Three valuations below a diagonal. With limits that fail for the last number of the outer range
there is none, though the inner loop has gone well for the first. -/
theorem search_runs_nested_loops_diagonal :
    let below := [Condition.range "i" "1" "2", .range "j" "i" "2"]
    let steep := [Condition.range "i" "1" "2", .range "j" "1" "2 // (2 - i)"]
    (∃ found, found.length = 3 ∧ ({} : Formula).search below = { found := found } ∧
      ({} : Formula).InOrder {} below {} found) ∧
    (∃ found, found.length = 2 ∧
      ({} : Formula).loops {} [.range "j" "1" "2 // (2 - i)"] { entries := [("i", .int 1)] } =
        .ok found) ∧
    (∃ fault, ({} : Formula).search steep = { fault := some fault }) ∧
    ∃ fault, addVariables "x" ["i", "j"] steep {} = .error fault {} := by
  intro below steep
  have hbelow : (({} : Formula).loops {} below {}).toOption.map List.length = some 3 := by
    decide +kernel
  have hinner : (({} : Formula).loops {} [.range "j" "1" "2 // (2 - i)"]
      { entries := [("i", .int 1)] }).toOption.map List.length = some 2 := by
    decide +kernel
  have hsteep : (({} : Formula).loops {} steep {}).toOption.isNone = true := by decide +kernel
  obtain ⟨found, hfound, hlength⟩ := Option.map_eq_some_iff.mp hbelow
  obtain ⟨inner, hin, htwo⟩ := Option.map_eq_some_iff.mp hinner
  obtain ⟨hall, horder, -, -, -⟩ := search_runs_nested_loops {} below {}
  have hsearch := (hall found).mpr (ok_of_toOption hfound)
  obtain ⟨-, -, hfault, hcomes, hdeclare⟩ := search_runs_nested_loops {} steep {}
  have hfails : ∃ fault, ({} : Formula).search steep = { fault := some fault } := by
    refine hfault.mpr (error_iff_not_ok.mpr fun found h => ?_)
    rw [h] at hsteep
    cases hsteep
  exact ⟨⟨found, hlength, hsearch, horder found hsearch⟩, ⟨inner, htwo, ok_of_toOption hin⟩, hfails,
    hdeclare "x" ["i", "j"] {} rfl (by simp) (hcomes.mp hfails)⟩

end QuantFamily
