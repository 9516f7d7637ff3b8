import QuantFamily.Proofs.Valuation.Queue

/-!
# The search for valuations

The search takes one condition after the other and replaces every valuation found so far by
its extensions. The facts here are about a search that succeeds: what each kind of
condition makes of one valuation, which indices are bound after some conditions, and that
the numbers of a range are exactly those between its limits, each once.
-/

namespace QuantFamily

open QuantFamily.Expr (Value)

/-- The index that a condition binds. -/
def Condition.index? : Condition → Option String
  | .range index _ _ => some index
  | .test _ => none

/-- The indices that conditions bind, in order. -/
def boundIndices (conditions : List Condition) : List String :=
  conditions.filterMap Condition.index?

@[simp] theorem boundIndices_nil : boundIndices [] = [] := rfl

@[simp] theorem boundIndices_test (expression : String) (rest : List Condition) :
    boundIndices (.test expression :: rest) = boundIndices rest := rfl

@[simp] theorem boundIndices_range (index low high : String) (rest : List Condition) :
    boundIndices (.range index low high :: rest) = index :: boundIndices rest := rfl

theorem boundIndices_cons (condition : Condition) (rest : List Condition) :
    boundIndices (condition :: rest) = condition.index?.toList ++ boundIndices rest := by
  cases condition <;> rfl

@[simp] theorem boundIndices_append (first second : List Condition) :
    boundIndices (first ++ second) = boundIndices first ++ boundIndices second :=
  List.filterMap_append

theorem boundIndices_concat (done : List Condition) (condition : Condition) :
    boundIndices (done ++ [condition]) = boundIndices done ++ condition.index?.toList := by
  rw [boundIndices_append, boundIndices_cons, boundIndices_nil, List.append_nil]

/-- An index that is bound only once is not bound before. -/
theorem index_fresh {earlier : List String} {condition : Condition} {rest : List Condition}
    (hnodup : (earlier ++ boundIndices (condition :: rest)).Nodup) :
    ∀ index ∈ condition.index?, index ∉ earlier := by
  intro index hindex hearlier
  rw [boundIndices_cons] at hnodup
  exact (List.nodup_append.mp hnodup).2.2 index hearlier index
    (List.mem_append_left _ (by simpa using hindex)) rfl

/-! ## Numbers between two limits -/

theorem mem_rangeItems_one {a b n : Int} :
    n ∈ Value.rangeItems a (b + 1) 1 ↔ a ≤ n ∧ n ≤ b := by
  have hlength : Value.rangeLength a (b + 1) 1 = (b + 1 - a).toNat := by
    simp [Value.rangeLength, Int.fdiv_one]
  simp only [Value.rangeItems, hlength, List.mem_map, List.mem_range]
  constructor
  · rintro ⟨i, hi, rfl⟩
    simp only [Int.ofNat_eq_natCast]
    omega
  · intro h
    exact ⟨(n - a).toNat, by omega, by simp only [Int.ofNat_eq_natCast]; omega⟩

theorem nodup_rangeItems_one (a b : Int) : (Value.rangeItems a b 1).Nodup := by
  unfold Value.rangeItems
  refine List.Pairwise.map _ (fun i j hij h => hij ?_) List.nodup_range
  simp only [Int.ofNat_eq_natCast] at h
  omega

namespace Formula

/-- A number lies between two limits that are expressions. -/
def Between (φ : Formula) (low high : String) (indices : Valuation) (n : Int) : Prop :=
  ∃ first last a b, φ.evaluate low indices = .ok first ∧ φ.evaluate high indices = .ok last ∧
    first.integer? = some a ∧ last.integer? = some b ∧ a ≤ n ∧ n ≤ b

theorem between_ok {φ : Formula} {low high : String} {indices : Valuation} {ns : List Int}
    (h : φ.between low high indices = .ok ns) :
    ns.Nodup ∧ ∀ n, n ∈ ns ↔ φ.Between low high indices n := by
  unfold between at h
  obtain ⟨first, hlow, h⟩ := exists_ok_of_bind h
  obtain ⟨last, hhigh, h⟩ := exists_ok_of_bind h
  cases ha : first.integer? with
  | none =>
      rw [ha] at h
      cases h
  | some a =>
      cases hb : last.integer? with
      | none =>
          rw [ha, hb] at h
          cases h
      | some b =>
          rw [ha, hb] at h
          cases h
          refine ⟨nodup_rangeItems_one a (b + 1), fun n => ?_⟩
          rw [mem_rangeItems_one]
          constructor
          · intro hn
            exact ⟨first, last, a, b, hlow, hhigh, ha, hb, hn.1, hn.2⟩
          · rintro ⟨first', last', a', b', hlow', hhigh', ha', hb', hn⟩
            rw [hlow, Except.ok.injEq] at hlow'
            rw [hhigh, Except.ok.injEq] at hhigh'
            subst hlow' hhigh'
            rw [ha, Option.some.injEq] at ha'
            rw [hb, Option.some.injEq] at hb'
            subst ha' hb'
            exact hn

/-! ## Extensions of one valuation -/

/-- The extensions that a condition makes of a valuation; none if it fails there. -/
def extensions (φ : Formula) (pinned : Valuation) (condition : Condition) (w : Valuation) :
    List Valuation :=
  match φ.extend pinned condition w with
  | .ok ws => ws
  | .error _ => []

theorem extend_test {φ : Formula} {pinned w : Valuation} {expression : String}
    {ws : List Valuation} (h : φ.extend pinned (.test expression) w = .ok ws) :
    ∃ outcome, φ.evaluate expression w = .ok outcome ∧
      ws = if outcome.truth then [w] else [] := by
  obtain ⟨outcome, he, h⟩ := exists_ok_of_bind h
  cases h
  exact ⟨outcome, he, rfl⟩

theorem extend_free {φ : Formula} {pinned w : Valuation} {index low high : String}
    {ws : List Valuation} (hindex : index ≠ Condition.reserved)
    (hpin : pinned.get? index = none)
    (h : φ.extend pinned (.range index low high) w = .ok ws) :
    ∃ ns, φ.between low high w = .ok ns ∧ ws = ns.map fun n => w.put index (.int n) := by
  rw [extend, if_neg hindex, hpin] at h
  obtain ⟨ns, hns, h⟩ := exists_ok_of_bind h
  cases h
  exact ⟨ns, hns, rfl⟩

theorem extend_pinned {φ : Formula} {pinned w : Valuation} {index low high : String}
    {value : Value} (hindex : index ≠ Condition.reserved)
    (hpin : pinned.get? index = some value) :
    φ.extend pinned (.range index low high) w = .ok [w.put index value] := by
  simp [extend, hindex, hpin, pure, Except.pure]

theorem evaluatePair_error (φ : Formula) (low high : String) (indices : Valuation) :
    ∃ fault, φ.evaluatePair low high indices = .error fault := by
  unfold evaluatePair
  dsimp only
  split
  · exact ⟨_, rfl⟩
  · exact ⟨_, rfl⟩

/-- No valuation has an extension by a range of the index that is reserved for tests. -/
theorem extend_reserved (φ : Formula) (pinned w : Valuation) (low high : String)
    (ws : List Valuation) :
    φ.extend pinned (.range Condition.reserved low high) w ≠ .ok ws := by
  intro h
  obtain ⟨fault, hpair⟩ := evaluatePair_error φ low high w
  rw [extend, if_pos rfl] at h
  obtain ⟨outcome, houtcome, -⟩ := exists_ok_of_bind h
  rw [hpair] at houtcome
  cases houtcome

/-! ## Rounds of the search -/

theorem advance_ok {φ : Formula} {pinned : Valuation} {found next : List Valuation}
    {condition : Condition} (h : φ.advance pinned found condition = .ok next) :
    (∀ w ∈ found, φ.extend pinned condition w = .ok (φ.extensions pinned condition w)) ∧
      next = found.flatMap (φ.extensions pinned condition) := by
  obtain ⟨lists, hlists, hnext⟩ := exists_ok_of_bind h
  clear h
  cases hnext
  induction found generalizing lists with
  | nil =>
      cases hlists
      simp
  | cons w rest ih =>
      rw [List.mapM_cons] at hlists
      obtain ⟨ws, hw, hlists⟩ := exists_ok_of_bind hlists
      obtain ⟨others, hrest, hlists⟩ := exists_ok_of_bind hlists
      cases hlists
      obtain ⟨hall, hflat⟩ := ih others hrest
      have hext : φ.extensions pinned condition w = ws := by simp [extensions, hw]
      refine ⟨fun u hu => ?_, by rw [List.flatMap_cons, hext, ← hflat, List.flatten_cons]⟩
      rcases List.mem_cons.mp hu with rfl | hu
      · rw [hext, hw]
      · exact hall u hu

/-- A search goes on from wherever its first round ends. -/
theorem foldlM_advance_cons {φ : Formula} {pinned : Valuation} {found last : List Valuation}
    {condition : Condition} {rest : List Condition}
    (h : (condition :: rest).foldlM (φ.advance pinned) found = .ok last) :
    ∃ next, φ.advance pinned found condition = .ok next ∧
      rest.foldlM (φ.advance pinned) next = .ok last := by
  rw [List.foldlM_cons] at h
  exact exists_ok_of_bind h

theorem exists_put_of_mem_extensions {φ : Formula} {pinned w u : Valuation}
    {index low high : String}
    (hok : φ.extend pinned (.range index low high) w =
      .ok (φ.extensions pinned (.range index low high) w))
    (hu : u ∈ φ.extensions pinned (.range index low high) w) :
    ∃ value, u = w.put index value := by
  have hindex : index ≠ Condition.reserved := by
    rintro rfl
    exact extend_reserved φ pinned w low high _ hok
  cases hpin : pinned.get? index with
  | some value =>
      rw [extend_pinned hindex hpin, Except.ok.injEq] at hok
      rw [← hok, List.mem_singleton] at hu
      exact ⟨value, hu⟩
  | none =>
      obtain ⟨ns, -, hws⟩ := extend_free hindex hpin hok
      rw [hws] at hu
      obtain ⟨n, -, rfl⟩ := List.mem_map.mp hu
      exact ⟨.int n, rfl⟩

theorem eq_of_mem_extensions_test {φ : Formula} {pinned w u : Valuation}
    {expression : String}
    (hok : φ.extend pinned (.test expression) w =
      .ok (φ.extensions pinned (.test expression) w))
    (hu : u ∈ φ.extensions pinned (.test expression) w) : u = w := by
  obtain ⟨outcome, -, hws⟩ := extend_test hok
  rw [hws] at hu
  split at hu
  · exact List.mem_singleton.mp hu
  · simp at hu

/-- The indices that one round leaves bound. -/
theorem keys_of_mem_extensions {φ : Formula} {pinned w u : Valuation} {condition : Condition}
    {earlier : List String} (hkeys : w.keys = earlier)
    (hfresh : ∀ index ∈ condition.index?, index ∉ earlier)
    (hok : φ.extend pinned condition w = .ok (φ.extensions pinned condition w))
    (hu : u ∈ φ.extensions pinned condition w) :
    u.keys = earlier ++ condition.index?.toList := by
  cases condition with
  | test expression =>
      rw [eq_of_mem_extensions_test hok hu, hkeys]
      simp [Condition.index?]
  | range index low high =>
      obtain ⟨value, rfl⟩ := exists_put_of_mem_extensions hok hu
      rw [Table.keys_put_of_not_mem value (by rw [hkeys]; exact hfresh index rfl), hkeys]
      rfl

theorem keys_of_mem_round {φ : Formula} {pinned u : Valuation} {found : List Valuation}
    {condition : Condition} {earlier : List String} (hkeys : ∀ w ∈ found, w.keys = earlier)
    (hfresh : ∀ index ∈ condition.index?, index ∉ earlier)
    (hok : ∀ w ∈ found, φ.extend pinned condition w = .ok (φ.extensions pinned condition w))
    (hu : u ∈ found.flatMap (φ.extensions pinned condition)) :
    u.keys = earlier ++ condition.index?.toList := by
  obtain ⟨w, hw, hu⟩ := List.mem_flatMap.mp hu
  exact keys_of_mem_extensions (hkeys w hw) hfresh (hok w hw) hu

/-- After some conditions exactly their indices are bound. -/
theorem keys_of_mem_foldlM {φ : Formula} {pinned : Valuation} {found last : List Valuation}
    {rest : List Condition} {earlier : List String}
    (h : rest.foldlM (φ.advance pinned) found = .ok last)
    (hnodup : (earlier ++ boundIndices rest).Nodup)
    (hkeys : ∀ w ∈ found, w.keys = earlier) :
    ∀ w ∈ last, w.keys = earlier ++ boundIndices rest := by
  induction rest generalizing found earlier with
  | nil =>
      cases h
      simpa using hkeys
  | cons condition rest ih =>
      obtain ⟨next, hnext, hlast⟩ := foldlM_advance_cons h
      obtain ⟨hok, rfl⟩ := advance_ok hnext
      have hfresh := index_fresh hnodup
      rw [boundIndices_cons, ← List.append_assoc] at hnodup ⊢
      exact ih hlast hnodup fun _ hu => keys_of_mem_round hkeys hfresh hok hu

/-- The findings of a search bind the indices of the conditions, in their order. -/
theorem keys_of_mem_valuations {φ : Formula} {conditions : List Condition}
    {pinned w : Valuation} {found : List Valuation}
    (hnodup : (boundIndices conditions).Nodup)
    (h : φ.valuations conditions pinned = .ok found) (hw : w ∈ found) :
    w.keys = boundIndices conditions := by
  rw [valuations_eq_foldlM] at h
  have hstart : ∀ w ∈ [({} : Valuation)], w.keys = [] := by simp [Table.keys]
  simpa using keys_of_mem_foldlM h (by simpa using hnodup) hstart w hw

end Formula

end QuantFamily
