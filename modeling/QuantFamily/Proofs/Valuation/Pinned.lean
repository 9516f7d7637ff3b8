import QuantFamily.Proofs.Block.Body
import QuantFamily.Proofs.Valuation.Search

/-!
# Pinned searches

A search with pinned indices gives those indices their pinned values without looking at the
conditions that bind them. It is meant to find the valuations of the free search that agree
with the pins. `filter_agreesOn_eq_filter_satisfies` says what it finds in truth: among its
findings, those that satisfy the conditions are the wanted ones, in the same order. The rest
are valuations in which a pinned index lies outside its own range.
-/

namespace QuantFamily

open QuantFamily.Expr (Value)

/-! ## Parts of a valuation -/

theorem restrict_of_keys {w : Valuation} {indices : List String}
    (h : ∀ index ∈ w.keys, index ∈ indices) : Action.restrict w indices = w := by
  unfold Action.restrict
  rw [List.filter_eq_self.mpr]
  intro entry hentry
  simpa using h entry.1 (List.mem_map.mpr ⟨entry, hentry, rfl⟩)

theorem restrict_put {w : Valuation} {indices : List String} {index : String} (value : Value)
    (hw : index ∉ w.keys) (hindex : index ∉ indices) :
    Action.restrict (w.put index value) indices = Action.restrict w indices := by
  simp [Action.restrict, Table.entries_put_of_not_mem value hw, hindex]

theorem get?_restrict (w : Valuation) (indices : List String) (index : String) :
    (Action.restrict w indices).get? index =
      if index ∈ indices then w.get? index else none := by
  unfold Action.restrict Table.get?
  induction w.entries with
  | nil => simp [Table.findEntry]
  | cons entry rest ih =>
      by_cases hk : entry.1 = index
      · subst hk
        by_cases hmem : entry.1 ∈ indices
        · simp [Table.findEntry, hmem]
        · simpa [hmem] using ih
      · by_cases hmem : entry.1 ∈ indices
        · simpa [Table.findEntry, hk, hmem] using ih
        · simpa [Table.findEntry, hk, hmem] using ih

/-- Two valuations give the same values to some indices. -/
def AgreesOn (indices : List String) (v w : Valuation) : Prop :=
  ∀ index ∈ indices, w.get? index = v.get? index

namespace Formula

variable {φ : Formula} {v w : Valuation} {left : List String}

/-! ## Satisfaction -/

/-- A condition holds of a valuation. Its expressions are evaluated where the indices
`earlier` are bound and no others. -/
def Holds (φ : Formula) (earlier : List String) (w : Valuation) : Condition → Prop
  | .test expression => ∃ outcome,
      φ.evaluate expression (Action.restrict w earlier) = .ok outcome ∧ outcome.truth = true
  | .range index low high => ∃ n,
      w.get? index = some (.int n) ∧ φ.Between low high (Action.restrict w earlier) n

/-- All conditions hold of a valuation, each where the indices `earlier` and those of the
conditions before it are bound. -/
def SatisfiesFrom (φ : Formula) : List String → List Condition → Valuation → Prop
  | _, [], _ => True
  | earlier, condition :: rest, w =>
      φ.Holds earlier w condition ∧ φ.SatisfiesFrom (earlier ++ condition.index?.toList) rest w

/-- A valuation satisfies a list of conditions. -/
def Satisfies (φ : Formula) (conditions : List Condition) (w : Valuation) : Prop :=
  φ.SatisfiesFrom [] conditions w

theorem satisfiesFrom_append {earlier : List String} {first second : List Condition} :
    φ.SatisfiesFrom earlier (first ++ second) w ↔
      φ.SatisfiesFrom earlier first w ∧
        φ.SatisfiesFrom (earlier ++ boundIndices first) second w := by
  induction first generalizing earlier with
  | nil => simp [SatisfiesFrom]
  | cons condition rest ih =>
      cases condition with
      | test expression => simp [SatisfiesFrom, ih, and_assoc, Condition.index?]
      | range index low high => simp [SatisfiesFrom, ih, and_assoc, Condition.index?]

theorem satisfies_concat {done : List Condition} {condition : Condition} :
    φ.Satisfies (done ++ [condition]) w ↔
      φ.Satisfies done w ∧ φ.Holds (boundIndices done) w condition := by
  simp [Satisfies, satisfiesFrom_append, SatisfiesFrom]

theorem holds_put {earlier : List String} {condition : Condition} {index : String}
    (value : Value) (hw : index ∉ w.keys) (hearlier : index ∉ earlier)
    (hother : ∀ other ∈ condition.index?, other ≠ index) :
    φ.Holds earlier (w.put index value) condition ↔ φ.Holds earlier w condition := by
  cases condition with
  | test expression => simp [Holds, restrict_put value hw hearlier]
  | range other low high =>
      simp [Holds, restrict_put value hw hearlier,
        Table.get?_put_of_ne w value (hother other rfl)]

/-- A later index has no say in earlier conditions. -/
theorem satisfiesFrom_put {earlier : List String} {conditions : List Condition}
    {index : String} (value : Value) (hw : index ∉ w.keys) (hearlier : index ∉ earlier)
    (hbound : index ∉ boundIndices conditions) :
    φ.SatisfiesFrom earlier conditions (w.put index value) ↔
      φ.SatisfiesFrom earlier conditions w := by
  induction conditions generalizing earlier with
  | nil => simp [SatisfiesFrom]
  | cons condition rest ih =>
      have hother : ∀ other ∈ condition.index?, other ≠ index := by
        rintro other hother rfl
        cases condition <;> simp_all [Condition.index?]
      have hrest : index ∉ boundIndices rest := by
        cases condition <;> simp_all
      have hnext : index ∉ earlier ++ condition.index?.toList := by
        cases condition <;> simp_all [Condition.index?]
      simp only [SatisfiesFrom, holds_put value hw hearlier hother, ih hnext hrest]

/-! ## One round, free and pinned -/

/-- Agreement on those of the left-hand indices that the conditions so far have bound. -/
def AgreesSoFar (left : List String) (v : Valuation) (done : List Condition) (w : Valuation) :
    Prop :=
  ∀ index ∈ left, index ∈ boundIndices done → w.get? index = v.get? index

theorem agreesSoFar_put {done : List Condition} {index low high : String} {value : Value}
    (hfresh : index ∉ boundIndices done) :
    AgreesSoFar left v (done ++ [.range index low high]) (w.put index value) ↔
      AgreesSoFar left v done w ∧ (index ∈ left → v.get? index = some value) := by
  have hkeep : ∀ other ∈ boundIndices done,
      (w.put index value).get? other = w.get? other := by
    intro other hother
    refine Table.get?_put_of_ne w value ?_
    rintro rfl
    exact hfresh hother
  constructor
  · intro h
    constructor
    · intro other hleft hother
      rw [← hkeep other hother]
      exact h other hleft (by simp [hother])
    · intro hleft
      have hvalue := h index hleft (by simp)
      rwa [Table.get?_put_self, eq_comm] at hvalue
  · rintro ⟨hold, hnew⟩ other hleft hother
    rw [boundIndices_append, List.mem_append] at hother
    rcases hother with hother | hother
    · rw [hkeep other hother]
      exact hold other hleft hother
    · have hsame : other = index := by simpa using hother
      subst hsame
      rw [Table.get?_put_self, hnew hleft]

theorem satisfies_put {done : List Condition} {index low high : String} {n : Int}
    (hw : w.keys = boundIndices done) (hfresh : index ∉ boundIndices done) :
    φ.Satisfies (done ++ [.range index low high]) (w.put index (.int n)) ↔
      φ.Satisfies done w ∧ φ.Between low high w n := by
  have hnew : index ∉ w.keys := by rw [hw]; exact hfresh
  have hpart : Action.restrict (w.put index (.int n)) (boundIndices done) = w := by
    rw [restrict_put _ hnew hfresh, restrict_of_keys]
    intro other hother
    rwa [hw] at hother
  rw [satisfies_concat]
  unfold Satisfies
  rw [satisfiesFrom_put _ hnew (by simp) hfresh]
  simp [Holds, hpart]

theorem satisfies_test {done : List Condition} {expression : String} {outcome : Value}
    (hw : w.keys = boundIndices done) (ho : φ.evaluate expression w = .ok outcome) :
    φ.Satisfies (done ++ [.test expression]) w ↔
      φ.Satisfies done w ∧ outcome.truth = true := by
  rw [satisfies_concat]
  simp [Holds, restrict_of_keys (by rw [hw]; exact fun _ h => h), ho]

theorem filter_eq_of_nodup {ns : List Int} (hns : ns.Nodup) (n : Int) :
    ns.filter (fun m => decide (m = n)) = if n ∈ ns then [n] else [] := by
  induction ns with
  | nil => rfl
  | cons m rest ih =>
      rw [List.nodup_cons] at hns
      by_cases h : m = n
      · subst h
        simp [ih hns.2, hns.1]
      · simp [h, Ne.symm h, ih hns.2]

section Round

open Classical

variable {done : List Condition} {index low high expression : String}

theorem filter_extensions_test (hw : w.keys = boundIndices done)
    (hfree : φ.extend {} (.test expression) w = .ok (φ.extensions {} (.test expression) w))
    (hpin : φ.extend (Action.restrict v left) (.test expression) w =
      .ok (φ.extensions (Action.restrict v left) (.test expression) w))
    (hagrees : AgreesSoFar left v done w) (hsat : φ.Satisfies done w) :
    (φ.extensions {} (.test expression) w).filter
        (fun u => AgreesSoFar left v (done ++ [.test expression]) u) =
      (φ.extensions (Action.restrict v left) (.test expression) w).filter
        (fun u => φ.Satisfies (done ++ [.test expression]) u) := by
  obtain ⟨outcome, ho, hfree⟩ := extend_test hfree
  obtain ⟨outcome', ho', hpin⟩ := extend_test hpin
  have hsame : outcome' = outcome := by simpa [ho] using ho'.symm
  subst hsame
  have hagrees' : AgreesSoFar left v (done ++ [.test expression]) w := by
    simpa [AgreesSoFar] using hagrees
  rw [hfree, hpin]
  by_cases htruth : outcome'.truth = true
  · simp [htruth, hagrees', satisfies_test hw ho, hsat]
  · simp [htruth]

/-- Of the values of a left-hand index, only the pinned one agrees; it satisfies the range exactly
if it is one of them. -/
theorem filter_put_pinned {ns : List Int} {n : Int} (hw : w.keys = boundIndices done)
    (hnew : index ∉ boundIndices done) (hleft : index ∈ left) (hn : v.get? index = some (.int n))
    (hnodup : ns.Nodup) (hbetween : ∀ m, m ∈ ns ↔ φ.Between low high w m)
    (hagrees : AgreesSoFar left v done w) (hsat : φ.Satisfies done w) :
    (ns.map fun m => w.put index (.int m)).filter
        (fun u => AgreesSoFar left v (done ++ [.range index low high]) u) =
      [w.put index (.int n)].filter
        (fun u => φ.Satisfies (done ++ [.range index low high]) u) := by
  have hsingle : ∀ m : Int,
      AgreesSoFar left v (done ++ [.range index low high]) (w.put index (.int m)) ↔ m = n := by
    intro m
    rw [agreesSoFar_put hnew, hn]
    simp [hagrees, hleft, eq_comm]
  have hown : φ.Satisfies (done ++ [.range index low high]) (w.put index (.int n)) ↔ n ∈ ns := by
    rw [satisfies_put hw hnew, hbetween n]
    simp [hsat]
  rw [List.filter_map]
  simp only [Function.comp_def, hsingle, filter_eq_of_nodup hnodup n]
  by_cases hmem : n ∈ ns
  · simp [hmem, hown.mpr hmem]
  · simp [hmem, hown]

/-- All values of another index agree, and all of them satisfy the range. -/
theorem filter_put_free {ns : List Int} (hw : w.keys = boundIndices done)
    (hnew : index ∉ boundIndices done) (hleft : index ∉ left)
    (hbetween : ∀ m, m ∈ ns ↔ φ.Between low high w m)
    (hagrees : AgreesSoFar left v done w) (hsat : φ.Satisfies done w) :
    (ns.map fun m => w.put index (.int m)).filter
        (fun u => AgreesSoFar left v (done ++ [.range index low high]) u) =
      (ns.map fun m => w.put index (.int m)).filter
        (fun u => φ.Satisfies (done ++ [.range index low high]) u) := by
  refine List.filter_congr fun u hu => ?_
  obtain ⟨m, hm, rfl⟩ := List.mem_map.mp hu
  rw [decide_eq_decide, agreesSoFar_put hnew, satisfies_put hw hnew]
  exact iff_of_true ⟨hagrees, fun h => absurd h hleft⟩ ⟨hsat, (hbetween m).mp hm⟩

/-- One round from a valuation on which both searches agree: the free extensions that keep
agreeing are the pinned extensions that keep satisfying. -/
theorem filter_extensions_eq {condition : Condition} (hw : w.keys = boundIndices done)
    (hfresh : ∀ index ∈ condition.index?, index ∉ boundIndices done)
    (hint : ∀ index ∈ condition.index?, index ∈ left → ∃ n, v.get? index = some (.int n))
    (hfree : φ.extend {} condition w = .ok (φ.extensions {} condition w))
    (hpin : φ.extend (Action.restrict v left) condition w =
      .ok (φ.extensions (Action.restrict v left) condition w))
    (hagrees : AgreesSoFar left v done w) (hsat : φ.Satisfies done w) :
    (φ.extensions {} condition w).filter
        (fun u => AgreesSoFar left v (done ++ [condition]) u) =
      (φ.extensions (Action.restrict v left) condition w).filter
        (fun u => φ.Satisfies (done ++ [condition]) u) := by
  cases condition with
  | test expression => exact filter_extensions_test hw hfree hpin hagrees hsat
  | range index low high =>
      have hnew := hfresh index rfl
      have hindex : index ≠ Condition.reserved := by
        rintro rfl
        exact extend_reserved φ {} w low high _ hfree
      obtain ⟨ns, hns, hfree⟩ := extend_free hindex rfl hfree
      obtain ⟨hnodup, hbetween⟩ := between_ok hns
      rw [hfree]
      by_cases hleft : index ∈ left
      · obtain ⟨n, hn⟩ := hint index rfl hleft
        have hpinned : (Action.restrict v left).get? index = some (.int n) := by
          rw [get?_restrict, if_pos hleft, hn]
        rw [extend_pinned hindex hpinned, Except.ok.injEq] at hpin
        rw [← hpin]
        exact filter_put_pinned hw hnew hleft hn hnodup hbetween hagrees hsat
      · have hpinned : (Action.restrict v left).get? index = none := by
          rw [get?_restrict, if_neg hleft]
        obtain ⟨ns', hns', hpin⟩ := extend_free hindex hpinned hpin
        have hsame : ns' = ns := by simpa [hns] using hns'.symm
        subst hsame
        rw [hpin]
        exact filter_put_free hw hnew hleft hbetween hagrees hsat

end Round

/-! ## Whole searches -/

/-- Filtering the extensions of a list, when an item that fails `q` has no extension that
passes `p`. -/
theorem filter_flatMap_of_filter {α β : Type} {items : List α} {extend : α → List β}
    {p : β → Bool} {q : α → Bool}
    (h : ∀ a ∈ items, q a = false → ∀ b ∈ extend a, p b = false) :
    (items.flatMap extend).filter p =
      (items.filter q).flatMap fun a => (extend a).filter p := by
  rw [List.filter_flatMap]
  induction items with
  | nil => rfl
  | cons a rest ih =>
      have hrest := ih fun b hb => h b (List.mem_cons_of_mem a hb)
      cases hq : q a with
      | true => simp [hq, hrest]
      | false =>
          have hnone : (extend a).filter p = [] := by
            rw [List.filter_eq_nil_iff]
            intro b hb
            simp [h a List.mem_cons_self hq b hb]
          simp [hq, hrest, hnone]

theorem agreesSoFar_of_mem_extensions {done : List Condition} {condition : Condition}
    {pinned u : Valuation} (hfresh : ∀ index ∈ condition.index?, index ∉ boundIndices done)
    (hok : φ.extend pinned condition w = .ok (φ.extensions pinned condition w))
    (hu : u ∈ φ.extensions pinned condition w)
    (h : AgreesSoFar left v (done ++ [condition]) u) : AgreesSoFar left v done w := by
  cases condition with
  | test expression =>
      rw [eq_of_mem_extensions_test hok hu] at h
      simpa [AgreesSoFar] using h
  | range index low high =>
      obtain ⟨value, rfl⟩ := exists_put_of_mem_extensions hok hu
      exact ((agreesSoFar_put (hfresh index rfl)).mp h).1

theorem satisfies_of_mem_extensions {done : List Condition} {condition : Condition}
    {pinned u : Valuation} (hw : w.keys = boundIndices done)
    (hfresh : ∀ index ∈ condition.index?, index ∉ boundIndices done)
    (hok : φ.extend pinned condition w = .ok (φ.extensions pinned condition w))
    (hu : u ∈ φ.extensions pinned condition w)
    (h : φ.Satisfies (done ++ [condition]) u) : φ.Satisfies done w := by
  have hdone := (satisfies_concat.mp h).1
  cases condition with
  | test expression => rwa [eq_of_mem_extensions_test hok hu] at hdone
  | range index low high =>
      have hnew := hfresh index rfl
      obtain ⟨value, rfl⟩ := exists_put_of_mem_extensions hok hu
      exact (satisfiesFrom_put value (by rwa [hw]) (by simp) hnew).mp hdone

open Classical in
/-- One round from all that the two searches found so far. -/
theorem filter_round_eq {done : List Condition} {condition : Condition}
    {found pinnedFound : List Valuation}
    (hfresh : ∀ index ∈ condition.index?, index ∉ boundIndices done)
    (hint : ∀ index ∈ condition.index?, index ∈ left → ∃ n, v.get? index = some (.int n))
    (hok : ∀ w ∈ found, φ.extend {} condition w = .ok (φ.extensions {} condition w))
    (hpinnedOk : ∀ w ∈ pinnedFound, φ.extend (Action.restrict v left) condition w =
      .ok (φ.extensions (Action.restrict v left) condition w))
    (hpinnedKeys : ∀ w ∈ pinnedFound, w.keys = boundIndices done)
    (h : found.filter (fun w => AgreesSoFar left v done w) =
      pinnedFound.filter (fun w => φ.Satisfies done w)) :
    (found.flatMap (φ.extensions {} condition)).filter
        (fun u => AgreesSoFar left v (done ++ [condition]) u) =
      (pinnedFound.flatMap (φ.extensions (Action.restrict v left) condition)).filter
        (fun u => φ.Satisfies (done ++ [condition]) u) := by
  rw [filter_flatMap_of_filter (q := fun w => AgreesSoFar left v done w),
    filter_flatMap_of_filter (q := fun w => φ.Satisfies done w), h]
  · rw [List.flatMap_def, List.flatMap_def]
    refine congrArg List.flatten (List.map_congr_left fun w hw => ?_)
    have hagrees := h ▸ hw
    rw [List.mem_filter] at hw hagrees
    exact filter_extensions_eq (hpinnedKeys w hw.1) hfresh hint (hok w hagrees.1)
      (hpinnedOk w hw.1) (of_decide_eq_true hagrees.2) (of_decide_eq_true hw.2)
  · intro w hw hbad u hu
    rw [decide_eq_false_iff_not] at hbad ⊢
    exact fun hgood => hbad (satisfies_of_mem_extensions (hpinnedKeys w hw) hfresh
      (hpinnedOk w hw) hu hgood)
  · intro w hw hbad u hu
    rw [decide_eq_false_iff_not] at hbad ⊢
    exact fun hgood => hbad (agreesSoFar_of_mem_extensions hfresh (hok w hw) hu hgood)

open Classical in
/-- The invariant of the two searches, carried over any number of rounds. -/
theorem filter_foldlM_eq (rest done : List Condition)
    {found pinnedFound last pinnedLast : List Valuation}
    (hfree : rest.foldlM (φ.advance {}) found = .ok last)
    (hpin : rest.foldlM (φ.advance (Action.restrict v left)) pinnedFound = .ok pinnedLast)
    (hnodup : (boundIndices (done ++ rest)).Nodup)
    (hint : ∀ index ∈ boundIndices rest, index ∈ left → ∃ n, v.get? index = some (.int n))
    (hkeys : ∀ w ∈ found, w.keys = boundIndices done)
    (hpinnedKeys : ∀ w ∈ pinnedFound, w.keys = boundIndices done)
    (h : found.filter (fun w => AgreesSoFar left v done w) =
      pinnedFound.filter (fun w => φ.Satisfies done w)) :
    last.filter (fun w => AgreesSoFar left v (done ++ rest) w) =
      pinnedLast.filter (fun w => φ.Satisfies (done ++ rest) w) := by
  induction rest generalizing done found pinnedFound with
  | nil =>
      cases hfree
      cases hpin
      simpa using h
  | cons condition rest ih =>
      obtain ⟨next, hnext, hfree⟩ := foldlM_advance_cons hfree
      obtain ⟨pinnedNext, hpinnedNext, hpin⟩ := foldlM_advance_cons hpin
      obtain ⟨hok, rfl⟩ := advance_ok hnext
      obtain ⟨hpinnedOk, rfl⟩ := advance_ok hpinnedNext
      have hfresh : ∀ index ∈ condition.index?, index ∉ boundIndices done :=
        index_fresh (boundIndices_append done (condition :: rest) ▸ hnodup)
      have hassoc : done ++ condition :: rest = (done ++ [condition]) ++ rest := by simp
      rw [boundIndices_cons] at hint
      rw [hassoc] at hnodup ⊢
      refine ih (done ++ [condition]) hfree hpin hnodup
        (fun index hindex => hint index (List.mem_append_right _ hindex)) ?_ ?_ ?_
      · rw [boundIndices_concat]
        exact fun _ hu => keys_of_mem_round hkeys hfresh hok hu
      · rw [boundIndices_concat]
        exact fun _ hu => keys_of_mem_round hpinnedKeys hfresh hpinnedOk hu
      · exact filter_round_eq hfresh
          (fun index hindex => hint index (List.mem_append_left _ (by simpa using hindex)))
          hok hpinnedOk hpinnedKeys h

open Classical in
theorem filter_start_eq :
    [({} : Valuation)].filter (fun w => AgreesSoFar left v [] w) =
      [({} : Valuation)].filter (fun w => φ.Satisfies [] w) := by
  rw [List.filter_eq_self.mpr, List.filter_eq_self.mpr]
  · intro w _
    exact decide_eq_true trivial
  · intro w _
    exact decide_eq_true fun index _ h => by simp at h

open Classical in
/-- The free search finds only valuations that satisfy its conditions. -/
theorem satisfies_of_mem_valuations {conditions : List Condition} {all : List Valuation}
    (hnodup : (boundIndices conditions).Nodup) (h : φ.valuations conditions = .ok all)
    (hw : w ∈ all) : φ.Satisfies conditions w := by
  rw [valuations_eq_foldlM] at h
  -- With no index on the left both searches are the free one.
  have hpin : conditions.foldlM (φ.advance (Action.restrict {} [])) [{}] = .ok all := h
  have hboth := filter_foldlM_eq conditions [] h hpin (by simpa using hnodup) (by simp)
    (by simp [Table.keys]) (by simp [Table.keys]) filter_start_eq
  have hmem : w ∈ all.filter (fun w => AgreesSoFar [] {} ([] ++ conditions) w) := by
    simp [hw, AgreesSoFar]
  rw [hboth, List.mem_filter] at hmem
  simpa using hmem.2

theorem exists_int_of_satisfiesFrom {earlier : List String} {conditions : List Condition}
    {index : String} (h : φ.SatisfiesFrom earlier conditions w)
    (hindex : index ∈ boundIndices conditions) : ∃ n, w.get? index = some (.int n) := by
  induction conditions generalizing earlier with
  | nil => simp at hindex
  | cons condition rest ih =>
      obtain ⟨hhead, hrest⟩ := h
      cases condition with
      | test expression => exact ih hrest hindex
      | range other low high =>
          rcases List.mem_cons.mp hindex with rfl | hindex
          · obtain ⟨n, hn, -⟩ := hhead
            exact ⟨n, hn⟩
          · exact ih hrest hindex

theorem agreesSoFar_iff_agreesOn {conditions : List Condition}
    (hv : v.keys = boundIndices conditions) (hw : w.keys = boundIndices conditions) :
    AgreesSoFar left v conditions w ↔ AgreesOn left v w := by
  constructor
  · intro h index hleft
    by_cases hbound : index ∈ boundIndices conditions
    · exact h index hleft hbound
    · rw [← hw] at hbound
      rw [Table.get?_eq_none_iff.mpr hbound]
      rw [hw, ← hv] at hbound
      rw [Table.get?_eq_none_iff.mpr hbound]
  · intro h index hleft _
    exact h index hleft

open Classical in
/-- What a pinned search finds: its satisfying findings are the valuations of the free
search that agree with the pins, in the same order. -/
theorem filter_agreesOn_eq_filter_satisfies {conditions : List Condition}
    {all found : List Valuation} (hnodup : (boundIndices conditions).Nodup)
    (hall : φ.valuations conditions = .ok all) (hv : v ∈ all)
    (hfound : φ.valuations conditions (Action.restrict v left) = .ok found) :
    all.filter (fun w => AgreesOn left v w) =
      found.filter (fun w => φ.Satisfies conditions w) := by
  have hkeys : ∀ w ∈ all, w.keys = boundIndices conditions :=
    fun w hw => keys_of_mem_valuations hnodup hall hw
  have hsat := satisfies_of_mem_valuations hnodup hall hv
  rw [valuations_eq_foldlM] at hall hfound
  have hboth := filter_foldlM_eq conditions [] hall hfound (by simpa using hnodup)
    (fun index hindex _ => exists_int_of_satisfiesFrom hsat hindex)
    (by simp [Table.keys]) (by simp [Table.keys]) filter_start_eq
  rw [← List.nil_append conditions, ← hboth]
  refine List.filter_congr fun w hw => ?_
  rw [decide_eq_decide, List.nil_append, agreesSoFar_iff_agreesOn (hkeys v hv) (hkeys w hw)]

/-! ## Searches that can be run

Values have no decidable equality. Findings that bind integers only are compared by their
integers. -/

/-- The valuation with the given integers. -/
def ofInts (entries : List (String × Int)) : Valuation :=
  { entries := entries.map fun entry => (entry.1, .int entry.2) }

/-- The entries of a valuation, if all of them are integers. -/
def ints? : List (String × Value) → Option (List (String × Int))
  | [] => some []
  | (index, .int n) :: rest => (ints? rest).map ((index, n) :: ·)
  | _ :: _ => none

/-- The findings of a search, if it went through and they are integers. -/
def intFindings? : Except Fault (List Valuation) → Option (List (List (String × Int)))
  | .ok found => found.mapM fun w => ints? w.entries
  | .error _ => none

theorem eq_of_ints? {entries : List (String × Value)} {ns : List (String × Int)}
    (h : ints? entries = some ns) : entries = ns.map fun entry => (entry.1, .int entry.2) := by
  fun_induction ints? entries generalizing ns with
  | case1 =>
      cases h
      rfl
  | case2 index n rest ih =>
      obtain ⟨ms, hms, rfl⟩ := Option.map_eq_some_iff.mp h
      simp [ih hms]
  | case3 => simp at h

theorem eq_ok_of_intFindings? {outcome : Except Fault (List Valuation)}
    {findings : List (List (String × Int))} (h : intFindings? outcome = some findings) :
    outcome = .ok (findings.map ofInts) := by
  cases outcome with
  | error fault => simp [intFindings?] at h
  | ok found =>
      simp only [intFindings?] at h
      congr 1
      induction found generalizing findings with
      | nil =>
          cases h
          rfl
      | cons w rest ih =>
          rw [List.mapM_cons] at h
          obtain ⟨ns, hns, h⟩ := Option.bind_eq_some_iff.mp h
          obtain ⟨others, hothers, h⟩ := Option.bind_eq_some_iff.mp h
          cases h
          rw [List.map_cons, ← ih hothers]
          congr 1
          unfold ofInts
          rw [← eq_of_ints? hns]

/-! ## When pinning does no harm -/

/-- Pinning does no harm: the pinned search goes through, and in all that it finds the
pinned indices lie in their own ranges, as every condition asks. -/
def PinsSafely (φ : Formula) (conditions : List Condition) (v : Valuation)
    (left : List String) : Prop :=
  ∃ found, φ.valuations conditions (Action.restrict v left) = .ok found ∧
    ∀ w ∈ found, φ.Satisfies conditions w

open Classical in
theorem valuations_restrict_eq_iff {conditions : List Condition} {all : List Valuation}
    (hnodup : (boundIndices conditions).Nodup) (hall : φ.valuations conditions = .ok all)
    (hv : v ∈ all) :
    φ.valuations conditions (Action.restrict v left) =
        .ok (all.filter fun w => AgreesOn left v w) ↔
      φ.PinsSafely conditions v left := by
  constructor
  · intro h
    refine ⟨_, h, fun w hw => ?_⟩
    exact satisfies_of_mem_valuations hnodup hall (List.mem_filter.mp hw).1
  · rintro ⟨found, hfound, hsat⟩
    rw [hfound, filter_agreesOn_eq_filter_satisfies hnodup hall hv hfound,
      List.filter_eq_self.mpr]
    intro w hw
    exact decide_eq_true (hsat w hw)

open Classical in
/-- Under safe pins, what a body holds comes from the valuations of the free search. -/
theorem inBody_iff_of_pinsSafely {conditions : List Condition} {all : List Valuation}
    (hnodup : (boundIndices conditions).Nodup) (hall : φ.valuations conditions = .ok all)
    (hv : v ∈ all) (hsafe : φ.PinsSafely conditions v left) (name : String)
    (bricks : List Brick) (e : Id) :
    (φ.withBlock name).InBody conditions (Action.restrict v left) bricks e ↔
      (∃ grouping ids, .all grouping ∈ bricks ∧ φ.groupings.get? grouping = some ids ∧ e ∈ ids) ∨
        ∃ brick ∈ bricks, ∃ w ∈ all, AgreesOn left v w ∧
          (φ.withBlock name).StandsFor (Action.restrict v left) w brick e := by
  have hfound := (valuations_restrict_eq_iff hnodup hall hv).mpr hsafe
  -- The search reads the values of the formula and not its register of blocks.
  have hsame : (φ.withBlock name).valuations conditions (Action.restrict v left) =
      φ.valuations conditions (Action.restrict v left) :=
    valuations_congr (show (φ.withBlock name).values = φ.values from rfl) _ _
  unfold InBody
  rw [hsame, hfound]
  refine or_congr Iff.rfl ?_
  constructor
  · rintro ⟨found, hok, brick, hbrick, w, hw, hstands⟩
    cases hok
    obtain ⟨hw, hagrees⟩ := List.mem_filter.mp hw
    exact ⟨brick, hbrick, w, hw, of_decide_eq_true hagrees, hstands⟩
  · rintro ⟨brick, hbrick, w, hw, hagrees, hstands⟩
    exact ⟨_, rfl, brick, hbrick, w, List.mem_filter.mpr ⟨hw, decide_eq_true hagrees⟩, hstands⟩

open Classical in
/-- The pinned search finds exactly the valuations of the free search that agree with the
pins, in the same order, if and only if pinning does no harm; whatever it finds, the
satisfying part is what was wanted. Where pinning does no harm, the block that a valuation
names holds its groupings and what its other bricks stand for under the valuations that
satisfy the conditions and agree on the left-hand indices. -/
theorem pinned_search_exact {conditions : List Condition} {all : List Valuation}
    (hnodup : (boundIndices conditions).Nodup) (hall : φ.valuations conditions = .ok all)
    (hv : v ∈ all) (left : List String) :
    (φ.valuations conditions (Action.restrict v left) =
        .ok (all.filter fun w => AgreesOn left v w) ↔ φ.PinsSafely conditions v left) ∧
      (∀ found, φ.valuations conditions (Action.restrict v left) = .ok found →
        all.filter (fun w => AgreesOn left v w) =
          found.filter fun w => φ.Satisfies conditions w) ∧
      ∀ (definition : Definition) (grouping : Option String) (s t : Session) (id : Id),
        φ.PinsSafely conditions v left → s.formula = φ → definition.indices = left →
        Action.addBlock definition conditions grouping v s = .ok (some id) t →
        ∃ b indices, t.formula.contents.get? id = some b ∧
          φ.substitute left v = .ok indices ∧ headName definition.name indices = .ok b.name ∧
          ∀ e, e ∈ b.body ↔
            (∃ grouping ids, .all grouping ∈ definition.bricks ∧
              φ.groupings.get? grouping = some ids ∧ e ∈ ids) ∨
            ∃ brick ∈ definition.bricks, ∃ w ∈ all, AgreesOn left v w ∧
              (φ.withBlock b.name).StandsFor (Action.restrict v left) w brick e := by
  refine ⟨valuations_restrict_eq_iff hnodup hall hv,
    fun found => filter_agreesOn_eq_filter_satisfies hnodup hall hv, ?_⟩
  intro definition grouping s t id hsafe hs hleft run
  rcases (Action.addBlock_leads definition conditions grouping v).of_ok hs run with
    ⟨hnone, -⟩ | ⟨b, hdefines, hid, ht⟩
  · cases hnone
  · cases hid
    subst hleft
    obtain ⟨indices, hindices, hname⟩ := hdefines.named
    refine ⟨b, indices, by simp [ht, withContents], hindices, hname, fun e => ?_⟩
    rw [hdefines.mem_body, inBody_iff_of_pinsSafely hnodup hall hv hsafe]

/-- A second index that runs from the first one upwards. -/
def triangle : List Condition := [.range "i" "1" "2", .range "j" "i" "2"]

/-- A second index that is assigned the first one. -/
def diagonal : List Condition := [.range "i" "1" "2", .range "j" "i" "i"]

/-- Two variables and nothing else. -/
def twoVariables : Formula :=
  { counter := 2, vars := Table.ofList [("x( 1 )", 1), ("x( 2 )", 2)] }

open Classical in
theorem pinned_search_exact_triangle :
    let all := [[("i", 1), ("j", 1)], [("i", 1), ("j", 2)], [("i", 2), ("j", 2)]].map ofInts
    let v := ofInts [("i", 1), ("j", 1)]
    let row : Definition := ⟨"R", ["i"], [.ref true "x" ["j"]]⟩
    twoVariables.valuations triangle = .ok all ∧ v ∈ all ∧
      twoVariables.valuations triangle (Action.restrict v ["i"]) =
        .ok (all.filter fun w => AgreesOn ["i"] v w) ∧
      ∃ t b, Action.addBlock row triangle none v { formula := twoVariables } = .ok (some 3) t ∧
        t.formula.contents.get? 3 = some b ∧
        ∀ e, e ∈ b.body ↔ ∃ w ∈ all, AgreesOn ["i"] v w ∧
          (twoVariables.withBlock b.name).StandsFor (Action.restrict v ["i"]) w
            (.ref true "x" ["j"]) e := by
  intro all v row
  have hall : twoVariables.valuations triangle = .ok all :=
    eq_ok_of_intFindings? (by decide +kernel)
  have hv : v ∈ all := by simp [all, v]
  have hfound : twoVariables.valuations triangle (Action.restrict v ["i"]) =
      .ok ([[("i", 1), ("j", 1)], [("i", 1), ("j", 2)]].map ofInts) :=
    eq_ok_of_intFindings? (by decide +kernel)
  have hnodup : (boundIndices triangle).Nodup := by decide
  have hsafe : twoVariables.PinsSafely triangle v ["i"] := by
    refine ⟨_, hfound, fun w hw => satisfies_of_mem_valuations hnodup hall ?_⟩
    simp only [List.map_cons, List.map_nil, List.mem_cons, List.not_mem_nil, or_false] at hw
    rcases hw with rfl | rfl <;> simp [all]
  obtain ⟨hexact, -, hblock⟩ := pinned_search_exact hnodup hall hv ["i"]
  obtain ⟨t, run⟩ : ∃ t, Action.addBlock row triangle none v { formula := twoVariables } =
      .ok (some 3) t := ⟨_, Action.ok_of_perform (by decide +kernel)⟩
  obtain ⟨b, -, hb, -, -, hbody⟩ := hblock row none _ t 3 hsafe rfl rfl run
  refine ⟨hall, hv, hexact.mpr hsafe, t, b, run, hb, fun e => ?_⟩
  rw [hbody]
  simp [row]

open Classical in
/-- A valuation too many: with the assigned index pinned, its source runs free. -/
theorem pinned_search_finds_stray :
    ¬ ∀ (φ : Formula) (conditions : List Condition) (all : List Valuation) (v : Valuation)
      (left : List String), (boundIndices conditions).Nodup →
      φ.valuations conditions = .ok all → v ∈ all →
      φ.valuations conditions (Action.restrict v left) =
        .ok (all.filter fun w => AgreesOn left v w) := by
  intro h
  have hall : twoVariables.valuations diagonal =
      .ok ([[("i", 1), ("j", 1)], [("i", 2), ("j", 2)]].map ofInts) :=
    eq_ok_of_intFindings? (by decide +kernel)
  have hfound : twoVariables.valuations diagonal
      (Action.restrict (ofInts [("i", 1), ("j", 1)]) ["j"]) =
      .ok ([[("i", 1), ("j", 1)], [("i", 2), ("j", 1)]].map ofInts) :=
    eq_ok_of_intFindings? (by decide +kernel)
  have hexact := h twoVariables diagonal _ (ofInts [("i", 1), ("j", 1)]) ["j"] (by decide) hall
    (by simp)
  rw [hfound, Except.ok.injEq] at hexact
  have hstray : ofInts [("i", 2), ("j", 1)] ∈
      [[("i", 1), ("j", 1)], [("i", 2), ("j", 1)]].map ofInts := by simp
  rw [hexact] at hstray
  have hmem := (List.mem_filter.mp hstray).1
  simp [ofInts] at hmem

end Formula

end QuantFamily
