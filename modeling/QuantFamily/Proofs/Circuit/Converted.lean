import QuantFamily.Proofs.Circuit.Pass
import QuantFamily.Proofs.Circuit.Quantified
import QuantFamily.Proofs.Circuit.Reading

/-!
# Numbers in converted texts

The variables of a text that is read are the numbers from one up to their count, and neither
reading nor the passes bring in others. If all of them are left in the circuit that is written,
then the numbers of its gates come after them.
-/

namespace QuantFamily.Circuit

theorem Represents.over {n : Nat} {c r : Circuit} (h : Represents c r) (hc : Over n c) : Over n r :=
  ⟨h.regular, fun v hv => hc.range v (h.occurs v hv)⟩

/-- What is prepared represents what is read, and nothing changes about the variables. -/
theorem prepare_represents {conversion : Conversion} {text : String} {document : Document}
    {c : Circuit} (h : conversion.prepare text = .ok (document, c)) :
    ∃ n : Nat, Over n c ∧ (∀ v ∈ document.scopes.flatMap Scope.vars, 1 ≤ v ∧ v ≤ n) ∧
      ((document.scopes.flatMap Scope.vars).Nodup →
        ∀ v : Int, 1 ≤ v → v ≤ n → v ∈ document.scopes.flatMap Scope.vars) := by
  unfold Conversion.prepare at h
  obtain ⟨found, hread, h⟩ := exists_ok_of_bind h
  obtain ⟨n, hover, hvars, hall⟩ := vars_of_read hread
  have hrecorded : ({ given := found.gateNames } : Names).Recorded Pass.Expands Pass.Simplifies :=
    (Names.Reached.fresh found.gateNames).recorded
  have hsecond : ∀ d t, t.Recorded Pass.Expands Pass.Simplifies → Represents found.output d →
      Pass.Ends Pass.Expands Pass.Simplifies (Pass.simplify d) t (Represents found.output) :=
    fun d t ht hd => Pass.Ends.mono (Pass.simplify_ends hd.regular ht) fun _ hr =>
      hd.trans (hr hd.regular).1
  have hpasses : Pass.Ends Pass.Expands Pass.Simplifies
      (if conversion.keepChoices = true then pure found.output >>= Pass.simplify
        else Pass.expand found.output >>= Pass.simplify)
      { given := found.gateNames } (Represents found.output) := by
    split
    · exact Pass.Ends.bind (Pass.Ends.pure hrecorded (Represents.refl hover.regular)) hsecond
    · exact Pass.Ends.bind (Pass.Ends.mono (Pass.expand_ends hover.regular hrecorded) fun _ hr =>
        (hr hover.regular).1) hsecond
  obtain ⟨r, t, hrun, -, hr⟩ := hpasses
  dsimp only [EStateM.run] at h
  rw [hrun] at h
  cases h
  exact ⟨n, hr.over hover, hvars, hall⟩

/-! ## The greatest number -/

theorem le_foldl_max (ns : List Int) (m : Int) :
    m ≤ ns.foldl max m ∧ ∀ n ∈ ns, n ≤ ns.foldl max m := by
  induction ns generalizing m with
  | nil => simp
  | cons k ns ih =>
      obtain ⟨hstart, hrest⟩ := ih (max m k)
      refine ⟨?_, List.forall_mem_cons.mpr ⟨?_, hrest⟩⟩
      · exact Int.le_trans (Int.le_max_left m k) hstart
      · exact Int.le_trans (Int.le_max_right m k) hstart

theorem le_largest {numbers : Table Circuit Int} {c : Circuit} {n : Int}
    (h : numbers.get? c = some n) : n ≤ Numbering.largest numbers := by
  have hmem := Table.mem_values_of_get? h
  unfold Numbering.largest
  split
  · rename_i hvalues
    rw [hvalues] at hmem
    cases hmem
  · rename_i first rest hvalues
    rw [hvalues] at hmem
    rcases List.mem_cons.mp hmem with rfl | hmem
    · exact (le_foldl_max rest n).1
    · exact (le_foldl_max rest first).2 n hmem

section Numbers

variable {n : Nat} {c entry : Circuit} {numbers : Table Circuit Int} {k : Int}

/-- If the variables of a circuit are the numbers from one to `n`, no number is greater than the
greatest one that was given out, whatever its sign, and none is zero. -/
theorem natAbs_le_largest (numbered : Numbered (· ∈ c.occurrences) numbers)
    (hvars : ∀ v, v ∈ c.occurrences ↔ 1 ≤ v ∧ v ≤ n) :
    (∀ v ∈ c.occurrences, (v : Int) ≤ Numbering.largest numbers) ∧
      ∀ entry k, numbers.get? entry = some k → k ≠ 0 ∧ (k.natAbs : Int) ≤ Numbering.largest numbers := by
  have hliteral : ∀ v ∈ c.occurrences, (v : Int) ≤ Numbering.largest numbers := by
    intro v hv
    obtain ⟨m, hm⟩ := numbered.literal v (by simpa using hv)
    have hle := le_largest hm
    rcases numbered.node _ m rfl hm with ⟨w, hw, -, rfl⟩ | ⟨k, hpos, hk, rfl, -⟩
    · cases hw
      exact hle
    · -- A number that is not one of the variables comes after all of them.
      have hn := (hvars v).mp hv
      rw [hvars] at hk
      omega
  have hnode : ∀ entry k, entry.isNode = true → numbers.get? entry = some k →
      k ≠ 0 ∧ (k.natAbs : Int) ≤ Numbering.largest numbers := by
    intro entry k hentry hk
    have hle := le_largest hk
    rcases numbered.node entry k hentry hk with ⟨m, rfl, hm, rfl⟩ | ⟨j, hpos, -, rfl, -⟩
    · have hn := (hvars _).mp hm
      exact ⟨by omega, hliteral _ hm⟩
    · omega
  refine ⟨hliteral, fun entry k hk => ?_⟩
  rcases numbered.negation entry k hk with hentry | ⟨d, hd, -, hopposite⟩
  · exact hnode entry k hentry hk
  · have hd := hnode d (-k) hd hopposite
    omega

end Numbers

/-! ## Numbers of gates -/

section Gates

variable {given : Table Circuit (List String)} {c : Circuit} {l : Layout} {gates : List Int}

theorem eq_map_of_mapM_number {numbers : Table Circuit Int} {entries : List (Circuit × Place)}
    (h : entries.mapM (fun entry => Numbering.number numbers entry.1) = .ok gates) :
    gates = (entries.map (·.1)).map fun d => (numbers.get? d).getD 0 := by
  obtain ⟨n, rfl, hn⟩ := exists_map_of_mapM h
  rw [List.map_map]
  refine List.map_congr_left fun entry hentry => ?_
  rw [Function.comp, get?_of_number (hn entry hentry), Option.getD_some]

theorem gateNumbers_of_layout (h : layout given c = .ok l)
    (hgates : l.gates.mapM (fun entry => Numbering.number l.numbers entry.1) = .ok gates) :
    gates.Nodup ∧ ∀ n ∈ gates, 0 < n ∧ n.natAbs ∉ c.occurrences ∧
      ∃ gate, l.numbers.get? gate = some n := by
  obtain ⟨hnodup, hmem⟩ := gates_of_layout h
  obtain ⟨hnumbered, hplaced⟩ := numbers_of_layout h
  have hgate : ∀ d ∈ l.gates.map (·.1), ∃ k : Nat, 0 < k ∧ k ∉ c.occurrences ∧
      l.numbers.get? d = some (k : Int) := by
    intro d hd
    obtain ⟨hpart, hnode, hlit⟩ := (hmem d).mp hd
    obtain ⟨n, hn⟩ := hplaced d hpart hnode
    rcases hnumbered.node d n hnode hn with ⟨m, rfl, -, -⟩ | ⟨k, hpos, hk, rfl, -⟩
    · cases hlit
    · exact ⟨k, hpos, hk, hn⟩
  rw [eq_map_of_mapM_number hgates]
  constructor
  · refine hnodup.map_on fun d hd e he heq => ?_
    obtain ⟨k, -, hk, hdk⟩ := hgate d hd
    obtain ⟨j, -, -, hej⟩ := hgate e he
    rw [hdk, hej, Option.getD_some, Option.getD_some] at heq
    rw [← heq] at hej
    exact hnumbered.apart d e k ((hmem d).mp hd).2.1 ((hmem e).mp he).2.1 hk hdk hej
  · intro n hn
    obtain ⟨d, hd, rfl⟩ := List.mem_map.mp hn
    obtain ⟨k, hpos, hk, hdk⟩ := hgate d hd
    rw [hdk, Option.getD_some]
    exact ⟨by omega, by simpa using hk, d, hdk⟩

end Gates

/-- If all variables of a text are different and left in the circuit that is written, then the
gates have numbers that are not those of variables, so the written prefix binds every number once,
and no number in the prefix and in the clauses is greater than the first line says. -/
theorem gates_numbered_after_variables {conversion : Conversion} {text written : String}
    {document : Document} {c : Circuit} (format : conversion.format = "qdimacs")
    (prepared : conversion.prepare text = .ok (document, c))
    (distinct : (document.scopes.flatMap Scope.vars).Nodup) (varying : ∀ b, c ≠ .const b)
    (used : ∀ v ∈ document.scopes.flatMap Scope.vars, v.natAbs ∈ c.occurrences)
    (completed : conversion.run text = { text := some written }) :
    ∃ l gates rest sheet, layout document.gateNames c = .ok l ∧
      l.gates.mapM (fun entry => Numbering.number l.numbers entry.1) = .ok gates ∧
      (∀ n ∈ gates, n ∉ document.scopes.flatMap Scope.vars) ∧
      written = nameLines "c " (conversion.setting document) ++ rest ∧
      Sheet.read? rest = some sheet ∧
      (sheet.scopes.flatMap Scope.vars).Nodup ∧
      (∀ v ∈ sheet.scopes.flatMap Scope.vars, v ≤ sheet.greatest) ∧
      ∀ clause ∈ sheet.clauses, ∀ n ∈ clause, (n.natAbs : Int) ≤ sheet.greatest := by
  obtain ⟨n, hover, hvars, hall⟩ := prepare_represents prepared
  have hoccurs : ∀ v, v ∈ c.occurrences ↔ 1 ≤ v ∧ v ≤ n := fun v =>
    ⟨hover.range v, fun hv => used v (hall distinct v (by omega) (by omega))⟩
  rw [run_of_prepare format prepared] at completed
  obtain ⟨l, sheet, hlayout, describes, rfl⟩ := sheet_of_writeClauses varying completed
  obtain ⟨gates, hgates, hscopes⟩ := describes.scopes
  obtain ⟨hliteral, hentry⟩ := natAbs_le_largest (numbers_of_layout hlayout).1 hoccurs
  obtain ⟨hnodup, hgate⟩ := gateNumbers_of_layout hlayout hgates
  have hapart : ∀ k ∈ gates, k ∉ document.scopes.flatMap Scope.vars := fun k hk hv =>
    (hgate k hk).2.1 (used k hv)
  have hbound : ∀ v ∈ document.scopes.flatMap Scope.vars ++ gates,
      0 < v ∧ v ≤ sheet.greatest := by
    intro v hv
    rw [describes.greatest]
    rcases List.mem_append.mp hv with hv | hv
    · have hpos := (hvars v hv).1
      have hle := hliteral _ (used v hv)
      omega
    · obtain ⟨hpos, -, gate, hget⟩ := hgate v hv
      exact ⟨hpos, le_largest hget⟩
  have hclauses : ∀ clause ∈ sheet.clauses, ∀ k ∈ clause,
      k ≠ 0 ∧ (k.natAbs : Int) ≤ sheet.greatest := by
    intro clause hclause k hk
    obtain ⟨entry, hget⟩ := describes.exists_entry hclause hk
    exact describes.greatest ▸ hentry entry k hget
  have hlegible : sheet.Legible := by
    refine ⟨describes.binder, fun scope hscope v hv => ?_, fun clause hclause k hk => ?_⟩
    · have := (hbound v (mem_of_withGates hscopes (List.mem_flatMap.mpr ⟨scope, hscope, hv⟩))).1
      omega
    · exact (hclauses clause hclause k hk).1
  refine ⟨l, gates, sheet.text, sheet, hlayout, hgates, hapart, rfl, Sheet.read?_text hlegible, ?_,
    fun v hv => (hbound v (mem_of_withGates hscopes hv)).2,
    fun clause hclause k hk => (hclauses clause hclause k hk).2⟩
  by_cases hne : document.scopes = []
  · rw [hne] at hscopes
    rw [← Except.ok.inj hscopes]
    exact List.nodup_nil
  · rw [vars_withGates hne hscopes]
    exact distinct.append hnodup fun v hv hmem => hapart v hmem hv

def mixedText : String :=
  "#QCIR-G14\nexists(1)\nforall(2)\noutput(9)\n4 = xor(1, 2)\n3 = ite(1, -2, 4)\n9 = or(-4, 3)\n"

def mixedConversion : Conversion where
  keepVariableNames := false
  keepChoices := true

def mixedDocument : Document where
  scopes := mixedScopes
  output := mixedCircuit
  variableNames := {}
  gateNames := (mixedSetting {}).gateNames

theorem gates_numbered_after_variables_mixed :
    ∃ document, mixedConversion.prepare mixedText = .ok (document, mixedCircuit) ∧
      (document.scopes.flatMap Scope.vars).Nodup ∧ (∀ b, mixedCircuit ≠ .const b) ∧
      (∀ v ∈ document.scopes.flatMap Scope.vars, v.natAbs ∈ mixedCircuit.occurrences) ∧
      mixedConversion.run mixedText = { text := some mixedSheet.text } ∧
      (mixedSheet.scopes.flatMap Scope.vars).Nodup ∧
      (∀ v ∈ mixedSheet.scopes.flatMap Scope.vars, v ≤ mixedSheet.greatest) ∧
      ∀ clause ∈ mixedSheet.clauses, ∀ n ∈ clause, (n.natAbs : Int) ≤ mixedSheet.greatest := by
  have hcheck : mixedConversion.prepares mixedText mixedDocument mixedCircuit = true := by
    decide +kernel
  obtain ⟨names, hprepare⟩ := prepare_of_prepares hcheck
  have hrun : mixedConversion.run mixedText = { text := some mixedSheet.text } :=
    (run_of_prepare rfl hprepare).trans (mixedSheet_written names)
  have hdistinct : (mixedDocument.scopes.flatMap Scope.vars).Nodup := by decide
  have hused : ∀ v ∈ mixedDocument.scopes.flatMap Scope.vars,
      v.natAbs ∈ mixedCircuit.occurrences := by decide +kernel
  have hvarying : ∀ b, mixedCircuit ≠ .const b := fun _ h => by cases h
  obtain ⟨_, _, rest, sheet, -, -, -, htext, hread, hsheet⟩ :=
    gates_numbered_after_variables rfl hprepare hdistinct hvarying hused hrun
  refine ⟨_, hprepare, hdistinct, hvarying, hused, hrun, ?_⟩
  have hrest : mixedSheet.text = rest := htext.trans String.empty_append
  rw [← hrest, Sheet.read?_text ⟨by decide, by decide, by decide⟩] at hread
  cases hread
  exact hsheet

/-- A text with more variables than literals and gates. -/
def crowdedText : String :=
  "#QCIR-G14\nexists(1, 2, 3, 4)\noutput(5)\n5 = and(1, 2)\n"

def crowdedCircuit : Circuit :=
  .and [.lit 1, .lit 2]

def crowdedDocument : Document where
  scopes := [⟨.exists, [1, 2, 3, 4]⟩]
  output := crowdedCircuit
  variableNames := {}
  gateNames := ⟨[(crowdedCircuit, ["5"])]⟩

def crowdedSheet : Sheet where
  greatest := 3
  count := 4
  scopes := [⟨.exists, [1, 2, 3, 4, 3]⟩]
  clauses := [[3], [3, -1, -2], [-3, 1], [-3, 2]]

theorem crowdedSheet_written (names : Table Nat String) :
    (writeClauses (({ keepVariableNames := false } : Conversion).setting
      { crowdedDocument with variableNames := names }) crowdedDocument.scopes
      crowdedCircuit).outcome = { text := some crowdedSheet.text } := by
  refine (congrArg Writing.outcome (writeClauses_unnamed
    (({ keepVariableNames := false } : Conversion).setting crowdedDocument) rfl names _ _)).trans ?_
  unfold writeClauses layout
  simp only [sorted_eq_insertionSort]
  exact outcome_of_text (by decide +kernel) (by decide +kernel)

/-- A variable that does not occur may share its number with a gate. The prefix then binds this
number twice, and another variable is greater than the first line says. -/
theorem unused_variable_number_taken :
    (∃ document l, ({ keepVariableNames := false } : Conversion).prepare crowdedText =
        .ok (document, crowdedCircuit) ∧
      document.scopes = [⟨.exists, [1, 2, 3, 4]⟩] ∧
      layout document.gateNames crowdedCircuit = .ok l ∧
      l.numbers.get? crowdedCircuit = some 3) ∧
    ({ keepVariableNames := false } : Conversion).run crowdedText =
      { text := some crowdedSheet.text } ∧
    Sheet.read? crowdedSheet.text = some crowdedSheet ∧
    ¬ (crowdedSheet.scopes.flatMap Scope.vars).Nodup ∧
    ∃ v ∈ crowdedSheet.scopes.flatMap Scope.vars, crowdedSheet.greatest < v := by
  have hcheck : ({ keepVariableNames := false } : Conversion).prepares crowdedText crowdedDocument
      crowdedCircuit = true := by decide +kernel
  obtain ⟨names, hprepare⟩ := prepare_of_prepares hcheck
  have hread : Sheet.read? crowdedSheet.text = some crowdedSheet :=
    Sheet.read?_text ⟨by decide, by decide, by decide⟩
  refine ⟨?_, (run_of_prepare rfl hprepare).trans (crowdedSheet_written names), hread, by decide, 4,
    by decide, by decide⟩
  have hlayout : ((layout crowdedDocument.gateNames crowdedCircuit).toOption.bind fun l =>
      l.numbers.get? crowdedCircuit) = some 3 := by
    unfold layout
    simp only [sorted_eq_insertionSort]
    decide +kernel
  obtain ⟨l, hl, hget⟩ := Option.bind_eq_some_iff.mp hlayout
  exact ⟨_, l, hprepare, rfl, ok_of_toOption hl, hget⟩

end QuantFamily.Circuit
