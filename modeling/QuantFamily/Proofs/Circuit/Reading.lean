import QuantFamily.Proofs.Circuit.Allotment
import QuantFamily.Proofs.Circuit.Clauses
import QuantFamily.Proofs.Gate.Text

/-!
# What is read

A gate line is read if it has the parts of a gate, its kind fits the number of its inputs, its name
is new and its inputs are known. Everything that is read from a text is a circuit of known gates
over the variables of the text, which are numbered from one.
-/

namespace QuantFamily.Circuit

/-- A circuit of known gates over the variables from one to `n`. -/
structure Over (n : Nat) (c : Circuit) : Prop where
  regular : c.Regular
  range : ∀ v ∈ c.occurrences, 1 ≤ v ∧ v ≤ n

theorem over_lit {n : Nat} {k : Int} (hlow : 1 ≤ k) (hhigh : k ≤ n) : Over n (.lit k) := by
  refine ⟨everywhere_iff.mpr ⟨?_, by simp [inputs]⟩, ?_⟩
  · exact decide_eq_true (by omega)
  · simp only [occurrences, List.mem_singleton]
    omega

theorem Over.negate {n : Nat} {c : Circuit} (h : Over n c) : Over n c.negate :=
  ⟨h.regular.negate, by simpa only [occurrences_negate] using h.range⟩

theorem over_of_inputs {n : Nat} {c : Circuit} (hkind : c.isGate = true)
    (h : ∀ d ∈ c.inputs, Over n d) : Over n c := by
  refine ⟨everywhere_iff.mpr ⟨?_, fun d hd => (h d hd).regular⟩, fun v hv => ?_⟩
  · cases c <;> first | rfl | cases hkind
  · rcases mem_occurrences_iff_input.mp hv with ⟨k, rfl, -⟩ | ⟨d, hd, hv⟩
    · cases hkind
    · exact (h d hd).range v hv

namespace Reader

variable {n : Nat} {known after : Known} {c : Circuit}

/-- All variables and gates that are known are over the variables from one to `n`. -/
structure Known.Over (n : Nat) (known : Known) : Prop where
  vars : ∀ name k, known.vars.get? name = some k → 1 ≤ k ∧ k ≤ n
  gates : ∀ name c, known.gates.get? name = some c → Circuit.Over n c

theorem find_over {report : LineFault → Fault} {name : List Char} (hover : known.Over n)
    (h : known.find report name = .ok c) : Circuit.Over n c := by
  unfold Known.find at h
  split at h
  · dsimp only at h
    split at h
    · rename_i hk
      cases h
      exact over_lit (hover.vars _ _ hk).1 (hover.vars _ _ hk).2
    · rename_i d _ hd
      cases h
      exact hover.gates _ c hd
    · cases h
  · cases h

theorem literal_over {report inner : LineFault → Fault} {text : List Char} (hover : known.Over n)
    (h : known.literal report inner text = .ok c) : Circuit.Over n c := by
  unfold Known.literal at h
  split at h
  · cases h
  · cases h
  · rename_i name _ _
    cases hfind : known.find inner name with
    | error fault =>
        rw [hfind] at h
        cases h
    | ok d =>
        rw [hfind] at h
        cases h
        exact (find_over hover hfind).negate
  · exact find_over hover h

theorem find_var {name : String} {k : Int} (hname : isName name.toList = true)
    (h : known.vars.get? name = some k) (report : LineFault → Fault) :
    known.find report name.toList = .ok (.lit k) := by
  simp [Known.find, hname, h]

theorem find_gate {name : String} (hname : isName name.toList = true)
    (hvar : known.vars.get? name = none) (h : known.gates.get? name = some c)
    (report : LineFault → Fault) : known.find report name.toList = .ok c := by
  simp [Known.find, hname, hvar, h]

/-- A literal is read as what stands behind its sign, negated if the sign is a minus. -/
theorem literal_showInt {e : Int}
    (h : ∀ report, known.find report (Text.showInt (e.natAbs : Int)).toList = .ok c)
    (report inner : LineFault → Fault) :
    known.literal report inner (Text.showInt e).toList = .ok (if e < 0 then c.negate else c) := by
  obtain ⟨d, rest, hd⟩ := List.exists_cons_of_ne_nil (Text.showInt_ne_nil (e.natAbs : Int))
  have hminus : d ≠ '-' := by
    rintro rfl
    have hdigit := Text.isDigit_of_mem_showInt (Int.natCast_nonneg _) (hd ▸ List.mem_cons_self)
    cases hdigit
  rw [hd] at h
  by_cases hneg : e < 0
  · rw [Text.toList_showInt_of_neg hneg, hd, Known.literal, h, if_pos hneg]
    · rfl
    · simp
    · simpa using hminus
  · have hsize : (e.natAbs : Int) = e := by omega
    rw [hsize] at hd
    rw [hd, Known.literal, h, if_neg hneg]
    · simp [hminus]
    · simp [hminus]
    · simp [hminus]

theorem ofWord?_of_checkKind {number count : Nat} {kind : String} {args : List Circuit}
    (hkind : checkKind number kind count = .ok ()) (h : ofWord? kind args = some c) :
    c.isGate = true ∧ c.inputs = args := by
  unfold checkKind at hkind
  split at hkind
  · cases h
    exact ⟨rfl, rfl⟩
  · cases h
    exact ⟨rfl, rfl⟩
  · match args, h with
    | [_, _], h => cases h; exact ⟨rfl, rfl⟩
  · match args, h with
    | [_, _, _], h => cases h; exact ⟨rfl, rfl⟩
  · cases hkind

/-- A gate line that can be read, with the inputs and the circuit that are found. -/
structure ReadsAs (known : Known) (number : Nat) (line : List Char) (name kind : String)
    (inner : List Char) (args : List Circuit) (c : Circuit) : Prop where
  parts : gateParts? line = some (name, kind, inner)
  simple : ';' ∉ inner
  count : checkKind number kind (items inner).length = .ok ()
  fresh : known.gates.contains name = false
  inputs : (items inner).mapM (known.literal (.line number) (.line number)) = .ok args
  circuit : ofWord? kind args = some c

def Known.define (known : Known) (name : String) (c : Circuit) : Known :=
  { known with
    gates := known.gates.put name c
    gateNames := known.gateNames.put c ((known.gateNames.get? c).getD [] ++ [name]) }

theorem gate_of_readsAs {number : Nat} {line inner : List Char} {name kind : String}
    {args : List Circuit} (h : ReadsAs known number line name kind inner args c) :
    gate known number line = .ok (known.define name c) := by
  have hsimple : (inner.filter (· = ';')).length = 0 := by
    rw [List.length_eq_zero_iff, List.filter_eq_nil_iff]
    rintro c hc heq
    exact h.simple (of_decide_eq_true heq ▸ hc)
  unfold gate
  simp only [h.parts, hsimple, h.count, h.fresh, h.inputs, bind, Except.bind, h.circuit]
  rfl

theorem readsAs_of_gate {number : Nat} {line : List Char} (h : gate known number line = .ok after) :
    ∃ name kind inner args c, ReadsAs known number line name kind inner args c ∧
      after = known.define name c := by
  unfold gate at h
  split at h
  · rename_i name kind inner hparts
    dsimp only at h
    split at h
    · rename_i hsimple
      obtain ⟨_, hkind, h⟩ := exists_ok_of_bind h
      split at h
      · obtain ⟨_, hfault, -⟩ := exists_ok_of_bind h
        cases hfault
      · rename_i hfresh
        obtain ⟨args, hargs, h⟩ := exists_ok_of_bind h
        split at h
        · rename_i c hcircuit
          cases h
          refine ⟨name, kind, inner, args, c, ⟨hparts, ?_, hkind, ?_, hargs, hcircuit⟩, rfl⟩
          · intro hmem
            rw [List.length_eq_zero_iff, List.filter_eq_nil_iff] at hsimple
            exact hsimple ';' hmem (by decide)
          · exact Bool.not_eq_true _ ▸ hfresh
        · cases h
    · obtain ⟨_, hfault, -⟩ := exists_ok_of_bind h
      cases hfault
    · obtain ⟨_, hfault, -⟩ := exists_ok_of_bind h
      cases hfault
  · cases h

theorem gates_comment (known : Known) (number : Nat) (text : List Char)
    (rest : List (Nat × List Char)) : gates ((number, '#' :: text) :: rest) known =
      gates rest known := by
  rw [gates, Text.head?_trim (by decide)]
  simp

theorem gate_over {number : Nat} {line : List Char} (hover : known.Over n)
    (h : gate known number line = .ok after) : after.Over n := by
  obtain ⟨name, kind, inner, args, c, hread, rfl⟩ := readsAs_of_gate h
  obtain ⟨hgate, hinputs⟩ := ofWord?_of_checkKind hread.count hread.circuit
  have hc : Circuit.Over n c := by
    refine over_of_inputs hgate fun d hd => ?_
    obtain ⟨item, -, hitem⟩ := exists_of_mem_mapM hread.inputs (hinputs ▸ hd)
    exact literal_over hover hitem
  refine ⟨hover.vars, fun other d hd => ?_⟩
  rcases Table.eq_or_get?_of_get?_put hd with ⟨rfl, rfl⟩ | ⟨-, hold⟩
  · exact hc
  · exact hover.gates other d hold

theorem gates_over {lines : List (Nat × List Char)} (hover : known.Over n)
    (h : gates lines known = .ok after) : after.Over n := by
  induction lines generalizing known with
  | nil =>
      cases h
      exact hover
  | cons line lines ih =>
      rw [gates] at h
      split at h
      · exact ih hover h
      · obtain ⟨next, hgate, h⟩ := exists_ok_of_bind h
        exact ih (gate_over hover hgate) h

end Reader

/-- Read what follows the comments that give names. -/
def Document.readAfter (last : Nat) (given : Table Nat String) (lines : List (Nat × List Char)) :
    Except Fault Document := do
  let heading <- Reader.heading last lines []
  let numbers <- Reader.allot (heading.scopes.flatMap (·.2))
  let names <- given.entries.foldlM (Reader.rename (heading.scopes.flatMap (·.2)))
    (Reader.namesByNumber numbers)
  let known <- Reader.gates heading.rest { vars := numbers }
  let output <- known.literal .outputLookup (.line last) heading.output
  let scopes := heading.scopes.map fun scope =>
    { binder := scope.1, vars := scope.2.filterMap numbers.get? : Scope }
  return { scopes, output, variableNames := names, gateNames := known.gateNames }

theorem Document.read_eq (heedNames : Bool) (text : String) :
    Document.read heedNames text =
      (if heedNames then Reader.givenNames (Text.numberedLines (Text.unifyBreaks text.toList)) {}
        else .ok ({}, Text.numberedLines (Text.unifyBreaks text.toList))) >>= fun found =>
      Document.readAfter ((Text.numberedLines (Text.unifyBreaks text.toList)).length + 1) found.1
        found.2 := by
  cases heedNames <;> rfl

theorem readAfter_over {last : Nat} {given : Table Nat String} {lines : List (Nat × List Char)}
    {document : Document} (h : Document.readAfter last given lines = .ok document) :
    ∃ names numbers, Reader.allot names = .ok numbers ∧
      document.scopes.flatMap Scope.vars = names.filterMap numbers.get? ∧
      Over names.length document.output := by
  unfold Document.readAfter at h
  obtain ⟨heading, -, h⟩ := exists_ok_of_bind h
  obtain ⟨numbers, hallot, h⟩ := exists_ok_of_bind h
  obtain ⟨renamed, -, h⟩ := exists_ok_of_bind h
  obtain ⟨known, hgates, h⟩ := exists_ok_of_bind h
  obtain ⟨output, houtput, h⟩ := exists_ok_of_bind h
  rw [← Except.ok.inj h]
  obtain ⟨-, hrange, -⟩ := Reader.numbers_of_allot hallot
  have hknown : known.Over (heading.scopes.flatMap (·.2)).length :=
    Reader.gates_over ⟨hrange, by simp⟩ hgates
  refine ⟨_, numbers, hallot, ?_, Reader.literal_over hknown houtput⟩
  rw [List.flatMap_map, List.filterMap_flatMap]

/-- As many different numbers as there are leave none out. -/
theorem mem_of_nodup_of_bounds {vs : List Int} (hnodup : vs.Nodup)
    (hbounds : ∀ v ∈ vs, 1 ≤ v ∧ v ≤ vs.length) {v : Int} (hlow : 1 ≤ v) (hhigh : v ≤ vs.length) :
    v ∈ vs := by
  have hrange : ∀ w : Int, 1 ≤ w → w ≤ vs.length →
      w ∈ (List.range vs.length).map fun k => Int.ofNat (k + 1) := by
    intro w hlow hhigh
    refine List.mem_map.mpr ⟨(w - 1).toNat, List.mem_range.mpr (by omega), ?_⟩
    simp only [Int.ofNat_eq_natCast]
    omega
  have hsubset : vs ⊆ (List.range vs.length).map fun k => Int.ofNat (k + 1) := fun w hw =>
    hrange w (hbounds w hw).1 (hbounds w hw).2
  have hperm := (hnodup.subperm hsubset).perm_of_length_le (by simp)
  exact hperm.mem_iff.mpr (hrange v hlow hhigh)

/-- The variables of a text have the numbers from one to their count; if they are different, they
have all these numbers. -/
theorem vars_of_read {heedNames : Bool} {text : String} {document : Document}
    (h : Document.read heedNames text = .ok document) :
    ∃ n : Nat, Over n document.output ∧
      (∀ v ∈ document.scopes.flatMap Scope.vars, 1 ≤ v ∧ v ≤ n) ∧
      ((document.scopes.flatMap Scope.vars).Nodup →
        ∀ v : Int, 1 ≤ v → v ≤ n → v ∈ document.scopes.flatMap Scope.vars) := by
  rw [Document.read_eq] at h
  obtain ⟨found, -, h⟩ := exists_ok_of_bind h
  obtain ⟨names, numbers, hallot, hvars, hover⟩ := readAfter_over h
  obtain ⟨hall, hrange, -⟩ := Reader.numbers_of_allot hallot
  have hbounds : ∀ v ∈ names.filterMap numbers.get?, 1 ≤ v ∧ v ≤ names.length := by
    intro v hv
    obtain ⟨name, -, hget⟩ := List.mem_filterMap.mp hv
    exact hrange name v hget
  have hlength : (names.filterMap numbers.get?).length = names.length := by
    rw [List.length_filterMap_eq_countP, List.countP_eq_length]
    intro name hname
    obtain ⟨k, hk⟩ := hall name hname
    rw [hk]
    rfl
  refine ⟨names.length, hover, hvars ▸ hbounds, fun hnodup v hlow hhigh => ?_⟩
  rw [hvars] at hnodup ⊢
  exact mem_of_nodup_of_bounds hnodup (hlength.symm ▸ hbounds) hlow (hlength.symm ▸ hhigh)

end QuantFamily.Circuit
