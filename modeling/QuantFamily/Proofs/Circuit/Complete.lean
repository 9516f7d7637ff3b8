import QuantFamily.Output.Clauses
import QuantFamily.Proofs.Circuit.Naming
import QuantFamily.Proofs.Session.Frame
import QuantFamily.Proofs.State.WellFormed

/-!
# Complete clause files

A clause file has comment lines before its first line. The first line is filled in last, when all
clauses have been written and counted. So a file that the converter leaves behind when a fault
stops it is never read as a sheet of clauses: it has no lines, or a blank one where the counts
should be.
-/

namespace QuantFamily

namespace Circuit

/-! ## Names stay on their lines -/

namespace Reader

/-- No name in a table breaks the line it is written on. -/
def PlainNames (names : Table Nat String) : Prop :=
  ∀ entry ∈ names.entries, '\n' ∉ entry.2.toList

end Reader

/-- The names of the variables of a text that was read stay on their lines. -/
theorem names_of_read {heedNames : Bool} {text : String} {document : Document}
    (h : Document.read heedNames text = .ok document) :
    Reader.PlainNames document.variableNames := fun entry hentry hmem =>
  ((variableNames_of_read h entry hentry).oneLine _ hmem).1 rfl

theorem names_of_prepare {conversion : Conversion} {text : String} {document : Document}
    {c : Circuit} (h : conversion.prepare text = .ok (document, c)) :
    Reader.PlainNames document.variableNames := by
  unfold Conversion.prepare at h
  obtain ⟨found, hread, h⟩ := exists_ok_of_bind h
  dsimp only at h
  split at h
  · cases h
    have hplain := names_of_read hread
    exact hplain
  · cases h

/-! ## Files of clauses -/

namespace Sheet

def ofLines? : List (List Char) → Option Sheet
  | [] => none
  | first :: rest => do
      let (greatest, count) <- counts? first
      let (scopes, clauses) <- body? rest
      return { greatest, count, scopes, clauses }

/-- What a file of clauses says, comment lines before its first line left out. -/
def ofFile? (text : String) : Option Sheet :=
  ofLines? ((Text.lines text.toList).dropWhile (Text.startsWith "c ".toList))

theorem read?_eq_ofLines? (text : String) : read? text = ofLines? (Text.lines text.toList) := by
  unfold read?
  cases Text.lines text.toList <;> rfl

end Sheet

theorem lines_append_comments {entries : List (Nat × String)} {line : Nat × String → String}
    (h : ∀ entry ∈ entries, '\n' ∉ (line entry).toList) (rest : String) :
    (Text.lines (String.join (entries.map fun entry =>
        if Nat.repr entry.1 = entry.2 then "" else "c " ++ line entry ++ "\n") ++ rest).toList).dropWhile
        (Text.startsWith "c ".toList) =
      (Text.lines rest.toList).dropWhile (Text.startsWith "c ".toList) := by
  induction entries with
  | nil => simp
  | cons entry entries ih =>
      rw [List.forall_mem_cons] at h
      rw [List.map_cons, String.join_cons, String.append_assoc]
      split
      · rw [String.empty_append]
        exact ih h.2
      · have htext : ∀ tail : String, ("c " ++ line entry ++ "\n" ++ tail).toList =
            ("c ".toList ++ (line entry).toList) ++ '\n' :: tail.toList := fun tail => by
          simp [String.toList_append]
        have hline : '\n' ∉ "c ".toList ++ (line entry).toList := by
          simpa using h.1
        rw [htext, Text.lines_append_newline hline, List.dropWhile_cons_of_pos (by rfl)]
        exact ih h.2

/-- Comments with the names of variables do not change what a file says. -/
theorem ofFile?_nameLines {setting : Setting} (plain : Reader.PlainNames setting.variableNames)
    (rest : String) : Sheet.ofFile? (nameLines "c " setting ++ rest) = Sheet.ofFile? rest := by
  unfold Sheet.ofFile? nameLines
  split
  · have hline : ∀ entry ∈ setting.variableNames.entries,
        '\n' ∉ ("VarName " ++ threeColumns entry.1 ++ " : " ++ entry.2).toList := by
      intro entry hentry
      have hnumber : '\n' ∉ Nat.toDigits 10 entry.1 := fun hmem =>
        absurd (Text.isDigit_of_mem_toDigits hmem) (by decide)
      have hname := plain entry hentry
      simp [threeColumns, String.toList_append, Text.toList_pushn, hnumber, hname]
    have happend := lines_append_comments hline rest
    simpa only [String.append_assoc] using congrArg Sheet.ofLines? happend
  · rw [String.empty_append]

/-- A text that does not begin with a comment is read from its first line on. -/
theorem ofFile?_eq_read? {text : String} (h : text.toList.head? ≠ some 'c') :
    Sheet.ofFile? text = Sheet.read? text := by
  have hlines : (Text.lines text.toList).dropWhile (Text.startsWith "c ".toList) =
      Text.lines text.toList := by
    generalize text.toList = chars at h
    cases chars with
    | nil => rfl
    | cons first chars =>
        have hfirst : ∀ line, ¬ Text.startsWith "c ".toList (first :: line) = true := by
          intro line hstart
          have heq : ('c' == first) = true := (Bool.and_eq_true_iff.mp hstart).1
          exact h (by rw [← eq_of_beq heq]; rfl)
        rw [Text.lines.eq_def]
        split
        · rfl
        · rfl
        · rename_i heq
          cases heq
          split <;> exact List.dropWhile_cons_of_neg (hfirst _)
  rw [Sheet.ofFile?, hlines, Sheet.read?_eq_ofLines?]

theorem ofFile?_sheet {sheet : Sheet} (h : sheet.Legible) :
    Sheet.ofFile? sheet.text = some sheet := by
  rw [ofFile?_eq_read?, Sheet.read?_text h]
  simp [Sheet.text, toList_firstLine, String.toList_append]

/-- A blank line in the place of the counts cannot be read. -/
theorem ofFile?_unfilled (body : String) : Sheet.ofFile? (firstLine "" ++ body) = none := by
  have hblank : counts? (List.replicate 78 ' ') = none := by decide
  rw [ofFile?_eq_read?, Sheet.read?_eq_ofLines?]
  · have htext : (firstLine "" ++ body).toList = List.replicate 78 ' ' ++ '\n' :: body.toList := by
      simp [toList_firstLine, String.toList_append]
    rw [htext, Text.lines_append_newline (by decide)]
    rw [Sheet.ofLines?, hblank]
    rfl
  · simp [toList_firstLine, String.toList_append]

/-! ## What the converter leaves behind -/

section Outcomes

variable {conversion : Conversion} {text : String} {document : Document} {c : Circuit}

theorem Numbered.ne_zero {numbers : Table Circuit Int} {entry : Circuit} {k : Int}
    (numbered : Numbered (· ∈ c.occurrences) numbers) (positive : ∀ v ∈ c.occurrences, 1 ≤ v)
    (h : numbers.get? entry = some k) : k ≠ 0 := by
  have hnode : ∀ entry k, entry.isNode = true → numbers.get? entry = some k → k ≠ 0 := by
    intro entry k hentry hk
    rcases numbered.node entry k hentry hk with ⟨m, -, hm, rfl⟩ | ⟨j, hpos, -, rfl, -⟩
    · have := positive _ hm
      omega
    · omega
  rcases numbered.negation entry k h with hentry | ⟨d, hd, -, hopposite⟩
  · exact hnode entry k hentry h
  · have := hnode d (-k) hd hopposite
    omega

theorem legible_of_prepare {l : Layout} {sheet : Sheet}
    (prepared : conversion.prepare text = .ok (document, c))
    (hlayout : layout document.gateNames c = .ok l)
    (describes : sheet.Describes l document.scopes c) : sheet.Legible := by
  obtain ⟨n, hover, hvars, -⟩ := prepare_represents prepared
  obtain ⟨gates, hgates, hscopes⟩ := describes.scopes
  refine ⟨describes.binder, fun scope hscope v hv => ?_, fun clause hclause k hk => ?_⟩
  · rcases List.mem_append.mp (mem_of_withGates hscopes
      (List.mem_flatMap.mpr ⟨scope, hscope, hv⟩)) with hv | hv
    · have := (hvars v hv).1
      omega
    · have := ((gateNumbers_of_layout hlayout hgates).2 v hv).1
      omega
  · obtain ⟨entry, hget⟩ := describes.exists_entry hclause hk
    exact (numbers_of_layout hlayout).1.ne_zero (fun v hv => (hover.range v hv).1) hget

/-- Writing clauses is completed, or it leaves no text or one without a first line. -/
theorem outcome_of_writeClauses (setting : Setting) (scopes : List Scope) (c : Circuit) :
    (∃ text, (writeClauses setting scopes c).outcome = { text := some text }) ∨
      ∃ fault text, (writeClauses setting scopes c).outcome = ⟨some text, some fault⟩ ∧
        (text = "" ∨ ∃ body, text = nameLines "c " setting ++ (firstLine "" ++ body)) := by
  rw [writeClauses.eq_def]
  split
  · exact Or.inl ⟨_, rfl⟩
  · exact Or.inl ⟨_, rfl⟩
  · cases hlayout : layout setting.gateNames c with
    | error fault => exact Or.inr ⟨fault, "", rfl, Or.inl rfl⟩
    | ok l =>
        cases hlines : (clauseLines l scopes c).run "" with
        | ok count body =>
            refine Or.inl ⟨"" ++ (nameLines "c " setting ++ firstLine ("p cnf " ++
              Text.showInt (Numbering.largest l.numbers) ++ " " ++ Nat.repr count ++ " ") ++ body),
              ?_⟩
            simp only [Writing.lift, pure_bind, hlines]
            rfl
        | error fault body =>
            refine Or.inr ⟨fault, nameLines "c " setting ++ (firstLine "" ++ body), ?_,
              Or.inr ⟨body, rfl⟩⟩
            simp only [Writing.lift, pure_bind, hlines]
            rw [← String.append_assoc, ← String.empty_append (s := nameLines "c " setting ++ _)]
            rfl

/-- Whether writing is completed does not depend on the names of variables. -/
theorem fault_writeClauses (setting : Setting) (names : Table Nat String) (scopes : List Scope)
    (c : Circuit) :
    (writeClauses { setting with variableNames := names } scopes c).outcome.fault =
      (writeClauses setting scopes c).outcome.fault := by
  rw [writeClauses.eq_def, writeClauses.eq_def]
  split
  · rfl
  · rfl
  · cases hlayout : layout setting.gateNames c with
    | error fault => rfl
    | ok l =>
        simp only [Writing.lift, pure_bind]
        cases (clauseLines l scopes c).run "" <;> rfl

/-- The clauses of a constant: one variable, which is true for some value or for all values. -/
def constantSheet (b : Bool) : Sheet where
  greatest := 1
  count := 1
  scopes := [⟨if b then .exists else .forall, [1]⟩]
  clauses := [[1]]

/-- A sheet has all clauses of the circuit that a text is converted to, and counts them. -/
structure Sheet.Covers (sheet : Sheet) (conversion : Conversion) (text : String) : Prop where
  count : sheet.count = sheet.clauses.length
  constant : ∀ document b, conversion.prepare text = .ok (document, .const b) →
    sheet = constantSheet b
  describes : ∀ document c, conversion.prepare text = .ok (document, c) → (∀ b, c ≠ .const b) →
    ∃ l, layout document.gateNames c = .ok l ∧ sheet.Describes l document.scopes c

theorem constant_written (setting : Setting) (scopes : List Scope) (b : Bool) :
    ∃ written, (writeClauses setting scopes (.const b)).outcome = { text := some written } ∧
      Sheet.ofFile? written = some (constantSheet b) := by
  cases b with
  | true => exact ⟨"p cnf 1 1\ne 1 0\n1 0\n", rfl, by decide +kernel⟩
  | false => exact ⟨"p cnf 1 1\na 1 0\n1 0\n", rfl, by decide +kernel⟩

/-- A conversion ends well and leaves a file with all clauses, or it ends with a fault and leaves
what cannot be read. -/
theorem run_covers_or_unreadable (format : conversion.format = "qdimacs") (text : String) :
    (∃ written sheet, conversion.run text = { text := some written } ∧
      Sheet.ofFile? written = some sheet ∧ sheet.Covers conversion text) ∨
    ∃ fault, (conversion.run text).fault = some fault ∧
      Sheet.ofFile? ((conversion.run text).text.getD "") = none := by
  cases hprepare : conversion.prepare text with
  | error fault =>
      refine Or.inr ⟨fault, ?_⟩
      rw [Conversion.run, hprepare]
      exact ⟨rfl, rfl⟩
  | ok prepared =>
      obtain ⟨document, c⟩ := prepared
      rw [run_of_prepare format hprepare]
      by_cases hconst : ∃ b, c = .const b
      · obtain ⟨b, rfl⟩ := hconst
        obtain ⟨written, houtcome, hread⟩ :=
          constant_written (conversion.setting document) document.scopes b
        refine Or.inl ⟨written, constantSheet b, houtcome, hread, rfl, fun document' b' h => ?_,
          fun document' c h varying => ?_⟩
        · cases hprepare.symm.trans h
          rfl
        · cases hprepare.symm.trans h
          exact absurd rfl (varying b)
      · have hvarying : ∀ b, c ≠ .const b := fun b hb => hconst ⟨b, hb⟩
        have hplain : Reader.PlainNames (conversion.setting document).variableNames :=
          names_of_prepare hprepare
        rcases outcome_of_writeClauses (conversion.setting document) document.scopes c with
          ⟨written, houtcome⟩ | ⟨fault, written, houtcome, hwritten⟩
        · obtain ⟨l, sheet, hlayout, describes, rfl⟩ := sheet_of_writeClauses hvarying houtcome
          refine Or.inl ⟨_, sheet, houtcome, ?_, describes.count, fun document' b h => ?_,
            fun document' c' h _ => ?_⟩
          · rw [ofFile?_nameLines hplain,
              ofFile?_sheet (legible_of_prepare hprepare hlayout describes)]
          · cases hprepare.symm.trans h
            exact absurd rfl (hvarying b)
          · cases hprepare.symm.trans h
            exact ⟨l, hlayout, describes⟩
        · refine Or.inr ⟨fault, by rw [houtcome], ?_⟩
          rw [houtcome, Option.getD_some]
          rcases hwritten with rfl | ⟨body, rfl⟩
          · rfl
          · rw [ofFile?_nameLines hplain, ofFile?_unfilled]

end Outcomes

end Circuit

/-! ## Texts of formulas -/

namespace Action

/-- The session in which the circuit text for the converter is written. -/
def withEmptyFiles (s : Session) : Session :=
  { s with files := (s.files.put circuitFile "").put clauseFile "" }

variable {edition : Edition} {s : Session}

theorem circuitText_ne_none {u : Session} (format : s.formula.format = some .prenexCircuit) :
    circuitText edition s ≠ .ok none u := by
  intro run
  unfold circuitText at run
  obtain ⟨φ, t, hget, run⟩ := exists_of_run_bind run
  cases hget
  rw [format] at run
  obtain ⟨φ, t, hget, run⟩ := exists_of_run_bind run
  cases hget
  cases hkept : s.formula.circuitText with
  | some text =>
      rw [hkept] at run
      cases run
  | none =>
      rw [hkept] at run
      obtain ⟨text, t, -, run⟩ := exists_of_run_bind run
      cases run

/-- The clause text of a prenex circuit is what the converter leaves of its circuit text. -/
theorem convertCircuit_of_circuitText {circuit : String} {u : Session}
    (converter : u.hasConverter = true)
    (run : circuitText edition (withEmptyFiles s) = .ok (some circuit) u) :
    ∃ t, convertCircuit edition s =
      .ok (((Circuit.Conversion.run {} circuit).text).getD "") t := by
  refine ⟨{ u with
    formula := { u.formula with
      clauseText := some (((Circuit.Conversion.run {} circuit).text).getD "") }
    files := ((u.files.put circuitFile circuit).erase circuitFile).erase clauseFile }, ?_⟩
  change (circuitText edition >>= _) (withEmptyFiles s) = _
  rw [run_bind_of_ok run]
  obtain ⟨φ, transcript, files, hasConverter⟩ := u
  cases converter
  cases edition <;> rfl

theorem convertCircuit_of_error {fault : Fault} {u : Session}
    (run : circuitText edition (withEmptyFiles s) = .error fault u) :
    convertCircuit edition s = .error fault u := by
  change (circuitText edition >>= _) (withEmptyFiles s) = _
  change EStateM.bind (circuitText edition) _ (withEmptyFiles s) = _
  unfold EStateM.bind
  rw [run]

theorem clauseText_of_prenex (format : s.formula.format = some .prenexCircuit) :
    clauseText edition s = (convertCircuit edition >>= fun text => pure (some text)) s := by
  unfold clauseText
  rw [run_bind_of_ok (show formula s = .ok s.formula s from rfl), format]

/-- With a converter, the clause text of a prenex circuit ends in the fault of its circuit text, or
it is a text. If the converter ended without a fault, the text is all that it wrote: it is read as a
sheet that counts its clauses and has all clauses of the circuit. If a fault stopped the converter,
what it left is returned nonetheless, and this is never read as clauses. -/
theorem clauseText_covers_or_unreadable (format : s.formula.format = some .prenexCircuit)
    (converter : s.hasConverter = true) :
    (∃ fault u, circuitText edition (withEmptyFiles s) = .error fault u ∧
      clauseText edition s = .error fault u) ∨
    ∃ circuit text u t, circuitText edition (withEmptyFiles s) = .ok (some circuit) u ∧
      clauseText edition s = .ok (some text) t ∧
      ((∃ sheet, Circuit.Conversion.run {} circuit = { text := some text } ∧
          Circuit.Sheet.ofFile? text = some sheet ∧ sheet.Covers {} circuit) ∨
        ∃ fault, (Circuit.Conversion.run {} circuit).fault = some fault ∧
          Circuit.Sheet.ofFile? text = none) := by
  rw [clauseText_of_prenex format]
  cases run : circuitText edition (withEmptyFiles s) with
  | error fault u =>
      refine Or.inl ⟨fault, u, rfl, ?_⟩
      change EStateM.bind (convertCircuit edition) _ s = _
      unfold EStateM.bind
      rw [convertCircuit_of_error run]
  | ok found u =>
      cases found with
      | none => exact absurd run (circuitText_ne_none format)
      | some circuit =>
          have hconverter : u.hasConverter = true := by
            have hkept : Hides Session.hasConverter (circuitText edition) :=
              circuitText_hides (fun _ _ _ _ => rfl) (fun _ _ => rfl) edition
            exact (hkept.of_ok run).trans converter
          obtain ⟨t, hconvert⟩ := convertCircuit_of_circuitText hconverter run
          refine Or.inr ⟨circuit, _, u, t, rfl, run_bind_of_ok hconvert, ?_⟩
          rcases @Circuit.run_covers_or_unreadable {} rfl circuit with
            ⟨written, sheet, hrun, hread, hcovers⟩ | ⟨fault, hfault, hread⟩
          · rw [hrun]
            exact Or.inl ⟨sheet, rfl, hread, hcovers⟩
          · exact Or.inr ⟨fault, hfault, hread⟩

/-- A prenex circuit of two variables with the given matrix. -/
def prenexStatements (matrix : List Language.Statement) : List Language.Statement :=
  [.format "circuit-prenex", .vars "x" [] [], .vars "y" [] []] ++ matrix ++
    [.blocks [⟨"Q", [], [.ref false "x" [], .ref false "y" []]⟩] [] none,
     .blocks [⟨"F", [], [.ref false "Q" [], .ref false "M" []]⟩] [] none, .mark [("Q", [])] "E",
     .output "F" []]

def prenexSession (matrix : List Language.Statement) : Session :=
  (perform ((prenexStatements matrix).forM (Language.Statement.perform .full false)) {}).2

/-- A matrix whose gates have two inputs each. -/
def pairedMatrix : List Language.Statement :=
  [.blocks [⟨"C", [], [.ref false "x" [], .ref false "y" []]⟩] [] none,
   .blocks [⟨"M", [], [.ref false "C" [], .ref true "x" []]⟩] [] none,
   .mark [("C", [])] "OR", .mark [("M", [])] "AND"]

def pairedText : String :=
  "#QCIR-G14\nexists(1, 2)\noutput(4)\n3 = or(1, 2)\n4 = and(3, -1)\n"

/-- A matrix with a gate of one input. -/
def unitMatrix : List Language.Statement :=
  [.blocks [⟨"C", [], [.ref false "x" []]⟩] [] none,
   .blocks [⟨"M", [], [.ref false "C" [], .ref false "y" []]⟩] [] none, .mark [("M", [])] "OR"]

def unitText : String :=
  "#QCIR-G14\nexists(1, 2)\noutput(4)\n3 = or(1)\n4 = or(3, 2)\n"

theorem prenexSession_paired :
    (prenexSession pairedMatrix).Built .full ∧
      (prenexSession pairedMatrix).formula.format = some .prenexCircuit ∧
      (prenexSession pairedMatrix).hasConverter = true ∧
      ∃ u, circuitText .full (withEmptyFiles (prenexSession pairedMatrix)) =
        .ok (some pairedText) u :=
  ⟨⟨false, prenexStatements pairedMatrix, {}, ok_of_perform (by decide +kernel)⟩,
    by decide +kernel, by decide +kernel, _, ok_of_perform (by decide +kernel)⟩

def pairedCircuit : Circuit :=
  .and [.or [.lit 1, .lit 2], .lit (-1)]

def pairedDocument : Circuit.Document where
  scopes := [⟨.exists, [1, 2]⟩]
  output := pairedCircuit
  variableNames := {}
  gateNames := ⟨[(.or [.lit 1, .lit 2], ["3"]), (pairedCircuit, ["4"])]⟩

theorem pairedText_converted : (Circuit.Conversion.run {} pairedText).fault = none := by
  have hcheck : ({} : Circuit.Conversion).prepares pairedText pairedDocument pairedCircuit = true := by
    decide +kernel
  obtain ⟨names, hprepare⟩ := Circuit.prepare_of_prepares hcheck
  rw [Circuit.run_of_prepare rfl hprepare]
  refine (Circuit.fault_writeClauses (({} : Circuit.Conversion).setting pairedDocument) names _
    _).trans (Option.isNone_iff_eq_none.mp ?_)
  unfold Circuit.writeClauses Circuit.layout
  simp only [Circuit.sorted_eq_insertionSort]
  decide +kernel

theorem clauseText_covers_or_unreadable_paired :
    (prenexSession pairedMatrix).Built .full ∧
      (prenexSession pairedMatrix).formula.format = some .prenexCircuit ∧
      (prenexSession pairedMatrix).hasConverter = true ∧
      ∃ text sheet t, clauseText .full (prenexSession pairedMatrix) = .ok (some text) t ∧
        Circuit.Conversion.run {} pairedText = { text := some text } ∧
        Circuit.Sheet.ofFile? text = some sheet ∧ sheet.Covers {} pairedText := by
  obtain ⟨built, format, converter, v, hrun⟩ := prenexSession_paired
  refine ⟨built, format, converter, ?_⟩
  rcases @clauseText_covers_or_unreadable .full _ format converter with
    ⟨fault, u, hfailed, -⟩ | ⟨circuit, text, u, t, hcircuit, htext, hread⟩
  · cases hfailed.symm.trans hrun
  · cases hcircuit.symm.trans hrun
    rcases hread with ⟨sheet, hconverted, hsheet, hcovers⟩ | ⟨fault, hfault, -⟩
    · exact ⟨text, sheet, t, htext, hconverted, hsheet, hcovers⟩
    · cases hfault.symm.trans pairedText_converted

theorem prenexSession_unit :
    (prenexSession unitMatrix).Built .full ∧
      (prenexSession unitMatrix).formula.format = some .prenexCircuit ∧
      (prenexSession unitMatrix).hasConverter = true ∧
      ∃ u, circuitText .full (withEmptyFiles (prenexSession unitMatrix)) =
          .ok (some unitText) u ∧ u.hasConverter = true :=
  ⟨⟨false, prenexStatements unitMatrix, {}, ok_of_perform (by decide +kernel)⟩,
    by decide +kernel, by decide +kernel, _, ok_of_perform (by decide +kernel), by decide +kernel⟩

/-- The gate of one input has given its name to the input. -/
def unitDocument : Circuit.Document where
  scopes := [⟨.exists, [1, 2]⟩]
  output := .or [.or [.lit 1], .lit 2]
  variableNames := {}
  gateNames := ⟨[(.or [.lit 1], ["3"]), (.or [.or [.lit 1], .lit 2], ["4"]), (.lit 1, ["3"]),
    (Circuit.pairCircuit, ["4"])]⟩

theorem unitText_stops :
    Circuit.Conversion.run {} unitText = { text := some "", fault := some .missingEntry } := by
  have hcheck : ({} : Circuit.Conversion).prepares unitText unitDocument Circuit.pairCircuit =
      true := by decide +kernel
  obtain ⟨names, hprepare⟩ := Circuit.prepare_of_prepares hcheck
  have hnumbers : Circuit.Numbering.ofCircuits unitDocument.gateNames
      ((Circuit.sorted Circuit.pairPlaces).map (·.1)) = .error .missingEntry := by
    rw [Circuit.pairPlaces_sorted]
    rfl
  have hlayout : Circuit.layout unitDocument.gateNames Circuit.pairCircuit =
      .error .missingEntry := by
    rw [Circuit.layout, Circuit.pairPlaces_found]
    change (Circuit.Numbering.ofCircuits _ _ >>= _) = _
    rw [hnumbers]
    rfl
  rw [Circuit.run_of_prepare rfl hprepare]
  change ((Circuit.Writing.lift (Circuit.layout unitDocument.gateNames Circuit.pairCircuit) >>=
    _ : Circuit.Writing Unit)).outcome = _
  rw [hlayout]
  rfl

/-- The converter stops before it has written anything, and the empty text is returned as if it
were the clauses of the formula. -/
theorem stopped_conversion_returned :
    (prenexSession unitMatrix).Built .full ∧
      (prenexSession unitMatrix).formula.format = some .prenexCircuit ∧
      (prenexSession unitMatrix).hasConverter = true ∧
      (∃ u, circuitText .full (withEmptyFiles (prenexSession unitMatrix)) =
        .ok (some unitText) u) ∧
      (Circuit.Conversion.run {} unitText).fault = some .missingEntry ∧
      (∃ t, clauseText .full (prenexSession unitMatrix) = .ok (some "") t) ∧
      Circuit.Sheet.ofFile? "" = none := by
  obtain ⟨built, format, converter, u, hrun, hconverter⟩ := prenexSession_unit
  refine ⟨built, format, converter, ⟨u, hrun⟩, by rw [unitText_stops], ?_, rfl⟩
  obtain ⟨t, hconvert⟩ := convertCircuit_of_circuitText hconverter hrun
  rw [unitText_stops] at hconvert
  exact ⟨t, (clauseText_of_prenex format).trans (run_bind_of_ok hconvert)⟩

end Action

end QuantFamily
