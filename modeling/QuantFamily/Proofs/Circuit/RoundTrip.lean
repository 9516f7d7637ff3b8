import QuantFamily.Proofs.Circuit.Naming
import QuantFamily.Proofs.Gate.ReadBack

/-!
# Circuits written and read

The text that is written for a circuit is read as the same circuit under the same quantifiers, if
every gate has inputs and every variable of the circuit is quantified. Otherwise it is not: a gate
without inputs is not written, and a variable that is not quantified is not read.
-/

namespace QuantFamily.Circuit

open Reader

/-! ## Gate lines -/

/-- The literals of a circuit are over some variables and have their own numbers. Its gates have
different positive numbers that are not variables, and their negations the opposite ones. -/
structure Apart (numbers : Table Circuit Int) (vars : List Int) (c : Circuit) : Prop where
  literal : ∀ n, .lit n ∈ c.parts → numberOf numbers (.lit n) = n ∧ (n.natAbs : Int) ∈ vars
  gate : ∀ g ∈ c.parts, g.isGate = true → ∃ k : Nat, 0 < k ∧ (k : Int) ∉ vars ∧
    numberOf numbers g = k ∧ numberOf numbers (.neg g) = -(k : Int)
  injective : ∀ g ∈ c.parts, ∀ h ∈ c.parts, g.isGate = true → h.isGate = true →
    numberOf numbers g = numberOf numbers h → g = h

theorem apart_of_layout {given : Table Circuit (List String)} {c : Circuit} {l : Layout}
    {vars : List Int} (h : layout given c = .ok l) (unnamed : ∀ n, given.get? (.lit n) = none)
    (occur : ∀ v ∈ vars, 1 ≤ v ∧ v.toNat ∈ c.occurrences)
    (covers : ∀ v ∈ c.occurrences, (v : Int) ∈ vars) : Apart l.numbers vars c := by
  obtain ⟨hnumbered, -⟩ := numbers_of_layout h
  have hvalue : ∀ {d : Circuit} {n : Int}, l.numbers.get? d = some n → numberOf l.numbers d = n :=
    fun hn => by rw [numberOf, hn, Option.getD_some]
  refine ⟨fun n hn => ?_, fun g hg gate => ?_, fun g hg g' hg' gate gate' heq => ?_⟩
  · have hoccurs : n.natAbs ∈ c.occurrences := mem_occurrences.mpr ⟨n, hn, rfl⟩
    exact ⟨hvalue (keepsLiterals_of_unnamed unnamed h n hoccurs), covers _ hoccurs⟩
  · obtain ⟨k, hpos, hvar, hk, hneg⟩ := number_of_gate h hg gate
    exact ⟨k, hpos, fun hmem => hvar (by simpa using (occur k hmem).2), hvalue hk, hvalue hneg⟩
  · obtain ⟨k, -, hvar, hk, -⟩ := number_of_gate h hg gate
    obtain ⟨k', -, -, hk', -⟩ := number_of_gate h hg' gate'
    rw [hvalue hk, hvalue hk'] at heq
    exact hnumbered.apart g g' k (isNode_of_isGate gate) (isNode_of_isGate gate') hvar hk
      (heq ▸ hk')

/-- What is known after some gates of a circuit: its variables by their numbers, and the gates by
theirs. -/
structure Knows (numbers : Table Circuit Int) (vars : List Int) (c : Circuit) (done : List Circuit)
    (known : Known) : Prop where
  var : ∀ v ∈ vars, known.vars.get? (Text.showInt v) = some v
  only : ∀ name ∈ known.vars.keys, ∃ v ∈ vars, name = Text.showInt v
  part : ∀ g ∈ done, g ∈ c.parts ∧ g.isGate = true
  gate : ∀ g ∈ done, known.gates.get? (Text.showInt (numberOf numbers g)) = some g
  names : ∀ name ∈ known.gates.keys, ∃ g ∈ done, name = Text.showInt (numberOf numbers g)

section Knows

variable {numbers : Table Circuit Int} {vars : List Int} {c d g : Circuit} {done : List Circuit}
  {known : Known}

theorem Knows.find (knows : Knows numbers vars c done known) (apart : Apart numbers vars c)
    (hg : g ∈ done) (report : LineFault → Fault) :
    known.find report (Text.showInt (numberOf numbers g)).toList = .ok g := by
  obtain ⟨hpart, hgate⟩ := knows.part g hg
  obtain ⟨k, hpos, hvar, hk, -⟩ := apart.gate g hpart hgate
  refine find_gate (isName_showInt (by omega)) ?_ (knows.gate g hg) report
  refine Table.get?_eq_none_iff.mpr fun hmem => ?_
  obtain ⟨v, hv, hname⟩ := knows.only _ hmem
  rw [hk] at hname
  exact hvar (Text.showInt_injective hname ▸ hv)

/-- A literal, a gate that is known or its negation is read from its number. -/
theorem Knows.literal (knows : Knows numbers vars c done known) (apart : Apart numbers vars c)
    (plain : c.Plain) (hd : d ∈ c.parts) (ready : d.base.isLit = true ∨ d.base ∈ done)
    (report inner : LineFault → Fault) :
    known.literal report inner (Text.showInt (numberOf numbers d)).toList = .ok d := by
  by_cases hlit : d.isLit = true
  · cases d with
    | lit n =>
        obtain ⟨hown, hvar⟩ := apart.literal n hd
        have hfind := find_var (isName_showInt (Int.natCast_nonneg _)) (knows.var _ hvar)
        rw [hown, literal_showInt hfind]
        congr 1
        by_cases hneg : n < 0
        · rw [if_pos hneg, negate, lit.injEq]
          omega
        · rw [if_neg hneg, lit.injEq]
          omega
    | _ => cases hlit
  · have hdone := ready.resolve_left fun hbase => hlit (isLit_of_base (isTidy_of_isPlain (plain d hd)) hbase)
    obtain ⟨hpart, hgate⟩ := knows.part _ hdone
    obtain ⟨k, hpos, -, hk, hneg⟩ := apart.gate _ hpart hgate
    have hfind := knows.find apart hdone
    rw [hk] at hfind
    rcases eq_base_or_neg d with hd | hd
    · rw [hd, hk, literal_showInt (by simpa using hfind), if_neg (by omega)]
    · rw [hd, hneg, literal_showInt (by simpa using hfind), if_pos (by omega), negate_of_isGate hgate]

theorem Knows.fresh (knows : Knows numbers vars c done known) (apart : Apart numbers vars c)
    (hg : g ∈ c.parts) (gate : g.isGate = true) (fresh : g ∉ done) :
    Text.showInt (numberOf numbers g) ∉ known.gates.keys := by
  intro hmem
  obtain ⟨g', hg', hname⟩ := knows.names _ hmem
  obtain ⟨hpart', hgate'⟩ := knows.part g' hg'
  have heq := apart.injective g hg g' hpart' gate hgate' (Text.showInt_injective hname)
  exact fresh (heq ▸ hg')

theorem word_mem (gate : g.isGate = true) : g.word ∈ ["and", "or", "xor", "ite"] := by
  cases g with
  | and _ | or _ | xor _ _ | ite _ _ _ => simp [word]
  | _ => cases gate

theorem legible_toGate (apart : Apart numbers vars c) (hg : g ∈ c.parts)
    (gate : g.isGate = true) : (toGate numbers g).Legible := by
  obtain ⟨k, hpos, -, hk, -⟩ := apart.gate g hg gate
  have hword : ∀ word ∈ ["and", "or", "xor", "ite"],
      word ≠ "" ∧ word.toList.all Char.isAlpha = true := by decide
  obtain ⟨hne, hletters⟩ := hword g.word (word_mem gate)
  have hnonneg : 0 ≤ numberOf numbers g := by omega
  exact ⟨hnonneg, hne, List.all_eq_true.mp hletters⟩

theorem checkKind_word (gate : g.isGate = true) (number : Nat) :
    checkKind number g.word g.inputs.length = .ok () := by
  cases g <;> first | rfl | cases gate

theorem ofWord?_word (gate : g.isGate = true) : ofWord? g.word g.inputs = some g := by
  cases g <;> first | rfl | cases gate

/-- The line of a gate is read as the gate, if its inputs are known. -/
theorem Knows.step (knows : Knows numbers vars c done known) (apart : Apart numbers vars c)
    (plain : c.Plain) (hg : g ∈ c.parts) (gate : g.isGate = true) (fresh : g ∉ done)
    (ready : ∀ d ∈ g.inputs, d.base.isLit = true ∨ d.base ∈ done) (number : Nat) :
    ∃ after, Reader.gate known number (toGate numbers g).line.toList = .ok after ∧
      Knows numbers vars c (g :: done) after := by
  have hfresh := knows.fresh apart hg gate fresh
  have hinputs : (items (commaList (g.inputs.map (numberOf numbers))).toList).mapM
      (known.literal (.line number) (.line number)) = .ok g.inputs := by
    rw [items_commaList, List.map_map, List.mapM_map]
    refine (mapM_ok_of_forall fun d hd => ?_).trans (congrArg _ (List.map_id _))
    exact knows.literal apart plain
      (mem_parts_trans hg (mem_parts_of_input hd (mem_parts_self d))) (ready d hd) _ _
  have hreads : ReadsAs known number (toGate numbers g).line.toList
      (Text.showInt (numberOf numbers g)) g.word
      (commaList (g.inputs.map (numberOf numbers))).toList g.inputs g := by
    refine ⟨Gate.gateParts?_line (legible_toGate apart hg gate), fun hmem => ?_, ?_,
      Table.contains_eq_false_iff.mpr hfresh, hinputs, ofWord?_word gate⟩
    · rcases mem_commaList hmem with heq | heq | heq | heq <;> cases heq
    · rw [items_commaList, List.length_map, List.length_map]
      exact checkKind_word gate number
  refine ⟨_, gate_of_readsAs hreads, knows.var, knows.only,
    List.forall_mem_cons.mpr ⟨⟨hg, gate⟩, knows.part⟩, ?_, fun name hname => ?_⟩
  · refine List.forall_mem_cons.mpr ⟨Table.get?_put_self _ _ _, fun g' hg' => ?_⟩
    exact Table.get?_put_of_get? g hfresh (knows.gate g' hg')
  · rcases Table.mem_keys_put.mp hname with hold | rfl
    · obtain ⟨g', hg', hname⟩ := knows.names name hold
      exact ⟨g', List.mem_cons_of_mem g hg', hname⟩
    · exact ⟨g, List.mem_cons_self, rfl⟩

/-- The lines of gates in their order are read as the gates; comments are passed over. -/
theorem Knows.run {gates : List Circuit} {texts : List String} {lines : List (Nat × List Char)}
    (listing : Listing numbers gates texts) (knows : Knows numbers vars c done known)
    (apart : Apart numbers vars c) (plain : c.Plain)
    (parts : ∀ g ∈ gates, g ∈ c.parts ∧ g.isGate = true) (nodup : gates.Nodup)
    (fresh : ∀ g ∈ gates, g ∉ done) (inOrder : InOrder done gates)
    (hlines : lines.map Prod.snd = texts.map String.toList) :
    ∃ after, Reader.gates lines known = .ok after ∧
      Knows numbers vars c (gates.reverse ++ done) after := by
  induction listing generalizing done known lines with
  | nil =>
      rw [List.map_nil, List.map_eq_nil_iff] at hlines
      subst hlines
      exact ⟨known, rfl, knows⟩
  | comment text _ _ ih =>
      obtain ⟨⟨number, line⟩, rest, rfl, hline, hrest⟩ := List.map_eq_cons_iff.mp hlines
      have htext : line = '#' :: text.toList := by simpa using hline
      rw [htext, gates_comment]
      exact ih knows parts nodup fresh inOrder hrest
  | gate g _ ih =>
      obtain ⟨⟨number, line⟩, rest, rfl, hline, hrest⟩ := List.map_eq_cons_iff.mp hlines
      dsimp only at hline
      rw [List.forall_mem_cons] at parts fresh
      rw [List.nodup_cons] at nodup
      obtain ⟨after, hgate, hafter⟩ :=
        knows.step apart plain parts.1.1 parts.1.2 fresh.1 inOrder.1 number
      have hfresh : ∀ g' ∈ _, g' ∉ g :: done := fun g' hg' hmem => by
        rcases List.mem_cons.mp hmem with rfl | hmem
        · exact nodup.1 hg'
        · exact fresh.2 g' hg' hmem
      obtain ⟨final, hrun, hfinal⟩ := ih hafter parts.2 nodup.2 hfresh inOrder.2 hrest
      refine ⟨final, ?_, by simpa using hfinal⟩
      rw [hline, Reader.gates, not_comment_line, hgate]
      exact hrun

end Knows

/-! ## Whole texts -/

/-- What is written about names can be read as comments. -/
structure Setting.Legible (setting : Setting) : Prop where
  keepsLines : setting.KeepsLines
  names : setting.keepVariableNames = true → GivenNames setting.variableNames

theorem Setting.Legible.kept {setting : Setting} (legible : setting.Legible) :
    ∀ entry ∈ keptNames setting, IsGivenName entry.2 := by
  intro entry hentry
  unfold keptNames at hentry
  split at hentry
  · rename_i hkeep
    exact legible.names hkeep entry (List.mem_filter.mp hentry).1
  · cases hentry

theorem oneLine_nameText {entry : Nat × String} (h : IsGivenName entry.2) :
    OneLine (nameText entry).toList := by
  have hdigits : OneLine (Nat.toDigits 10 entry.1) := fun c hc => by
    have hdigit := Text.isDigit_of_mem_toDigits hc
    constructor <;> (rintro rfl; cases hdigit)
  have hspaces : OneLine (List.replicate (3 - (Nat.repr entry.1).length) ' ') := fun c hc => by
    rw [(List.mem_replicate.mp hc).2]
    decide
  have hstart : OneLine "#VarName ".toList := (unbroken_of_all (by decide)).oneLine
  obtain ⟨k, name⟩ := entry
  rw [toList_nameText]
  simp only [oneLine_append, oneLine_cons, hdigits, h.oneLine, hspaces, hstart]
  decide

theorem unbroken_quantifierText (scope : Quantifier × List Int) :
    Unbroken (quantifierText scope) := by
  simp only [quantifierText, unbroken_append, unbroken_cons, unbroken_commaList, unbroken_nil,
    unbroken_of_letters scope.1.isWord.2]
  decide

theorem oneLine_of_listing {numbers : Table Circuit Int} {gates : List Circuit}
    {texts : List String} (listing : Listing numbers gates texts)
    (legible : ∀ g ∈ gates, (toGate numbers g).Legible) :
    ∀ text ∈ texts, OneLine text.toList := by
  induction listing with
  | nil => simp
  | comment text honeLine _ ih =>
      refine List.forall_mem_cons.mpr ⟨?_, ih legible⟩
      simpa using honeLine
  | gate g _ ih =>
      rw [List.forall_mem_cons] at legible
      exact List.forall_mem_cons.mpr ⟨(Gate.unbroken_line legible.1).oneLine, ih legible.2⟩

section Texts

variable {names : List (Nat × String)} {scopes : List (Quantifier × List Int)}
  {largest output : Int}

theorem oneLine_documentLines {gates : List String}
    (hnames : ∀ entry ∈ names, IsGivenName entry.2)
    (hgates : ∀ text ∈ gates, OneLine text.toList) :
    ∀ text ∈ documentLines largest names scopes output gates, OneLine text.toList := by
  intro text htext
  simp only [documentLines, List.mem_cons, List.mem_append, List.mem_map] at htext
  rcases htext with rfl | ⟨entry, hentry, rfl⟩ | ⟨scope, -, rfl⟩ | rfl | htext
  · rw [String.toList_append, oneLine_append]
    exact ⟨(unbroken_of_all (by decide)).oneLine, (unbroken_showInt largest).oneLine⟩
  · exact oneLine_nameText (hnames entry hentry)
  · rw [String.toList_ofList]
    exact (unbroken_quantifierText scope).oneLine
  · exact (unbroken_outputLine output).oneLine
  · exact hgates text htext

/-- Whether names are heeded or not, the comments are passed over and the heading remains. -/
theorem comments_read {lines : List (Nat × List Char)} {others : List (List Char)}
    (heedNames : Bool) (hnames : ∀ entry ∈ names, IsGivenName entry.2) (last : Nat)
    (hlines : lines.map Prod.snd = ("#QCIR-G14 " ++ Text.showInt largest).toList ::
      (names.map (fun entry => (nameText entry).toList) ++ (scopes.map quantifierText ++
        ("output(" ++ Text.showInt output ++ ")").toList :: others))) :
    ∃ given found rest, (if heedNames then givenNames lines {} else .ok ({}, lines)) =
        .ok (given, found) ∧ given.keys.Nodup ∧
      rest.map Prod.snd = scopes.map quantifierText ++
        ("output(" ++ Text.showInt output ++ ")").toList :: others ∧
      heading last found [] = heading last rest [] := by
  obtain ⟨⟨number, line⟩, lines, rfl, hline, hlines⟩ := List.map_eq_cons_iff.mp hlines
  dsimp only at hline
  rw [hline]
  cases heedNames with
  | false =>
      obtain ⟨rest, hrest, hheading⟩ := heading_names last [] hlines
      refine ⟨{}, _, rest, rfl, List.nodup_nil, hrest, ?_⟩
      have htext : ("#QCIR-G14 " ++ Text.showInt largest).toList =
          '#' :: ("QCIR-G14 ".toList ++ (Text.showInt largest).toList) := by
        simp
      rw [htext, heading_comment, hheading]
  | true =>
      obtain ⟨rest, hrest, hgiven⟩ := givenNames_names hnames {} hlines
      have hempty : ({} : Table Nat String).keys.Nodup := List.nodup_nil
      refine ⟨Table.putAll {} names, rest, rest, ?_, Table.nodup_keys_putAll hempty names, hrest,
        rfl⟩
      rw [if_pos rfl, givenNames_largest, hgiven, givenNames_heading _ hrest]

/-- Variables that are numbered from one keep their numbers, and comments can rename them. -/
theorem allot_kept {vars : List Int} {given : Table Nat String} (hkeys : given.keys.Nodup)
    (distinct : vars.Nodup) (range : ∀ v ∈ vars, 1 ≤ v ∧ v ≤ vars.length) :
    ∃ numbers renamed, allot (vars.map Text.showInt) = .ok numbers ∧
      given.entries.foldlM (rename (vars.map Text.showInt)) (namesByNumber numbers) =
        .ok renamed ∧
      (∀ v ∈ vars, numbers.get? (Text.showInt v) = some v) ∧
      ∀ name ∈ numbers.keys, ∃ v ∈ vars, name = Text.showInt v := by
  obtain ⟨numbers, ρ, hallot, hρ, honly, -, hkept⟩ :=
    allot_quantified (fun v hv => (range v hv).1) distinct
  have hown : ∀ v ∈ vars, numbers.get? (Text.showInt v) = some v := fun v hv =>
    (hρ v hv).trans (congrArg some (hkept v hv (range v hv).2))
  obtain ⟨renamed, hrenamed⟩ : ∃ renamed, given.entries.foldlM
      (rename (vars.map Text.showInt)) (namesByNumber numbers) = .ok renamed := by
    refine foldlM_rename hkeys fun entry _ hvar => ?_
    obtain ⟨v, hv, hname⟩ := List.mem_map.mp hvar
    have hnumber : v = (entry.1 : Int) := Text.showInt_injective hname
    have hget := get?_namesByNumber hallot (hown v hv)
    rwa [hname, hnumber] at hget
  exact ⟨numbers, renamed, hallot, hrenamed, hown, honly⟩

/-- The lines of a circuit are read as the circuit under its quantifiers. -/
theorem read_documentLines {given : Table Circuit (List String)} {c : Circuit} {l : Layout}
    {gates : List String} (heedNames : Bool) (plain : c.Plain)
    (hnames : ∀ entry ∈ names, IsGivenName entry.2) (hlayout : layout given c = .ok l)
    (listing : Listing l.numbers (l.gates.map (·.1)) gates)
    (apart : Apart l.numbers (scopes.flatMap Prod.snd) c)
    (distinct : (scopes.flatMap Prod.snd).Nodup)
    (range : ∀ v ∈ scopes.flatMap Prod.snd, 1 ≤ v ∧ v ≤ (scopes.flatMap Prod.snd).length) :
    ∃ document, Document.read heedNames (String.join ((documentLines largest names scopes
        (numberOf l.numbers c) gates).map (· ++ "\n"))) = .ok document ∧
      document.scopes = scopes.map (fun scope => ⟨scope.1.binder, scope.2⟩) ∧
      document.output = c := by
  obtain ⟨hnodup, hmem⟩ := gates_of_layout hlayout
  have hgates : ∀ g ∈ l.gates.map (·.1), g ∈ c.parts ∧ g.isGate = true := by
    intro g hg
    obtain ⟨hpart, hnode, hlit⟩ := (hmem g).mp hg
    exact ⟨hpart, isGate_of_isTidy (plain.tidy g hpart) hnode hlit⟩
  have honeLine : ∀ text ∈ documentLines largest names scopes (numberOf l.numbers c) gates,
      OneLine text.toList := by
    refine oneLine_documentLines hnames (oneLine_of_listing listing fun g hg => ?_)
    exact legible_toGate apart (hgates g hg).1 (hgates g hg).2
  have hall := numberedLines_join honeLine
  generalize String.join _ = text at hall ⊢
  rw [Document.read_eq]
  generalize Text.numberedLines (Text.unifyBreaks text.toList) = lines at hall ⊢
  have hlines : lines.map Prod.snd = ("#QCIR-G14 " ++ Text.showInt largest).toList ::
      (names.map (fun entry => (nameText entry).toList) ++ (scopes.map quantifierText ++
        ("output(" ++ Text.showInt (numberOf l.numbers c) ++ ")").toList ::
          gates.map String.toList)) := by
    simpa [documentLines, Function.comp_def] using hall
  obtain ⟨given', found, rest, hcomments, hkeys, hrest, hskip⟩ :=
    comments_read heedNames hnames (lines.length + 1) hlines
  have positive : ∀ scope ∈ scopes, ∀ v ∈ scope.2, 0 < v := fun scope hscope v hv =>
    (range v (List.mem_flatMap.mpr ⟨scope, hscope, hv⟩)).1
  obtain ⟨gateLines, hgateLines, hheading⟩ := heading_lines (lines.length + 1) [] positive hrest
  obtain ⟨numbers, renamed, hallot, hrenamed, hown, honly⟩ := allot_kept hkeys distinct range
  have hstart : Knows l.numbers (scopes.flatMap Prod.snd) c [] { vars := numbers } :=
    ⟨hown, honly, by simp, by simp, fun name hname => by cases hname⟩
  obtain ⟨known, hrun, hknows⟩ := hstart.run listing apart plain hgates hnodup (by simp)
    (inOrder_gates plain.tidy hlayout) hgateLines
  have hready : c.base.isLit = true ∨ c.base ∈ (l.gates.map (·.1)).reverse ++ [] := by
    by_cases hlit : c.base.isLit = true
    · exact Or.inl hlit
    · have hbase := (hmem c.base).mpr ⟨base_mem_parts c,
        isNode_base (plain.tidy c (mem_parts_self c)), by simpa using hlit⟩
      exact Or.inr (by simpa using hbase)
  have houtput := hknows.literal apart plain (mem_parts_self c) hready .outputLookup
    (.line (lines.length + 1))
  have hvars : (scopes.map fun scope => (scope.1.binder, scope.2.map Text.showInt)).flatMap
      (·.2) = (scopes.flatMap Prod.snd).map Text.showInt := by
    rw [List.flatMap_map, List.map_flatMap]
  have hscopes := scopes_of_numbers hown
  refine ⟨⟨_, c, renamed, known.gateNames⟩, ?_, hscopes.trans (by simp), rfl⟩
  rw [hcomments]
  change Document.readAfter (lines.length + 1) given' found = _
  rw [Document.readAfter, hskip, hheading]
  simp only [List.nil_append, hvars, hallot, hrenamed, hrun, houtput, bind, Except.bind]
  rfl

end Texts

/-! ## The round trip -/

section RoundTrip

variable {setting : Setting} {scopes : List Scope} {c : Circuit}

theorem exists_quantifiers
    (h : ∀ scope ∈ scopes, scope.binder = .exists ∨ scope.binder = .forall) :
    ∃ quantifiers : List (Quantifier × List Int),
      scopes = quantifiers.map fun scope => ⟨scope.1.binder, scope.2⟩ := by
  induction scopes with
  | nil => exact ⟨[], rfl⟩
  | cons scope scopes ih =>
      rw [List.forall_mem_cons] at h
      obtain ⟨quantifiers, rfl⟩ := ih h.2
      obtain ⟨binder, vars⟩ := scope
      rcases h.1 with rfl | rfl
      · exact ⟨(.existential, vars) :: quantifiers, rfl⟩
      · exact ⟨(.universal, vars) :: quantifiers, rfl⟩

/-- What is written has no gates without inputs. -/
theorem filled_of_written {text : String} (plain : c.Plain)
    (h : (writeGates setting scopes c).outcome = { text := some text }) :
    ∀ d ∈ c.parts, d.isBare = false := by
  have run := run_of_outcome h
  rw [writeGates_eq plain.tidy.ne_const] at run
  obtain ⟨l, _, hlift, -⟩ := exists_of_run_bind run
  obtain ⟨hlayout, -⟩ := lift_run hlift
  unfold layout at hlayout
  obtain ⟨found, hfound, -⟩ := exists_ok_of_bind hlayout
  exact (places_ok_iff plain.tidy).mp ⟨found, hfound⟩

/-- What is read has no variables that are not quantified. -/
theorem covers_of_read {heedNames : Bool} {text : String} {document : Document}
    (h : Document.read heedNames text = .ok document)
    (distinct : (document.scopes.flatMap Scope.vars).Nodup) :
    ∀ v ∈ document.output.occurrences, (v : Int) ∈ document.scopes.flatMap Scope.vars := by
  intro v hv
  obtain ⟨n, hover, -, hall⟩ := vars_of_read h
  have hrange := hover.range v hv
  exact hall distinct v (by omega) (by omega)

/-- A circuit of gates over literals is written under quantifiers over some of its variables, which
are numbered from one. Whatever numbers and names its gates had, and whether names of variables are
kept and heeded or not, what is written is read as the same circuit under the same quantifiers, if
and only if every gate has inputs and every variable of the circuit is quantified. -/
theorem written_circuit_read_back_iff (heedNames : Bool) (plain : c.Plain)
    (legible : setting.Legible) (named : ∀ key ∈ setting.gateNames.keys, key.isLit = false)
    (binders : ∀ scope ∈ scopes, scope.binder = .exists ∨ scope.binder = .forall)
    (distinct : (scopes.flatMap Scope.vars).Nodup)
    (range : ∀ v ∈ scopes.flatMap Scope.vars, 1 ≤ v ∧ v ≤ (scopes.flatMap Scope.vars).length)
    (occur : ∀ v ∈ scopes.flatMap Scope.vars, v.toNat ∈ c.occurrences) :
    (∃ text document, (writeGates setting scopes c).outcome = { text := some text } ∧
      Document.read heedNames text = .ok document ∧ document.scopes = scopes ∧
      document.output = c) ↔
    (∀ d ∈ c.parts, d.isBare = false) ∧
      ∀ v ∈ c.occurrences, (v : Int) ∈ scopes.flatMap Scope.vars := by
  constructor
  · rintro ⟨text, document, hwritten, hread, hscopes, houtput⟩
    refine ⟨filled_of_written plain hwritten, ?_⟩
    have hcovers := covers_of_read hread (hscopes.symm ▸ distinct)
    rwa [hscopes, houtput] at hcovers
  · rintro ⟨filled, covers⟩
    have unnamed : ∀ n, setting.gateNames.get? (.lit n) = none := fun n =>
      Table.get?_eq_none_iff.mpr fun hkey => by cases named _ hkey
    obtain ⟨quantifiers, rfl⟩ := exists_quantifiers binders
    rw [List.flatMap_map] at distinct range occur covers
    obtain ⟨l, gates, hlayout, listing, writes⟩ :=
      writeGates_writes legible.keepsLines plain filled unnamed quantifiers
    have apart : Apart l.numbers (quantifiers.flatMap Prod.snd) c :=
      apart_of_layout hlayout unnamed (fun v hv => ⟨(range v hv).1, occur v hv⟩) covers
    obtain ⟨document, hread, hscopes, houtput⟩ :=
      read_documentLines heedNames plain legible.kept hlayout listing apart distinct range
    exact ⟨_, document, writes.outcome, hread, hscopes, houtput⟩

end RoundTrip

/-- The negation of a choice between gates that share an input. -/
def sharedChoice : Circuit :=
  .neg (.ite (.lit 1) (.xor (.lit (-2)) (.and [.lit 1, .lit (-3)]))
    (.neg (.or [.and [.lit 1, .lit (-3)], .lit 3])))

/-- Two variables with names, and a gate that was named after a number. -/
def sharedSetting : Setting where
  keepGateNames := true
  variableNames := ⟨[(1, "x"), (2, "2"), (3, "y[3]")]⟩
  gateNames := ⟨[(.and [.lit 1, .lit (-3)], ["9", "shared"])]⟩

theorem sharedSetting_legible : sharedSetting.Legible where
  keepsLines _ := by simp [sharedSetting, OneLine]
  names _ := by simp [sharedSetting, GivenNames, IsGivenName, isGivenNameChar]

theorem written_circuit_read_back_iff_shared :
    sharedChoice.Plain ∧ (∀ d ∈ sharedChoice.parts, d.isBare = false) ∧
      ∃ text document,
        (writeGates sharedSetting [⟨.forall, [2]⟩, ⟨.exists, [3, 1]⟩] sharedChoice).outcome =
          { text := some text } ∧
        Document.read true text = .ok document ∧
        document.scopes = [⟨.forall, [2]⟩, ⟨.exists, [3, 1]⟩] ∧ document.output = sharedChoice := by
  have hplain : sharedChoice.Plain := by decide
  have hfilled : ∀ d ∈ sharedChoice.parts, d.isBare = false := by decide
  refine ⟨hplain, hfilled, ?_⟩
  apply (written_circuit_read_back_iff true hplain sharedSetting_legible (by decide) (by decide)
    (by decide) (by decide) (by decide)).mpr
  exact ⟨hfilled, by decide⟩

/-- A gate without inputs cannot be written, and a circuit over a variable that is not quantified
cannot be read. -/
theorem hollow_and_open_circuits_are_lost :
    (¬ ∃ text, (writeGates {} [] (.and [])).outcome = { text := some text }) ∧
      ¬ ∃ text document,
        (writeGates {} [⟨.exists, [1]⟩] (.and [.lit 1, .lit 2])).outcome = { text := some text } ∧
        Document.read true text = .ok document ∧ document.scopes = [⟨.exists, [1]⟩] ∧
        document.output = .and [.lit 1, .lit 2] := by
  constructor
  · rintro ⟨text, hwritten⟩
    have hfilled := filled_of_written (by decide) hwritten (.and []) (mem_parts_self _)
    cases hfilled
  · rintro ⟨text, document, -, hread, hscopes, houtput⟩
    have hcovers := covers_of_read hread (by rw [hscopes]; decide)
    rw [hscopes, houtput] at hcovers
    exact absurd hcovers (by decide)

end QuantFamily.Circuit
