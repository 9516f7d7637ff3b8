import QuantFamily.Proofs.Circuit.Pool
import QuantFamily.Proofs.Gate.Heading

/-!
# The lines of a circuit

A circuit of gates over literals is written as one line for each gate, after its inputs, with
comments among these lines. Before them stand the largest number, the names of variables, the
quantifier lines and the output line. Writing ends well if every gate has inputs and no literal
was named after a gate.
-/

namespace QuantFamily.Circuit

/-! ## Writing line by line -/

namespace Writing

/-- Writing ends well and adds some lines to the text. -/
def Writes (writing : Writing Unit) (lines : List String) : Prop :=
  ∀ text, writing text = .ok () (text ++ String.join (lines.map (· ++ "\n")))

variable {α : Type} {first second : Writing Unit} {lines more : List String}

theorem writes_nothing : Writes (pure ()) [] := fun text =>
  congrArg (EStateM.Result.ok ()) (String.append_empty (s := text)).symm

theorem writes_join (lines : List String) :
    Writes (emit (String.join (lines.map (· ++ "\n")))) lines := fun _ => rfl

theorem writes_line (line : String) : Writes (emit (line ++ "\n")) [line] := by
  simpa using writes_join [line]

theorem Writes.bind (h : Writes first lines) (h' : Writes second more) :
    Writes (first >>= fun _ => second) (lines ++ more) := fun text => by
  rw [run_bind_of_ok (h text), h', List.map_append, String.join_append, String.append_assoc]

theorem Writes.lift {outcome : Except Fault α} {a : α} {next : α → Writing Unit}
    (houtcome : outcome = .ok a) (h : Writes (next a) lines) :
    Writes (Writing.lift outcome >>= next) lines := fun text => by
  subst houtcome
  exact h text

theorem Writes.outcome (h : Writes first lines) :
    first.outcome = { text := some (String.join (lines.map (· ++ "\n"))) } := by
  have hrun := h ""
  rw [String.empty_append] at hrun
  unfold Writing.outcome EStateM.run
  rw [hrun]

end Writing

/-! ## Names of variables -/

/-- The comment that names a variable. -/
def nameText (entry : Nat × String) : String :=
  "#VarName " ++ threeColumns entry.1 ++ " : " ++ entry.2

/-- The variables that are named by comments, if names are kept: those whose names are not their
numbers. -/
def keptNames (setting : Setting) : List (Nat × String) :=
  if setting.keepVariableNames then
    setting.variableNames.entries.filter fun entry => Nat.repr entry.1 ≠ entry.2
  else []

theorem writes_nameLines (setting : Setting) :
    Writing.Writes (Writing.emit (nameLines "#" setting)) ((keptNames setting).map nameText) := by
  have hjoin : nameLines "#" setting =
      String.join (((keptNames setting).map nameText).map (· ++ "\n")) := by
    unfold nameLines keptNames
    by_cases hkeep : setting.keepVariableNames = true
    · rw [if_pos hkeep, if_pos hkeep]
      induction setting.variableNames.entries with
      | nil => rfl
      | cons entry entries ih =>
          rw [List.map_cons, String.join_cons, ih]
          by_cases hown : Nat.repr entry.1 = entry.2
          · rw [if_pos hown, List.filter_cons_of_neg (by simpa using hown), String.empty_append]
          · rw [if_neg hown, List.filter_cons_of_pos (by simpa using hown), List.map_cons,
              List.map_cons, String.join_cons]
            rfl
    · rw [if_neg hkeep, if_neg hkeep]
      rfl
  rw [hjoin]
  exact Writing.writes_join _

/-! ## Gates -/

theorem oneLine_join {parts : List String} (h : ∀ part ∈ parts, OneLine part.toList) :
    OneLine (String.join parts).toList := by
  induction parts with
  | nil => simp [OneLine]
  | cons part parts ih =>
      rw [List.forall_mem_cons] at h
      rw [String.join_cons, String.toList_append, oneLine_append]
      exact ⟨h.1, ih h.2⟩

def numberOf (numbers : Table Circuit Int) (c : Circuit) : Int :=
  (numbers.get? c).getD 0

/-- A gate over the numbers of its inputs. -/
def toGate (numbers : Table Circuit Int) (c : Circuit) : Gate :=
  ⟨numberOf numbers c, c.word, c.inputs.map (numberOf numbers)⟩

/-- The lines of gates in their order, with comments among them. -/
inductive Listing (numbers : Table Circuit Int) : List Circuit → List String → Prop
  | nil : Listing numbers [] []
  | comment {gates : List Circuit} {lines : List String} (text : String) :
      OneLine text.toList → Listing numbers gates lines →
      Listing numbers gates (("#" ++ text) :: lines)
  | gate {gates : List Circuit} {lines : List String} (c : Circuit) :
      Listing numbers gates lines → Listing numbers (c :: gates) ((toGate numbers c).line :: lines)

section Lines

variable {setting : Setting} {l : Layout} {c : Circuit} {gates : List Circuit}
  {lines : List String}

theorem number_eq {numbers : Table Circuit Int} (h : ∃ n, numbers.get? c = some n) :
    Numbering.number numbers c = .ok (numberOf numbers c) := by
  obtain ⟨n, hn⟩ := h
  simp [Numbering.number, numberOf, hn]

/-- No former name of a gate breaks the line it is written on, if they are written. -/
def Setting.KeepsLines (setting : Setting) : Prop :=
  setting.keepGateNames = true →
    ∀ entry ∈ setting.gateNames.entries, ∀ name ∈ entry.2, OneLine name.toList

theorem Listing.comments {numbers : Table Circuit Int} (listing : Listing numbers gates lines)
    {texts : List String} (h : ∀ text ∈ texts, OneLine text.toList) :
    Listing numbers gates (texts.map ("#" ++ ·) ++ lines) := by
  induction texts with
  | nil => exact listing
  | cons text texts ih =>
      rw [List.forall_mem_cons] at h
      exact .comment text h.1 (ih h.2)

theorem writes_formerNames (keeps : setting.KeepsLines) (number : Int) (c : Circuit) :
    ∃ texts : List String, (∀ text ∈ texts, OneLine text.toList) ∧
      Writing.Writes (Writing.emit (formerNames setting number c)) (texts.map ("#" ++ ·)) := by
  unfold formerNames
  dsimp only
  split
  case isTrue => exact ⟨[], by simp, Writing.writes_join []⟩
  case isFalse hnames =>
    refine ⟨[Text.showInt number ++ String.join (((setting.gateNames.get? c).getD []).map
      (" OrigName_" ++ ·))], ?_, ?_⟩
    · rw [List.forall_mem_singleton, String.toList_append, oneLine_append]
      refine ⟨(unbroken_showInt number).oneLine, oneLine_join fun part hpart => ?_⟩
      obtain ⟨name, hname, rfl⟩ := List.mem_map.mp hpart
      rw [String.toList_append, oneLine_append]
      refine ⟨(unbroken_of_all (by decide)).oneLine, ?_⟩
      cases hget : setting.gateNames.get? c with
      | none =>
          rw [hget] at hname
          cases hname
      | some names =>
          rw [hget] at hname
          exact keeps (by simp_all) _ (Table.mem_entries_of_get? hget) name hname
    · rw [List.map_singleton, ← String.append_assoc]
      exact Writing.writes_line _

theorem written_of_ready {d : Circuit} {done : List Circuit} (tidy : d.isTidy = true)
    (ready : d.base.isLit = true ∨ d.base ∈ done) :
    (d.isLit || decide (d ∈ done.flatMap fun c => [c, .neg c])) = true := by
  rw [Bool.or_eq_true, decide_eq_true_eq, List.mem_flatMap]
  refine ready.imp (isLit_of_base tidy) fun hdone => ⟨d.base, hdone, ?_⟩
  rw [List.mem_cons, List.mem_singleton]
  exact eq_base_or_neg d

/-- The check before a gate line. -/
theorem inputs_written {done : List Circuit} (tidy : ∀ d ∈ c.inputs, d.isTidy = true)
    (ready : ∀ d ∈ c.inputs, d.base.isLit = true ∨ d.base ∈ done) :
    (c.inputs.all fun arg => arg.isLit ||
      decide (arg ∈ done.flatMap fun c => [c, .neg c])) = true := by
  rw [List.all_eq_true]
  exact fun d hd => written_of_ready (tidy d hd) (ready d hd)

theorem numbers_eq {numbers : Table Circuit Int} {ds : List Circuit}
    (h : ∀ d ∈ ds, ∃ n, numbers.get? d = some n) :
    ds.mapM (Numbering.number numbers) = .ok (ds.map (numberOf numbers)) :=
  mapM_ok_of_forall fun d hd => number_eq (h d hd)

theorem gateLines_writes {gates : List (Circuit × Place)} (done : List Circuit)
    (keeps : setting.KeepsLines) (inOrder : InOrder done (gates.map (·.1)))
    (tidy : ∀ c ∈ gates.map (·.1), ∀ d ∈ c.inputs, d.isTidy = true)
    (numbered : ∀ c ∈ gates.map (·.1), (∃ n, l.numbers.get? c = some n) ∧
      ∀ d ∈ c.inputs, ∃ n, l.numbers.get? d = some n) (level : Option Nat) :
    ∃ lines, Listing l.numbers (gates.map (·.1)) lines ∧
      Writing.Writes (gateLines setting l gates (done.flatMap fun c => [c, .neg c]) level)
        lines := by
  induction gates generalizing done level with
  | nil => exact ⟨[], .nil, Writing.writes_nothing⟩
  | cons entry gates ih =>
      obtain ⟨c, place⟩ := entry
      rw [List.map_cons, List.forall_mem_cons] at tidy numbered
      obtain ⟨lines, listing, writes⟩ := ih (c :: done) inOrder.2 tidy.2 numbered.2 (some place.level)
      obtain ⟨texts, htexts, hformer⟩ := writes_formerNames keeps (numberOf l.numbers c) c
      have hargs := numbers_eq numbered.1.2
      have hline : Text.showInt (numberOf l.numbers c) ++ " = " ++ c.word ++ "(" ++
          Text.showInts ", " (c.inputs.map (numberOf l.numbers)) ++ ")\n" =
            (toGate l.numbers c).line ++ "\n" := by
        have hend : ")\n" = ")" ++ "\n" := by decide
        rw [hend, ← String.append_assoc]
        rfl
      rw [gateLines]
      simp only [inputs_written tidy.1 inOrder.1, Bool.not_true, Bool.false_eq_true, if_false]
      have hgate := hformer.bind ((Writing.writes_line (toGate l.numbers c).line).bind writes)
      rw [← hline] at hgate
      -- The comment with the level comes first, if the level is a new one.
      by_cases hlevel : level = some place.level
      · refine ⟨_, (listing.gate c).comments htexts, .lift hargs ?_⟩
        rw [if_neg (not_not_intro hlevel)]
        exact .lift (number_eq numbered.1.1) hgate
      · have htitle : OneLine (" Nesting Level L" ++ Nat.repr place.level).toList := by
          rw [String.toList_append, oneLine_append]
          exact ⟨(unbroken_of_all (by decide)).oneLine, (unbroken_showInt place.level).oneLine⟩
        refine ⟨_, ((listing.gate c).comments htexts).comment _ htitle, .lift hargs ?_⟩
        rw [if_pos hlevel]
        exact (Writing.writes_line _).bind (.lift (number_eq numbered.1.1) hgate)

end Lines

/-! ## The whole text -/

section Text

variable {setting : Setting} {given : Table Circuit (List String)} {c d : Circuit} {l : Layout}

theorem exists_layout (plain : c.Plain) (filled : ∀ d ∈ c.parts, d.isBare = false)
    (unnamed : ∀ n, given.get? (.lit n) = none) : ∃ l, layout given c = .ok l := by
  obtain ⟨found, hfound⟩ := (places_ok_iff plain.tidy).mpr filled
  obtain ⟨hnodup, hmem⟩ := order_of_places hfound
  have hspares : (Numbering.ofLiterals ((sorted found).map (·.1))).Spares given
      ((sorted found).map (·.1)) := by
    intro m k _ hk
    simp [Numbering.namedAfter?, unnamed m] at hk
  obtain ⟨numbers, hnumbers⟩ :=
    Numbering.exists_ofCircuits hnodup (fun d hd => ((hmem d).mp hd).2) hspares
  refine ⟨⟨found, (sorted found).filter fun entry => !entry.1.isLit, numbers⟩, ?_⟩
  unfold layout
  rw [hfound]
  simp only [bind, Except.bind, hnumbers]
  rfl

/-- Gates have positive numbers that are not variables, and their negations the opposite ones. -/
theorem number_of_gate (h : layout given c = .ok l) (hd : d ∈ c.parts) (gate : d.isGate = true) :
    ∃ k : Nat, 0 < k ∧ k ∉ c.occurrences ∧ l.numbers.get? d = some (k : Int) ∧
      l.numbers.get? (.neg d) = some (-(k : Int)) := by
  obtain ⟨hnumbered, hall⟩ := numbers_of_layout h
  have hnode := isNode_of_isGate gate
  obtain ⟨n, hn⟩ := hall d hd hnode
  rcases hnumbered.node d n hnode hn with ⟨m, rfl, -⟩ | ⟨k, hpos, hvar, rfl, hneg⟩
  · cases gate
  · exact ⟨k, hpos, hvar, hn, hneg⟩

theorem number_of_part (tidy : c.Tidy) (h : layout given c = .ok l) (hd : d ∈ c.parts) :
    ∃ n, l.numbers.get? d = some n := by
  by_cases hnode : d.isNode = true
  · exact (numbers_of_layout h).2 d hd hnode
  · cases d with
    | neg e =>
        have hgate : e.isGate = true := tidy _ hd
        obtain ⟨k, -, -, -, hneg⟩ :=
          number_of_gate h (mem_parts_trans hd (base_mem_parts (.neg e))) hgate
        exact ⟨_, hneg⟩
    | const b => cases tidy _ hd
    | _ => exact absurd rfl hnode

theorem input_mem_parts (h : layout given c = .ok l) (hd : d ∈ l.gates.map (·.1)) {e : Circuit}
    (he : e ∈ d.inputs) : e ∈ c.parts :=
  mem_parts_trans (((gates_of_layout h).2 d).mp hd).1 (mem_parts_of_input he (mem_parts_self e))

theorem tidy_of_layout (tidy : c.Tidy) (h : layout given c = .ok l) :
    ∀ d ∈ l.gates.map (·.1), ∀ e ∈ d.inputs, e.isTidy = true :=
  fun _ hd e he => tidy e (input_mem_parts h hd he)

theorem numbered_of_layout (tidy : c.Tidy) (h : layout given c = .ok l) :
    ∀ d ∈ l.gates.map (·.1), (∃ n, l.numbers.get? d = some n) ∧
      ∀ e ∈ d.inputs, ∃ n, l.numbers.get? e = some n :=
  fun d hd => ⟨number_of_part tidy h (((gates_of_layout h).2 d).mp hd).1,
    fun _ he => number_of_part tidy h (input_mem_parts h hd he)⟩

theorem writes_scopes (scopes : List (Quantifier × List Int)) :
    Writing.Writes ((scopes.map fun scope => (⟨scope.1.binder, scope.2⟩ : Scope)).forM scopeLine)
      (scopes.map fun scope => String.ofList (quantifierText scope)) := by
  induction scopes with
  | nil => exact Writing.writes_nothing
  | cons scope scopes ih =>
      obtain ⟨q, ns⟩ := scope
      have htext : q.binder.word ++ "(" ++ Text.showInts ", " ns ++ ")\n" =
          String.ofList (quantifierText (q, ns)) ++ "\n" := by
        apply String.toList_inj.mp
        cases q <;> simp [quantifierText, commaList, Quantifier.binder, Quantifier.word, Binder.word]
      have hline : scopeLine ⟨q.binder, ns⟩ =
          Writing.emit (String.ofList (quantifierText (q, ns)) ++ "\n") := by
        rw [← htext]
        cases q <;> rfl
      change Writing.Writes (scopeLine ⟨q.binder, ns⟩ >>= fun _ => List.forM _ scopeLine) _
      rw [hline]
      exact (Writing.writes_line _).bind ih

theorem writeGates_eq (h : ∀ b, c ≠ .const b) (scopes : List Scope) :
    writeGates setting scopes c = (do
      let l <- Writing.lift (layout setting.gateNames c)
      Writing.emit ("#QCIR-G14 " ++ Text.showInt (Numbering.largest l.numbers) ++ "\n")
      Writing.emit (nameLines "#" setting)
      scopes.forM scopeLine
      let number <- Writing.lift (Numbering.number l.numbers c)
      Writing.emit ("output(" ++ Text.showInt number ++ ")\n")
      gateLines setting l l.gates [] none) := by
  cases c with
  | const b => exact absurd rfl (h b)
  | _ => rfl

/-- The lines of a circuit text: the largest number, names of variables, quantifiers, the output and
the gates. -/
def documentLines (largest : Int) (names : List (Nat × String))
    (scopes : List (Quantifier × List Int)) (output : Int) (gates : List String) : List String :=
  ("#QCIR-G14 " ++ Text.showInt largest) :: (names.map nameText ++
    (scopes.map (fun scope => String.ofList (quantifierText scope)) ++
      ("output(" ++ Text.showInt output ++ ")") :: gates))

/-- A circuit with inputs at every gate is written with its gates in order. -/
theorem writeGates_writes (keeps : setting.KeepsLines) (plain : c.Plain)
    (filled : ∀ d ∈ c.parts, d.isBare = false)
    (unnamed : ∀ n, setting.gateNames.get? (.lit n) = none)
    (scopes : List (Quantifier × List Int)) :
    ∃ l lines, layout setting.gateNames c = .ok l ∧ Listing l.numbers (l.gates.map (·.1)) lines ∧
      Writing.Writes
        (writeGates setting (scopes.map fun scope => ⟨scope.1.binder, scope.2⟩) c)
        (documentLines (Numbering.largest l.numbers) (keptNames setting) scopes
          (numberOf l.numbers c) lines) := by
  obtain ⟨l, hlayout⟩ := exists_layout plain filled unnamed
  obtain ⟨lines, listing, writes⟩ := gateLines_writes [] keeps (inOrder_gates plain.tidy hlayout)
    (tidy_of_layout plain.tidy hlayout) (numbered_of_layout plain.tidy hlayout) none
  refine ⟨l, lines, hlayout, listing, ?_⟩
  have houtput : "output(" ++ Text.showInt (numberOf l.numbers c) ++ ")\n" =
      "output(" ++ Text.showInt (numberOf l.numbers c) ++ ")" ++ "\n" := outputLine_eq _
  rw [writeGates_eq plain.tidy.ne_const]
  refine .lift hlayout ((Writing.writes_line _).bind ((writes_nameLines setting).bind
    ((writes_scopes scopes).bind
      (.lift (number_eq (number_of_part plain.tidy hlayout (mem_parts_self c))) ?_))))
  rw [houtput]
  exact (Writing.writes_line _).bind writes

end Text

end QuantFamily.Circuit
