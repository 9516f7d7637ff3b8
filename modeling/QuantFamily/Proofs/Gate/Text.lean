import QuantFamily.Circuit.Reader
import QuantFamily.Output.Circuit
import QuantFamily.Proofs.Gate.Literals

/-!
# The lines of a circuit text

What a circuit text says is what its lines say. A line that defines a gate gives a number, a
word and the numbers of the operands; one line names the output. Reading takes the lines one
by one, so it is enough to know what each written line is read as: a gate line as its gate, an
output line as its number, and the quantifier lines as neither.
-/

namespace QuantFamily

open Circuit.Reader (run? spaces? isNameChar items bracketed? gateParts? beforeLastBracket?)

/-! ## Reading line by line -/

section LinesRead

variable {α : Type} {read : List Char → Option α}

/-- What the lines of a text are read as; lines that cannot be read are left out. -/
def linesRead (read : List Char → Option α) (text : String) : List α :=
  (Text.lines text.toList).filterMap read

theorem linesRead_line_append {line : String} (h : '\n' ∉ line.toList) (rest : String) :
    linesRead read (line ++ "\n" ++ rest) = (read line.toList).toList ++ linesRead read rest := by
  have htext : (line ++ "\n" ++ rest).toList = line.toList ++ '\n' :: rest.toList := by
    simp [String.toList_append]
  unfold linesRead
  rw [htext, Text.lines_append_newline h, List.filterMap_cons]
  cases read line.toList <;> rfl

/-- A part of a text, made of whole lines, of which none can be read. -/
def Silent (read : List Char → Option α) (part : String) : Prop :=
  ∀ rest, linesRead read (part ++ rest) = linesRead read rest

theorem silent_empty : Silent read "" := by
  intro rest
  rw [String.empty_append]

theorem silent_line {line : String} (h : '\n' ∉ line.toList) (hread : read line.toList = none) :
    Silent read (line ++ "\n") := by
  intro rest
  rw [linesRead_line_append h, hread]
  rfl

theorem Silent.append {first second : String} (h : Silent read first) (h' : Silent read second) :
    Silent read (first ++ second) := by
  intro rest
  rw [String.append_assoc, h, h']

theorem silent_join {parts : List String} (h : ∀ part ∈ parts, Silent read part) :
    Silent read (String.join parts) := by
  induction parts with
  | nil => exact silent_empty
  | cons part parts ih =>
      rw [String.join_cons]
      exact Silent.append (h part List.mem_cons_self)
        (ih fun other hother => h other (List.mem_cons_of_mem part hother))

/-- Lines that are read one by one as what they were written for. -/
theorem linesRead_join {write : α → String} {items : List α}
    (h : ∀ a ∈ items, '\n' ∉ (write a).toList ∧ read (write a).toList = some a) :
    linesRead read (String.join (items.map fun a => write a ++ "\n")) = items := by
  induction items with
  | nil => rfl
  | cons a items ih =>
      rw [List.forall_mem_cons] at h
      rw [List.map_cons, String.join_cons, linesRead_line_append h.1.1, h.1.2, ih h.2]
      rfl

end LinesRead

/-! ## Lists of numbers -/

/-- A text without separators, as it stands in a list of numbers. -/
def Solid (piece : List Char) : Prop :=
  piece ≠ [] ∧ ∀ c ∈ piece, Text.isBlank c = false ∧ c ≠ ','

theorem solid_showInt (n : Int) : Solid (Text.showInt n).toList := by
  refine ⟨Text.showInt_ne_nil n, fun c hc => ⟨Text.isBlank_eq_false_of_mem_showInt hc, ?_⟩⟩
  rintro rfl
  exact Text.not_mem_showInt (by decide) (by decide) n hc

theorem Solid.map_eq_self {piece : List Char} (h : Solid piece) :
    piece.map (fun c => if c = ',' then ' ' else c) = piece := by
  refine (List.map_congr_left fun c hc => ?_).trans (List.map_id piece)
  exact if_neg (h.2 c hc).2

theorem items_solid {piece : List Char} (h : Solid piece) : items piece = [piece] := by
  rw [items, h.map_eq_self, Text.words, Text.splitAt_of_not_mem fun c hc => (h.2 c hc).1]
  simp [h.1]

theorem items_solid_append {piece : List Char} (h : Solid piece) (rest : List Char) :
    items (piece ++ ',' :: ' ' :: rest) = piece :: items rest := by
  have hblank : Text.isBlank ' ' = true := by decide
  have hpiece := items_solid h
  rw [items, h.map_eq_self] at hpiece
  rw [items, List.map_append, h.map_eq_self, List.map_cons, List.map_cons, if_pos rfl,
    if_neg (by decide), Text.words_append_cons hblank, hpiece, ← List.nil_append (' ' :: _),
    Text.words_append_cons hblank]
  rfl

theorem toList_commaList_cons (n m : Int) (ns : List Int) :
    (commaList (n :: m :: ns)).toList =
      (Text.showInt n).toList ++ ',' :: ' ' :: (commaList (m :: ns)).toList := by
  simp [commaList, Text.toList_showInts_cons]

/-- Numbers with commas between them fall into these numbers. -/
theorem items_commaList (ns : List Int) :
    items (commaList ns).toList = ns.map fun n => (Text.showInt n).toList := by
  induction ns with
  | nil => rfl
  | cons n ns ih =>
      cases ns with
      | nil =>
          have hone : (commaList [n]).toList = (Text.showInt n).toList := by
            simp [commaList, Text.showInts]
          rw [hone, items_solid (solid_showInt n)]
          rfl
      | cons m ns => rw [toList_commaList_cons, items_solid_append (solid_showInt n), ih]; rfl

theorem mapM_readInt?_items (ns : List Int) :
    (items (commaList ns).toList).mapM Text.readInt? = some ns := by
  rw [items_commaList, List.mapM_map]
  induction ns with
  | nil => rfl
  | cons n ns ih => simp [List.mapM_cons, Text.readInt?_showInt, ih]

/-- The characters of a list of numbers. -/
theorem mem_commaList {ns : List Int} {c : Char} (h : c ∈ (commaList ns).toList) :
    c = ',' ∨ c = ' ' ∨ c = '-' ∨ c.isDigit = true := by
  induction ns with
  | nil => cases h
  | cons n ns ih =>
      cases ns with
      | nil =>
          have hmem : c ∈ (Text.showInt n).toList := by
            simpa [commaList, Text.showInts, String.toList_intercalate] using h
          exact Or.inr (Or.inr (Text.mem_showInt hmem))
      | cons m ns =>
          rw [toList_commaList_cons, List.mem_append, List.mem_cons, List.mem_cons] at h
          rcases h with h | h | h | h
          · exact Or.inr (Or.inr (Text.mem_showInt h))
          · exact Or.inl h
          · exact Or.inr (Or.inl h)
          · exact ih h

/-- A line in which the only white space is the space, so that it stays one line. -/
def Unbroken (line : List Char) : Prop :=
  ∀ c ∈ line, Text.isBlank c = true → c = ' '

@[simp] theorem unbroken_cons {c : Char} {line : List Char} :
    Unbroken (c :: line) ↔ (Text.isBlank c = true → c = ' ') ∧ Unbroken line :=
  List.forall_mem_cons

@[simp] theorem unbroken_append {line more : List Char} :
    Unbroken (line ++ more) ↔ Unbroken line ∧ Unbroken more :=
  List.forall_mem_append

@[simp] theorem unbroken_nil : Unbroken [] := by
  simp [Unbroken]

theorem Unbroken.newline_not_mem {line : List Char} (h : Unbroken line) : '\n' ∉ line := fun hmem =>
  absurd (h _ hmem (by decide)) (by decide)

/-- A text without line breaks. -/
def OneLine (text : List Char) : Prop :=
  ∀ c ∈ text, c ≠ '\n' ∧ c ≠ '\r'

instance (text : List Char) : Decidable (OneLine text) :=
  inferInstanceAs (Decidable (∀ c ∈ text, c ≠ '\n' ∧ c ≠ '\r'))

@[simp] theorem oneLine_cons {c : Char} {text : List Char} :
    OneLine (c :: text) ↔ (c ≠ '\n' ∧ c ≠ '\r') ∧ OneLine text :=
  List.forall_mem_cons

@[simp] theorem oneLine_append {text more : List Char} :
    OneLine (text ++ more) ↔ OneLine text ∧ OneLine more :=
  List.forall_mem_append

theorem Unbroken.oneLine {line : List Char} (h : Unbroken line) : OneLine line := by
  intro c hc
  constructor
  · rintro rfl
    exact absurd (h _ hc (by decide)) (by decide)
  · rintro rfl
    exact absurd (h _ hc (by decide)) (by decide)

theorem unbroken_of_all {line : List Char}
    (h : line.all (fun c => !Text.isBlank c || decide (c = ' ')) = true) : Unbroken line := by
  intro c hc hblank
  have := List.all_eq_true.mp h c hc
  simpa [hblank] using this

theorem unbroken_of_letters {word : List Char} (h : ∀ c ∈ word, c.isAlpha = true) :
    Unbroken word := by
  intro c hc hblank
  rw [Text.isBlank_eq_false_of_isAlpha (h c hc)] at hblank
  cases hblank

@[simp] theorem unbroken_showInt (n : Int) : Unbroken (Text.showInt n).toList := by
  intro c hc hblank
  rw [Text.isBlank_eq_false_of_mem_showInt hc] at hblank
  cases hblank

theorem unbroken_showInts {separator : String} (h : Unbroken separator.toList) (ns : List Int) :
    Unbroken (Text.showInts separator ns).toList := by
  induction ns with
  | nil => exact unbroken_nil
  | cons n ns ih =>
      cases ns with
      | nil => simp [Text.showInts]
      | cons m ns =>
          rw [Text.toList_showInts_cons, unbroken_append, unbroken_append]
          exact ⟨⟨unbroken_showInt n, h⟩, ih⟩

@[simp] theorem unbroken_commaList (ns : List Int) : Unbroken (commaList ns).toList :=
  unbroken_showInts (unbroken_of_all (by decide)) ns

/-! ## Gates -/

/-- A gate of a circuit text: its number, its word, and its operands with their signs. -/
structure Gate where
  id : Id
  word : String
  operands : List Int
deriving DecidableEq

namespace Gate

/-- The line of a gate. -/
def line (g : Gate) : String :=
  gateLine g.id g.word g.operands

/-- Read the line of a gate. -/
def read? (line : List Char) : Option Gate := do
  let (name, word, inner) <- gateParts? line
  let id <- Text.readInt? name.toList
  let operands <- (items inner).mapM Text.readInt?
  return ⟨id, word, operands⟩

/-- The number is not negative and the word is a word, as they have to be for the line to be
read. -/
structure Legible (g : Gate) : Prop where
  nonneg : (0 : Int) ≤ g.id
  word_ne : g.word ≠ ""
  letters : ∀ c ∈ g.word.toList, c.isAlpha = true

theorem toList_line (g : Gate) : g.line.toList = (Text.showInt g.id).toList ++ ' ' :: '=' :: ' ' ::
    (g.word.toList ++ '(' :: ((commaList g.operands).toList ++ [')'])) := by
  simp [line, gateLine, String.toList_append]

/-- A run of characters that ends where the next character is of another class. -/
theorem run?_append {class? : Char → Bool} {run : List Char} (hne : run ≠ [])
    (hrun : ∀ c ∈ run, class? c = true) {stop : Char} (hstop : class? stop = false)
    (rest : List Char) : run? class? (run ++ stop :: rest) = some (run, stop :: rest) := by
  have htake : (run ++ stop :: rest).takeWhile class? = run := by
    rw [List.takeWhile_append_of_pos hrun, List.takeWhile_cons_of_neg (by simp [hstop]),
      List.append_nil]
  have hdrop : (run ++ stop :: rest).dropWhile class? = stop :: rest := by
    rw [List.dropWhile_append_of_pos hrun, List.dropWhile_cons_of_neg (by simp [hstop])]
  unfold run?
  rw [htake, hdrop]
  cases run with
  | nil => exact absurd rfl hne
  | cons c run => rfl

theorem spaces?_cons {c : Char} (h : c ≠ ' ') (rest : List Char) :
    spaces? (' ' :: c :: rest) = some (c :: rest) := by
  simp [spaces?, h]

theorem beforeLastBracket?_append (inner : List Char) :
    beforeLastBracket? (inner ++ [')']) = some inner := by
  simp [beforeLastBracket?]

theorem isNameChar_of_isDigit {c : Char} (h : c.isDigit = true) : isNameChar c = true := by
  simp [isNameChar, Char.isAlphanum, h]

/-- The parts of a line, whatever stands between the brackets. -/
theorem gateParts?_bracketed {g : Gate} (h : g.Legible) (inner : List Char) :
    gateParts? ((Text.showInt g.id).toList ++ ' ' :: '=' :: ' ' ::
      (g.word.toList ++ '(' :: (inner ++ [')']))) = some (Text.showInt g.id, g.word, inner) := by
  have hname : ∀ c ∈ (Text.showInt g.id).toList, isNameChar c = true := fun c hc =>
    isNameChar_of_isDigit (Text.isDigit_of_mem_showInt h.nonneg hc)
  have hword : g.word.toList ≠ [] := by simpa using h.word_ne
  obtain ⟨first, others, hletters⟩ := List.exists_cons_of_ne_nil hword
  have hspace : first ≠ ' ' := by
    rintro rfl
    have := h.letters ' ' (hletters ▸ List.mem_cons_self)
    cases this
  rw [gateParts?, run?_append (Text.showInt_ne_nil g.id) hname (by decide)]
  simp only [Option.bind_eq_bind, Option.bind_some]
  rw [spaces?_cons (by decide)]
  simp only [Option.bind_some]
  rw [hletters, List.cons_append, spaces?_cons hspace, ← List.cons_append, ← hletters]
  simp only [Option.bind_some]
  rw [run?_append hword h.letters (by decide)]
  simp only [Option.bind_some]
  rw [beforeLastBracket?_append]
  simp

theorem gateParts?_line {g : Gate} (h : g.Legible) :
    gateParts? g.line.toList =
      some (Text.showInt g.id, g.word, (commaList g.operands).toList) := by
  rw [toList_line, gateParts?_bracketed h]

/-- The line of a gate is read as the gate. -/
theorem read?_line {g : Gate} (h : g.Legible) : read? g.line.toList = some g := by
  simp [read?, gateParts?_line h, Text.readInt?_showInt, mapM_readInt?_items]

theorem unbroken_line {g : Gate} (h : g.Legible) : Unbroken g.line.toList := by
  rw [toList_line]
  simp only [unbroken_append, unbroken_showInt, unbroken_cons, unbroken_of_letters h.letters,
    unbroken_commaList, unbroken_nil]
  decide

end Gate

/-- The gates that a circuit text defines, in the order of their lines. -/
def gatesIn (text : String) : List Gate :=
  linesRead Gate.read? text

/-- Gate lines as they are written. -/
def renderGates (gates : List Gate) : String :=
  String.join (gates.map fun g => g.line ++ "\n")

theorem renderGates_cons (g : Gate) (gates : List Gate) :
    renderGates (g :: gates) = g.line ++ "\n" ++ renderGates gates := by
  rw [renderGates, List.map_cons, String.join_cons]
  rfl

theorem gatesIn_renderGates {gates : List Gate} (h : ∀ g ∈ gates, g.Legible) :
    gatesIn (renderGates gates) = gates :=
  linesRead_join fun g hg =>
    ⟨(Gate.unbroken_line (h g hg)).newline_not_mem, Gate.read?_line (h g hg)⟩

/-! ## Quantifier lines and the output line -/

/-- A quantifier line without its line break. Without literals it loses its bracket and the
last letter of its word. -/
def markedText (mark : Attribute) (ns : List Int) : List Char :=
  if ns = [] then mark.word.toList.dropLast ++ [')']
  else mark.word.toList ++ '(' :: ((commaList ns).toList ++ [')'])

theorem toList_join_literals {ns : List Int} (h : ns ≠ []) :
    (String.join (ns.map fun n => Text.showInt n ++ ", ")).toList =
      (commaList ns).toList ++ [',', ' '] := by
  induction ns with
  | nil => exact absurd rfl h
  | cons n ns ih =>
      rw [List.map_cons, String.join_cons, String.toList_append]
      cases ns with
      | nil => simp [commaList, Text.showInts, String.toList_append]
      | cons m ns =>
          rw [ih (List.cons_ne_nil m ns), toList_commaList_cons]
          simp [String.toList_append]

theorem toList_dropTwo {text : String} {kept : List Char} {c d : Char}
    (h : text.toList = kept ++ [c, d]) : (Formula.dropTwo text).toList = kept := by
  have hlength : text.length - 2 = kept.length := by
    rw [← String.length_toList, h]
    simp
  rw [Formula.dropTwo, String.toList_ofList, h, hlength, List.take_left]

theorem word_ne_nil (mark : Attribute) : mark.word.toList ≠ [] := by
  rcases mark with (_ | _) | (_ | _ | _ | _ | _ | _) <;> decide

/-- What the quantifier line of a marked block looks like. -/
theorem toList_markedLine {φ : Formula} {mark : Attribute} {body : List Id} {line : String}
    (h : φ.markedLine mark body = .ok line) :
    ∃ ns, φ.literals φ.nestingBound body = .ok ns ∧
      line = String.ofList (markedText mark ns) ++ "\n" := by
  obtain ⟨text, htext, h⟩ := exists_ok_of_bind h
  obtain ⟨ns, hns, rfl⟩ := Formula.literalText_eq_ok_iff.mp htext
  cases h
  refine ⟨ns, hns, String.toList_injective ?_⟩
  rw [String.toList_append, String.toList_append, String.toList_ofList]
  by_cases hnil : ns = []
  · have hword : (mark.word ++ "(" ++ Formula.literalList ns).toList =
        mark.word.toList.dropLast ++ [mark.word.toList.getLast (word_ne_nil mark), '('] := by
      rw [hnil, List.append_cons, List.dropLast_concat_getLast]
      simp [Formula.literalList, String.toList_append]
    rw [toList_dropTwo hword, markedText, if_pos hnil]
    simp
  · have hword : (mark.word ++ "(" ++ Formula.literalList ns).toList =
        (mark.word.toList ++ '(' :: (commaList ns).toList) ++ [',', ' '] := by
      simp [Formula.literalList, String.toList_append, toList_join_literals hnil]
    rw [toList_dropTwo hword, markedText, if_neg hnil]
    simp

theorem unbroken_markedText (mark : Attribute) (ns : List Int) : Unbroken (markedText mark ns) := by
  have hword : Unbroken mark.word.toList := by
    rcases mark with (_ | _) | (_ | _ | _ | _ | _ | _) <;> exact unbroken_of_all (by decide)
  have hshort : Unbroken mark.word.toList.dropLast := fun c hc =>
    hword c (List.dropLast_subset _ hc)
  unfold markedText
  split
  · simp only [unbroken_append, unbroken_cons, unbroken_nil, hshort]
    decide
  · simp only [unbroken_append, unbroken_cons, unbroken_nil, hword, unbroken_commaList]
    decide

/-- A reader to which no quantifier line means anything. -/
def SkipsQuantifiers {α : Type} (read : List Char → Option α) : Prop :=
  ∀ mark ns, read (markedText mark ns) = none

theorem silent_quantifierLines {α : Type} {read : List Char → Option α}
    (hread : SkipsQuantifiers read) {φ : Formula} {fuel : Nat} {b : Block} {lines : String}
    (h : φ.quantifierLines fuel b = .ok lines) : Silent read lines := by
  induction fuel generalizing b lines with
  | zero => cases h
  | succ fuel ih =>
      unfold Formula.quantifierLines at h
      cases hmark : b.mark with
      | some mark =>
          rw [hmark] at h
          obtain ⟨ns, -, rfl⟩ := toList_markedLine h
          refine silent_line ?_ ?_
          · rw [String.toList_ofList]
            exact (unbroken_markedText mark ns).newline_not_mem
          · rw [String.toList_ofList]
            exact hread mark ns
      | none =>
          rw [hmark] at h
          obtain ⟨parts, hparts, h⟩ := exists_ok_of_bind h
          cases h
          refine silent_join fun part hpart => ?_
          obtain ⟨brick, -, hbrick⟩ := exists_of_mem_mapM hparts hpart
          split at hbrick
          · cases hbrick
          · exact ih hbrick

/-- A line whose first word is not followed by a space defines no gate. -/
theorem gateParts?_eq_none {name : List Char} (hname : ∀ c ∈ name, isNameChar c = true)
    {stop : Char} (hstop : isNameChar stop = false) (hspace : stop ≠ ' ') (rest : List Char) :
    gateParts? (name ++ stop :: rest) = none := by
  unfold gateParts?
  cases name with
  | nil => simp [run?, hstop]
  | cons c name =>
      rw [Gate.run?_append (List.cons_ne_nil c name) hname hstop]
      simp [spaces?, hspace]

theorem Gate.read?_eq_none {name : List Char} (hname : ∀ c ∈ name, isNameChar c = true) {stop : Char}
    (hstop : isNameChar stop = false) (hspace : stop ≠ ' ') (rest : List Char) :
    Gate.read? (name ++ stop :: rest) = none := by
  simp [Gate.read?, gateParts?_eq_none hname hstop hspace]

theorem read?_markedText : SkipsQuantifiers Gate.read? := by
  intro mark ns
  have hall : mark.word.toList.all isNameChar = true := by
    rcases mark with (_ | _) | (_ | _ | _ | _ | _ | _) <;> decide
  have hword := List.all_eq_true.mp hall
  unfold markedText
  split
  · exact Gate.read?_eq_none (fun c hc => hword c (List.dropLast_subset _ hc)) (by decide)
      (by decide) []
  · exact Gate.read?_eq_none hword (by decide) (by decide) _

/-- Read the line that names the output. -/
def outputNumber? (line : List Char) : Option Int :=
  (Text.dropStart? "output(".toList line).bind fun inner => Text.readInt? inner.dropLast

/-- The numbers that a circuit text names as outputs. -/
def outputsIn (text : String) : List Int :=
  linesRead outputNumber? text

theorem outputNumber?_markedText : SkipsQuantifiers outputNumber? := by
  intro mark ns
  unfold markedText
  split <;> rcases mark with (_ | _) | (_ | _ | _ | _ | _ | _) <;> rfl

theorem silent_renderGates {gates : List Gate} (h : ∀ g ∈ gates, g.Legible) :
    Silent outputNumber? (renderGates gates) := by
  refine silent_join fun part hpart => ?_
  obtain ⟨g, hg, rfl⟩ := List.mem_map.mp hpart
  refine silent_line (Gate.unbroken_line (h g hg)).newline_not_mem ?_
  -- The line begins with a digit.
  obtain ⟨c, rest, hdigits⟩ := List.exists_cons_of_ne_nil (Text.showInt_ne_nil g.id)
  have hne : 'o' ≠ c := by
    rintro rfl
    exact Text.not_mem_showInt (by decide) (by decide) g.id (hdigits ▸ List.mem_cons_self)
  have hstart : "output(".toList = 'o' :: "utput(".toList := by decide
  rw [Gate.toList_line, hdigits, List.cons_append, outputNumber?, hstart, Text.dropStart?,
    if_neg hne, Option.bind_none]

theorem silent_circuitHeader {α : Type} {read : List Char → Option α}
    (h : read "#QCIR-G14".toList = none) : Silent read circuitHeader := by
  have hheader : circuitHeader = "#QCIR-G14" ++ "\n" := by decide
  rw [hheader]
  exact silent_line (by decide) h

theorem outputLine_eq (matrix : Id) :
    outputLine (Text.showInt matrix) = "output(" ++ Text.showInt matrix ++ ")" ++ "\n" := by
  have hend : ")\n" = ")" ++ "\n" := by decide
  rw [outputLine, hend, String.append_assoc, String.append_assoc, String.append_assoc]

theorem toList_outputLine (matrix : Id) :
    ("output(" ++ Text.showInt matrix ++ ")").toList =
      "output".toList ++ '(' :: ((Text.showInt matrix).toList ++ [')']) := by
  simp [String.toList_append]

theorem unbroken_outputLine (matrix : Id) :
    Unbroken ("output(" ++ Text.showInt matrix ++ ")").toList := by
  have hword : Unbroken "output".toList := unbroken_of_all (by decide)
  rw [toList_outputLine]
  simp only [unbroken_append, unbroken_cons, unbroken_nil, unbroken_showInt, hword]
  decide

theorem outputNumber?_outputLine (matrix : Id) :
    outputNumber? ("output(" ++ Text.showInt matrix ++ ")").toList = some matrix := by
  have hdrop : ((Text.showInt matrix).toList ++ [')']).dropLast = (Text.showInt matrix).toList :=
    List.dropLast_concat
  rw [toList_outputLine]
  change Text.readInt? ((Text.showInt matrix).toList ++ [')']).dropLast = some matrix
  rw [hdrop, Text.readInt?_showInt]

/-- There are no gates before the output line. -/
theorem gatesIn_heading {φ : Formula} {fuel : Nat} {b : Block} {lines : String}
    (hlines : φ.quantifierLines fuel b = .ok lines) : gatesIn (circuitHeader ++ lines) = [] := by
  have hsilent : Silent Gate.read? (circuitHeader ++ lines) :=
    (silent_circuitHeader rfl).append (silent_quantifierLines read?_markedText hlines)
  rw [gatesIn, ← String.append_empty (s := circuitHeader ++ lines), hsilent]
  rfl

/-- A circuit text says what was put into it: the quantifier lines define no gates, the output
line names the output, and the gate lines define the gates. -/
theorem circuit_text_read {φ : Formula} {fuel : Nat} {b : Block} {lines : String}
    (hlines : φ.quantifierLines fuel b = .ok lines) (matrix : Id) {gates : List Gate}
    (h : ∀ g ∈ gates, g.Legible) :
    let text := circuitHeader ++ lines ++ outputLine (Text.showInt matrix) ++ renderGates gates
    gatesIn text = gates ∧ outputsIn text = [matrix] := by
  intro text
  have houtput : ∀ c ∈ "output".toList, isNameChar c = true := List.all_eq_true.mp (by decide)
  have htext : text = circuitHeader ++ (lines ++
      (("output(" ++ Text.showInt matrix ++ ")") ++ "\n" ++ renderGates gates)) := by
    simp only [text, outputLine_eq, String.append_assoc]
  constructor
  · rw [htext, gatesIn, silent_circuitHeader rfl,
      silent_quantifierLines read?_markedText hlines,
      linesRead_line_append (unbroken_outputLine matrix).newline_not_mem, toList_outputLine,
      Gate.read?_eq_none houtput (by decide) (by decide)]
    exact gatesIn_renderGates h
  · rw [htext, outputsIn, silent_circuitHeader rfl,
      silent_quantifierLines outputNumber?_markedText hlines,
      linesRead_line_append (unbroken_outputLine matrix).newline_not_mem, outputNumber?_outputLine,
      ← String.append_empty (s := renderGates gates), silent_renderGates h]
    rfl

end QuantFamily
