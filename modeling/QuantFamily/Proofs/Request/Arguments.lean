import Mathlib.Data.List.Infix
import Mathlib.Data.List.Induction
import QuantFamily.CommandLine
import QuantFamily.Proofs.Session.Calculus

/-!
# What arguments describe

Options are read from left to right, and one output option at a time waits for its destination. It
gets the first argument behind it that is no option, or the screen if another output option or the
end comes first; the flags in between do not count. So the outputs can be read off the arguments
without going through them step by step, and the arguments that cannot be read are those with a
destination that no option waits for, and those that ask for nothing.
-/

namespace QuantFamily.Request

/-! ## Kinds of arguments -/

/-- An argument that asks for an output. -/
def isOutputOption (argument : String) : Bool :=
  (OutputForm.ofOption? argument).isSome

/-- An argument that is none of the options. -/
def isDestination (argument : String) : Bool :=
  !isOutputOption argument && decide (argument ≠ "-internal") && decide (argument ≠ "-verbose")

/-- An argument that says nothing about outputs and destinations. -/
def isFlag (argument : String) : Bool :=
  !isOutputOption argument && !isDestination argument

theorem isFlag_iff {argument : String} :
    isFlag argument = true ↔ argument = "-internal" ∨ argument = "-verbose" := by
  constructor
  · intro h
    by_contra hother
    rw [not_or] at hother
    simp [isFlag, isDestination, hother.1, hother.2] at h
  · rintro (rfl | rfl) <;> decide

theorem isDestination_iff {argument : String} :
    isDestination argument = true ↔ OutputForm.ofOption? argument = none ∧
      argument ≠ "-internal" ∧ argument ≠ "-verbose" := by
  simp [isDestination, isOutputOption, and_assoc]

theorem not_option_of_isFlag {argument : String} (h : isFlag argument = true) :
    OutputForm.ofOption? argument = none ∧ isDestination argument = false := by
  simpa [isFlag, isOutputOption] using h

theorem not_flag_of_option {argument : String} {form : OutputForm}
    (h : OutputForm.ofOption? argument = some form) :
    isOutputOption argument = true ∧ argument ≠ "-internal" ∧ argument ≠ "-verbose" := by
  refine ⟨by rw [isOutputOption, h, Option.isSome_some], ?_, ?_⟩ <;>
    · rintro rfl
      cases h

/-- Every argument is an output option, a destination or a flag. -/
theorem argument_cases (argument : String) :
    (∃ form, OutputForm.ofOption? argument = some form) ∨ isDestination argument = true ∨
      isFlag argument = true := by
  cases hform : OutputForm.ofOption? argument with
  | some form => exact Or.inl ⟨form, rfl⟩
  | none =>
      refine Or.inr ?_
      cases hdestination : isDestination argument with
      | true => exact Or.inl rfl
      | false => exact Or.inr (by simp [isFlag, isOutputOption, hform, hdestination])

/-! ## One argument -/

section Steps

variable {request : Request} {waiting : Option OutputForm} {argument : String}
  {rest : List String}

/-- What a flag changes. -/
def raise (request : Request) (argument : String) : Request :=
  { request with
    listed := request.listed || decide (argument = "-internal")
    verbose := request.verbose || decide (argument = "-verbose") }

theorem addOptions_option {form : OutputForm} (h : OutputForm.ofOption? argument = some form) :
    request.addOptions waiting (argument :: rest) =
      (request.settle waiting).addOptions (some form) rest := by
  simp [addOptions, not_flag_of_option h, h]

theorem addOptions_destination {form : OutputForm} (h : isDestination argument = true) :
    request.addOptions (some form) (argument :: rest) =
      { request with outputs := request.outputs ++ [(form, argument)] }.addOptions none rest := by
  simp [addOptions, isDestination_iff.mp h]

theorem addOptions_stray (h : isDestination argument = true) :
    request.addOptions none (argument :: rest) = .error (.strayArgument argument) := by
  simp [addOptions, isDestination_iff.mp h]

theorem addOptions_flag (h : isFlag argument = true) :
    request.addOptions waiting (argument :: rest) =
      (request.raise argument).addOptions waiting rest := by
  rcases isFlag_iff.mp h with rfl | rfl <;> simp [addOptions, raise]

end Steps

/-! ## What all arguments add -/

/-- The destination that the arguments behind an output option give it. -/
def destinationFrom (rest : List String) : String :=
  ((rest.takeWhile fun argument => !isOutputOption argument).find? isDestination).getD screen

/-- The output that the first of some arguments asks for. -/
def outputAt? : List String → Option (OutputForm × String)
  | [] => none
  | argument :: rest =>
      (OutputForm.ofOption? argument).map fun form => (form, destinationFrom rest)

/-- A request with all that arguments add to it, when an option may wait before them. -/
def described (request : Request) (waiting : Option OutputForm) (rest : List String) : Request :=
  { request with
    listed := request.listed || rest.contains "-internal"
    verbose := request.verbose || rest.contains "-verbose"
    outputs := request.outputs ++ ((waiting.map fun form => (form, destinationFrom rest)).toList ++
      rest.tails.filterMap outputAt?) }

section Described

variable {request added : Request} {waiting : Option OutputForm} {argument : String}
  {rest : List String}

theorem described_nil : request.described waiting [] = request.settle waiting := by
  cases waiting <;> simp [described, settle, outputAt?, destinationFrom, List.filterMap_cons]

theorem described_option {form : OutputForm} (h : OutputForm.ofOption? argument = some form) :
    request.described waiting (argument :: rest) =
      (request.settle waiting).described (some form) rest := by
  obtain ⟨hoption, hinternal, hverbose⟩ := not_flag_of_option h
  cases waiting <;>
    simp [described, settle, outputAt?, destinationFrom, hoption, h, hinternal.symm, hverbose.symm]

theorem described_destination {form : OutputForm} (h : isDestination argument = true) :
    request.described (some form) (argument :: rest) =
      { request with outputs := request.outputs ++ [(form, argument)] }.described none rest := by
  obtain ⟨hnone, hinternal, hverbose⟩ := isDestination_iff.mp h
  simp [described, outputAt?, destinationFrom, isOutputOption, hnone, h, hinternal.symm,
    hverbose.symm]

theorem described_flag (h : isFlag argument = true) :
    request.described waiting (argument :: rest) =
      (request.raise argument).described waiting rest := by
  obtain ⟨hnone, hdestination⟩ := not_option_of_isFlag h
  simp [described, raise, outputAt?, destinationFrom, isOutputOption, hnone, hdestination,
    Bool.or_assoc, eq_comm]

/-- Arguments that can be read add to a request what they describe. -/
theorem eq_described (h : request.addOptions waiting rest = .ok added) :
    added = request.described waiting rest := by
  induction rest generalizing request waiting with
  | nil =>
      rw [addOptions] at h
      rw [described_nil, Except.ok.inj h]
  | cons argument rest ih =>
      rcases argument_cases argument with ⟨form, hform⟩ | hdestination | hflag
      · rw [addOptions_option hform] at h
        rw [described_option hform, ih h]
      · cases waiting with
        | none =>
            rw [addOptions_stray hdestination] at h
            cases h
        | some form =>
            rw [addOptions_destination hdestination] at h
            rw [described_destination hdestination, ih h]
      · rw [addOptions_flag hflag] at h
        rw [described_flag hflag, ih h]

end Described

/-! ## Arguments that can be read -/

/-- After some arguments an output option waits for its destination: there are only flags behind
it. -/
def Waits (before : List String) : Prop :=
  ∃ earlier option between, before = earlier ++ option :: between ∧
    isOutputOption option = true ∧ ∀ argument ∈ between, isFlag argument = true

theorem waits_concat {before : List String} {argument : String} :
    Waits (before ++ [argument]) ↔
      isOutputOption argument = true ∨ isFlag argument = true ∧ Waits before := by
  constructor
  · rintro ⟨earlier, option, between, hbefore, hoption, hflags⟩
    rcases List.eq_nil_or_concat between with rfl | ⟨front, last, rfl⟩
    · obtain ⟨-, hlast⟩ := List.append_inj' hbefore rfl
      rw [List.cons.injEq] at hlast
      exact Or.inl (hlast.1 ▸ hoption)
    · rw [List.concat_eq_append] at hbefore hflags
      rw [← List.cons_append, ← List.append_assoc] at hbefore
      obtain ⟨hfront, hlast⟩ := List.append_inj' hbefore rfl
      rw [List.cons.injEq] at hlast
      refine Or.inr ⟨hlast.1 ▸ hflags last (by simp), earlier, option, front, hfront, hoption, ?_⟩
      exact fun a ha => hflags a (List.mem_append_left _ ha)
  · rintro (hoption | ⟨hflag, earlier, option, between, rfl, hoption, hflags⟩)
    · exact ⟨before, argument, [], rfl, hoption, by simp⟩
    · refine ⟨earlier, option, between ++ [argument], by simp, hoption, fun a ha => ?_⟩
      rcases List.mem_append.mp ha with ha | ha
      · exact hflags a ha
      · exact List.mem_singleton.mp ha ▸ hflag

theorem not_waits_nil : ¬ Waits [] := by
  rintro ⟨earlier, option, between, h, -⟩
  simp at h

/-- Every destination among the arguments is one that an option waits for, if the arguments stand
behind some others. -/
def Served (before rest : List String) : Prop :=
  ∀ middle destination after, rest = middle ++ destination :: after →
    isDestination destination = true → Waits (before ++ middle)

theorem served_cons {before rest : List String} {argument : String} :
    Served before (argument :: rest) ↔
      (isDestination argument = true → Waits before) ∧ Served (before ++ [argument]) rest := by
  constructor
  · intro h
    refine ⟨fun hdestination => ?_, fun middle destination after hrest hdestination => ?_⟩
    · simpa using h [] argument rest rfl hdestination
    · have hwaits := h (argument :: middle) destination after (by rw [hrest]; rfl) hdestination
      rwa [List.append_assoc]
  · rintro ⟨hfirst, hserved⟩ middle destination after hrest hdestination
    cases middle with
    | nil =>
        obtain ⟨rfl, -⟩ := List.cons.inj hrest
        simpa using hfirst hdestination
    | cons first middle =>
        obtain ⟨rfl, htail⟩ := List.cons.inj hrest
        have hwaits := hserved middle destination after htail hdestination
        rwa [List.append_assoc] at hwaits

/-- The option that waits is known from the arguments before, so arguments can be read exactly if
every destination among them is waited for. -/
theorem addOptions_ok_iff {request : Request} {waiting : Option OutputForm}
    {before rest : List String} (hwaiting : waiting.isSome = true ↔ Waits before) :
    (∃ added, request.addOptions waiting rest = .ok added) ↔ Served before rest := by
  induction rest generalizing request waiting before with
  | nil =>
      rw [addOptions]
      exact iff_of_true ⟨_, rfl⟩ fun middle destination after h => by simp at h
  | cons argument rest ih =>
      rw [served_cons]
      rcases argument_cases argument with ⟨form, hform⟩ | hdestination | hflag
      · have hoption := (not_flag_of_option hform).1
        have hno : isDestination argument = false := by simp [isDestination, hoption]
        have hwaits : Waits (before ++ [argument]) := waits_concat.mpr (Or.inl hoption)
        rw [addOptions_option hform, ih (iff_of_true rfl hwaits), hno]
        simp
      · have hno : ¬ Waits (before ++ [argument]) := by
          rw [waits_concat, isOutputOption, (isDestination_iff.mp hdestination).1, isFlag,
            hdestination]
          simp
        cases waiting with
        | none =>
            rw [addOptions_stray hdestination]
            refine iff_of_false (by simp) fun h => ?_
            exact absurd (hwaiting.mpr (h.1 hdestination)) (by simp)
        | some form =>
            rw [addOptions_destination hdestination, ih (iff_of_false (by simp) hno)]
            exact (and_iff_right fun _ => hwaiting.mp rfl).symm
      · obtain ⟨hnone, hno⟩ := not_option_of_isFlag hflag
        have hkept : waiting.isSome = true ↔ Waits (before ++ [argument]) := by
          rw [waits_concat, isOutputOption, hnone, hwaiting]
          simp [hflag]
        rw [addOptions_flag hflag, ih hkept, hno]
        simp

theorem exists_output_iff {options : List String} :
    options.tails.filterMap outputAt? ≠ [] ↔
      ∃ argument ∈ options, isOutputOption argument = true := by
  induction options with
  | nil => simp [outputAt?]
  | cons argument rest ih =>
      rw [List.tails_cons, List.exists_mem_cons_iff, ← ih, isOutputOption]
      cases hform : OutputForm.ofOption? argument with
      | none => simp [outputAt?, hform]
      | some form => simp [outputAt?, hform]

theorem ofArguments_cons {definition values : String} {options : List String} {request : Request} :
    ofArguments (definition :: values :: options) = .ok request ↔
      ({ definition, values } : Request).addOptions none options = .ok request ∧
        (request.outputs ≠ [] ∨ request.listed = true) := by
  have hcheck : ∀ added : Request,
      (added.outputs.isEmpty && !added.listed) = true ↔
        ¬ (added.outputs ≠ [] ∨ added.listed = true) := by
    intro added
    cases added.listed <;> simp
  unfold ofArguments
  dsimp only
  constructor
  · intro h
    obtain ⟨added, hadded, h⟩ := exists_ok_of_bind h
    split at h
    · cases h
    · rename_i hasked
      cases h
      exact ⟨hadded, not_not.mp (mt (hcheck _).mpr hasked)⟩
  · rintro ⟨hadded, hasked⟩
    rw [hadded]
    change (if (request.outputs.isEmpty && !request.listed) = true then _ else _) = _
    rw [if_neg fun h => (hcheck _).mp h hasked]
    rfl

/-- Arguments are read exactly if every one behind the two file names that is no option is the first
such argument behind an output option, with no other output option in between, and if they ask for
an output or for the listing. Then there is one output for each output option, in their order. It
goes to the first argument before the next output option that is no option, and to the screen if
there is none. The two flags may stand anywhere. -/
theorem ofArguments_eq_ok_iff {definition values : String} {options : List String}
    {request : Request} :
    ofArguments (definition :: values :: options) = .ok request ↔
      (∀ before destination after, options = before ++ destination :: after →
        isDestination destination = true →
          ∃ earlier option between, before = earlier ++ option :: between ∧
            isOutputOption option = true ∧ ∀ argument ∈ between, isFlag argument = true) ∧
      (∃ argument ∈ options, isOutputOption argument = true ∨ argument = "-internal") ∧
      request = {
        definition, values
        verbose := options.contains "-verbose"
        listed := options.contains "-internal"
        outputs := options.tails.filterMap outputAt? } := by
  have hserved : (∃ added, ({ definition, values } : Request).addOptions none options =
      .ok added) ↔ Served [] options :=
    addOptions_ok_iff (iff_of_false (by simp) not_waits_nil)
  have hdescribed : ({ definition, values } : Request).described none options = {
      definition, values
      verbose := options.contains "-verbose"
      listed := options.contains "-internal"
      outputs := options.tails.filterMap outputAt? } := by
    simp [described]
  have hasked : (options.tails.filterMap outputAt? ≠ [] ∨ options.contains "-internal" = true) ↔
      ∃ argument ∈ options, isOutputOption argument = true ∨ argument = "-internal" := by
    rw [exists_output_iff, List.contains_iff_mem]
    simp only [and_or_left, exists_or, exists_eq_right]
  rw [ofArguments_cons]
  constructor
  · rintro ⟨hadded, houtput⟩
    obtain rfl := (eq_described hadded).trans hdescribed
    exact ⟨hserved.mp ⟨_, hadded⟩, hasked.mp houtput, rfl⟩
  · rintro ⟨served, asked, rfl⟩
    obtain ⟨added, hadded⟩ := hserved.mpr served
    rw [(eq_described hadded).trans hdescribed] at hadded
    exact ⟨hadded, hasked.mpr asked⟩

example :
    (ofArguments ["d", "v", "-QCIR", "-verbose", "a.qcir", "-QDIMACS", "-non-prenex-QCIR", ""]).map
      outputs = .ok [(.circuit, "a.qcir"), (.clauses, "-stdIO"), (.nestedCircuit, "")] := by
  decide

end QuantFamily.Request
