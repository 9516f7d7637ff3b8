import QuantFamily.Proofs.Circuit.Clauses
import QuantFamily.Proofs.Circuit.Layout
import QuantFamily.Proofs.Circuit.Sheet

/-!
# Clauses under quantifiers

The clauses that are written for a circuit have further variables, the numbers of the gates. These
are quantified innermost and existentially, so a prefix over the clauses is as true as the same
prefix over the circuit: whatever the other variables are, there is one choice for the gates, and
with it the clauses are as true as the circuit.
-/

namespace QuantFamily.Circuit

/-- The second assignment differs from the first one in some variables at most. -/
def AgreeOff (vars : List Int) (α β : Id → Bool) : Prop :=
  ∀ v, v ∉ vars → β v = α v

/-- The truth of a statement about assignments under quantifier blocks. A variable that is bound
again is bound by the inner block. -/
def Holds : List Scope → ((Id → Bool) → Prop) → (Id → Bool) → Prop
  | [], P, α => P α
  | scope :: rest, P, α =>
      match scope.binder with
      | .exists => ∃ β, AgreeOff scope.vars α β ∧ Holds rest P β
      | .forall => ∀ β, AgreeOff scope.vars α β → Holds rest P β
      | _ => Holds rest P α

def ClausesHold (clauses : List (List Int)) (α : Id → Bool) : Prop :=
  ∀ clause ∈ clauses, ∃ n ∈ clause, literalValue α n = true

/-! ## Prefixes -/

theorem agreeOff_append {vars gates : List Int} {α γ : Id → Bool} :
    AgreeOff (vars ++ gates) α γ ↔ ∃ β, AgreeOff vars α β ∧ AgreeOff gates β γ := by
  constructor
  · intro h
    refine ⟨fun v => if v ∈ vars then γ v else α v, fun v hv => if_neg hv, fun v hv => ?_⟩
    by_cases hvars : v ∈ vars
    · exact (if_pos hvars).symm
    · exact (h v (by simp [hvars, hv])).trans (if_neg hvars).symm
  · rintro ⟨β, hβ, hγ⟩ v hv
    rw [List.mem_append, not_or] at hv
    rw [hγ v hv.2, hβ v hv.1]

/-- If the gates, quantified existentially, turn `Q` into `P`, then a prefix with the gates over
`Q` is as true as the prefix over `P`. -/
theorem holds_withGates {gates : List Int} {scopes written : List Scope}
    {P Q : (Id → Bool) → Prop} (hne : scopes ≠ []) (h : withGates gates scopes = .ok written)
    (hPQ : ∀ α, (∃ β, AgreeOff gates α β ∧ Q β) ↔ P α) (α : Id → Bool) :
    Holds written Q α ↔ Holds scopes P α := by
  induction scopes generalizing written α with
  | nil => exact absurd rfl hne
  | cons scope rest ih =>
      obtain ⟨binder, vars⟩ := scope
      cases rest with
      | nil =>
          cases binder with
          | «exists» =>
              cases h
              simp only [Holds, agreeOff_append, ← hPQ]
              grind
          | «forall» =>
              cases h
              simp only [Holds, hPQ]
          | free => cases h
          | unknown word => cases h
      | cons next rest =>
          rw [withGates] at h
          · obtain ⟨inner, hinner, h⟩ := exists_ok_of_bind h
            cases h
            have hrest := ih (by simp) hinner
            cases binder <;> simp only [Holds, hrest]
          · simp

theorem vars_withGates {gates : List Int} {scopes written : List Scope} (hne : scopes ≠ [])
    (h : withGates gates scopes = .ok written) :
    written.flatMap Scope.vars = scopes.flatMap Scope.vars ++ gates := by
  induction scopes generalizing written with
  | nil => exact absurd rfl hne
  | cons scope rest ih =>
      obtain ⟨binder, vars⟩ := scope
      cases rest with
      | nil =>
          cases binder <;> cases h
          · simp
          · simp
      | cons next rest =>
          rw [withGates] at h
          · obtain ⟨inner, hinner, h⟩ := exists_ok_of_bind h
            cases h
            simp [ih (by simp) hinner]
          · simp

theorem mem_of_withGates {gates : List Int} {scopes written : List Scope} {v : Int}
    (h : withGates gates scopes = .ok written) (hv : v ∈ written.flatMap Scope.vars) :
    v ∈ scopes.flatMap Scope.vars ++ gates := by
  by_cases hne : scopes = []
  · subst hne
    rw [← Except.ok.inj h] at hv
    cases hv
  · rwa [vars_withGates hne h] at hv

/-! ## Numbers of entries -/

/-- The truth values that an assignment gives to circuits by their numbers. -/
def gateValue (numbers : Table Circuit Int) (α : Id → Bool) (c : Circuit) : Bool :=
  (numbers.get? c).elim false (literalValue α)

/-- What stands in the clauses: a part of the circuit, or the negation of one. -/
def IsEntry (c entry : Circuit) : Prop :=
  ∃ d ∈ c.parts, entry = d ∨ entry = d.negate

theorem IsEntry.part {c d : Circuit} (h : d ∈ c.parts) : IsEntry c d :=
  ⟨d, h, Or.inl rfl⟩

theorem negate_negate {c : Circuit} (h : c.isPlain = true) : c.negate.negate = c := by
  cases c with
  | lit n => simp [negate]
  | neg d => rw [negate, negate_of_isGate h]
  | const b => cases h
  | other name args => cases h
  | _ => rfl

theorem IsEntry.negate {c entry : Circuit} (plain : c.Plain) (h : IsEntry c entry) :
    IsEntry c entry.negate := by
  obtain ⟨d, hd, rfl | rfl⟩ := h
  · exact ⟨entry, hd, Or.inr rfl⟩
  · exact ⟨d, hd, Or.inl (negate_negate (plain d hd))⟩

theorem isEntry_of_mem_choiceClauses {c v d t e entry : Circuit} {clause : List Circuit}
    (plain : c.Plain) (h : ∀ x ∈ [v, d, t, e], IsEntry c x) (hclause : clause ∈ choiceClauses v d t e)
    (hentry : entry ∈ clause) : IsEntry c entry := by
  have hneg : ∀ x ∈ [v, d, t, e], IsEntry c x.negate := fun x hx => (h x hx).negate plain
  simp only [List.forall_mem_cons, List.not_mem_nil, false_imp_iff, implies_true, and_true] at h hneg
  simp only [choiceClauses, List.mem_cons, List.not_mem_nil, or_false] at hclause
  rcases hclause with rfl | rfl | rfl | rfl <;>
    simp only [List.mem_cons, List.not_mem_nil, or_false] at hentry <;>
    rcases hentry with rfl | rfl | rfl <;> tauto

theorem isEntry_of_mem_clause {c gate entry : Circuit} {clause : List Circuit} (plain : c.Plain)
    (hgate : gate ∈ c.gates) (hclause : clause ∈ clausesOf gate) (hentry : entry ∈ clause) :
    IsEntry c entry := by
  obtain ⟨hpart, hkind⟩ := mem_gates.mp hgate
  have hown : IsEntry c gate := IsEntry.part hpart
  have hinput : ∀ d ∈ gate.inputs, IsEntry c d := fun d hd =>
    IsEntry.part (mem_parts_trans hpart (mem_parts_of_input hd (mem_parts_self d)))
  cases gate with
  | and args =>
      rcases List.mem_cons.mp hclause with rfl | hclause
      · rcases List.mem_cons.mp hentry with rfl | hentry
        · exact hown
        · obtain ⟨arg, harg, rfl⟩ := List.mem_map.mp hentry
          exact (hinput arg harg).negate plain
      · obtain ⟨arg, harg, rfl⟩ := List.mem_map.mp hclause
        rcases List.mem_pair.mp hentry with rfl | rfl
        · exact hown.negate plain
        · exact hinput entry harg
  | or args =>
      rcases List.mem_cons.mp hclause with rfl | hclause
      · rcases List.mem_cons.mp hentry with rfl | hentry
        · exact hown.negate plain
        · exact hinput entry hentry
      · obtain ⟨arg, harg, rfl⟩ := List.mem_map.mp hclause
        rcases List.mem_pair.mp hentry with rfl | rfl
        · exact hown
        · exact (hinput arg harg).negate plain
  | xor a b =>
      have ha := hinput a (by simp [inputs])
      have hb := hinput b (by simp [inputs])
      refine isEntry_of_mem_choiceClauses plain ?_ hclause hentry
      simp [hown, ha, hb, hb.negate plain]
  | ite d t e =>
      refine isEntry_of_mem_choiceClauses plain ?_ hclause hentry
      exact List.forall_mem_cons.mpr ⟨hown, hinput⟩
  | lit n => cases hkind
  | const b => cases hkind
  | neg d => cases hkind
  | other name args => cases hkind

theorem IsEntry.form {c entry : Circuit} (plain : c.Plain) (h : IsEntry c entry) :
    (∃ n, entry = .lit n ∧ n.natAbs ∈ c.occurrences) ∨ entry ∈ c.gates ∨
      ∃ gate ∈ c.gates, entry = .neg gate := by
  obtain ⟨d, hd, hentry⟩ := h
  have hplain := plain d hd
  by_cases hkind : d.isGate = true
  · have hgate : d ∈ c.gates := mem_gates.mpr ⟨hd, hkind⟩
    rw [negate_of_isGate hkind] at hentry
    rcases hentry with rfl | rfl
    · exact Or.inr (Or.inl hgate)
    · exact Or.inr (Or.inr ⟨d, hgate, rfl⟩)
  · cases d with
    | lit n =>
        have hoccurs : n.natAbs ∈ c.occurrences := mem_occurrences.mpr ⟨n, hd, rfl⟩
        rcases hentry with rfl | rfl
        · exact Or.inl ⟨n, rfl, hoccurs⟩
        · exact Or.inl ⟨-n, rfl, by rwa [Int.natAbs_neg]⟩
    | neg e =>
        have hgate : e ∈ c.gates := mem_gates.mpr
          ⟨mem_parts_trans hd (mem_parts_of_input (by simp [inputs]) (mem_parts_self e)), hplain⟩
        rcases hentry with rfl | rfl
        · exact Or.inr (Or.inr ⟨e, hgate, rfl⟩)
        · exact Or.inr (Or.inl hgate)
    | _ => exact absurd hplain hkind

/-! ## Truth of the written clauses -/

section Truth

variable {c : Circuit} {numbers : Table Circuit Int} {α : Id → Bool}

/-- The numbers of a plain circuit, with the literals as they were. -/
structure Faithful (numbers : Table Circuit Int) (c : Circuit) : Prop where
  plain : c.Plain
  numbered : Numbered (· ∈ c.occurrences) numbers
  kept : KeepsLiterals numbers c
  placed : ∀ gate ∈ c.gates, ∃ n, numbers.get? gate = some n

theorem isNode_of_isGate {gate : Circuit} (h : gate.isGate = true) : gate.isNode = true := by
  cases gate <;> first | rfl | cases h

theorem Faithful.gate {gate : Circuit} (faithful : Faithful numbers c) (h : gate ∈ c.gates) :
    ∃ k : Nat, 0 < k ∧ k ∉ c.occurrences ∧ numbers.get? gate = some (k : Int) ∧
      numbers.get? (.neg gate) = some (-(k : Int)) := by
  have hkind := (mem_gates.mp h).2
  obtain ⟨n, hn⟩ := faithful.placed gate h
  rcases faithful.numbered.node gate n (isNode_of_isGate hkind) hn with
    ⟨m, rfl, -, -⟩ | ⟨k, hpos, hk, rfl, hneg⟩
  · cases hkind
  · exact ⟨k, hpos, hk, hn, hneg⟩

/-- An entry is as true as its number, and the number is not zero. -/
theorem Faithful.literalValue {entry : Circuit} {n : Int} (faithful : Faithful numbers c)
    (hentry : IsEntry c entry) (h : numbers.get? entry = some n) :
    n ≠ 0 ∧ literalValue α n = entryValue α (gateValue numbers α) entry := by
  rcases hentry.form faithful.plain with ⟨m, rfl, hm⟩ | hgate | ⟨gate, hgate, rfl⟩
  · cases (faithful.kept m hm).symm.trans h
    obtain ⟨k, hpart, hk⟩ := mem_occurrences.mp hm
    have hne : k ≠ 0 := of_decide_eq_true (faithful.plain _ hpart)
    exact ⟨by omega, by rw [entryValue]⟩
  · obtain ⟨k, hpos, -, hk, -⟩ := faithful.gate hgate
    cases hk.symm.trans h
    rw [entryValue_of_isGate α _ (mem_gates.mp hgate).2, gateValue, hk]
    exact ⟨by omega, rfl⟩
  · obtain ⟨k, hpos, -, hk, hneg⟩ := faithful.gate hgate
    cases hneg.symm.trans h
    rw [entryValue, entryValue_of_isGate α _ (mem_gates.mp hgate).2, gateValue, hk,
      literalValue_neg (by omega)]
    exact ⟨by omega, rfl⟩

theorem get?_of_number {entry : Circuit} {n : Int} (h : Numbering.number numbers entry = .ok n) :
    numbers.get? entry = some n := by
  unfold Numbering.number at h
  split at h <;> cases h
  assumption

theorem forall₂_of_mapM {ε β γ : Type} [Inhabited γ] {f : β → Except ε γ} {xs : List β}
    {ys : List γ} (h : xs.mapM f = .ok ys) : List.Forall₂ (fun x y => f x = .ok y) xs ys := by
  obtain ⟨g, rfl, hg⟩ := exists_map_of_mapM h
  exact List.forall₂_map_right_iff.mpr (List.forall₂_same.mpr hg)

section Related

variable {β γ : Type} {R : β → γ → Prop} {P : β → Prop} {Q : γ → Prop} {xs : List β} {ys : List γ}

theorem exists_iff_of_forall₂ (h : List.Forall₂ R xs ys)
    (hR : ∀ x ∈ xs, ∀ y, R x y → (Q y ↔ P x)) : (∃ y ∈ ys, Q y) ↔ ∃ x ∈ xs, P x := by
  induction h with
  | nil => simp
  | cons hxy hrest ih =>
      rw [List.forall_mem_cons] at hR
      simp [hR.1 _ hxy, ih hR.2]

theorem forall_iff_of_forall₂ (h : List.Forall₂ R xs ys)
    (hR : ∀ x ∈ xs, ∀ y, R x y → (Q y ↔ P x)) : (∀ y ∈ ys, Q y) ↔ ∀ x ∈ xs, P x := by
  induction h with
  | nil => simp
  | cons hxy hrest ih =>
      rw [List.forall_mem_cons] at hR
      simp [hR.1 _ hxy, ih hR.2]

end Related

theorem Sheet.Describes.exists_entry {sheet : Sheet} {l : Layout} {scopes : List Scope}
    (describes : sheet.Describes l scopes c) {literals : List Int} (hliterals : literals ∈ sheet.clauses)
    {n : Int} (hn : n ∈ literals) : ∃ entry, l.numbers.get? entry = some n := by
  obtain ⟨clause, -, hlists⟩ := exists_of_mem_forall₂ describes.clauses hliterals
  obtain ⟨entry, -, hnumber⟩ := exists_of_mem_mapM hlists hn
  exact ⟨entry, get?_of_number hnumber⟩

theorem Faithful.satisfied {clause : List Circuit} {literals : List Int}
    (faithful : Faithful numbers c) (hentries : ∀ entry ∈ clause, IsEntry c entry)
    (h : Lists numbers clause literals) :
    (∃ n ∈ literals, QuantFamily.literalValue α n = true) ↔
      Satisfied α (gateValue numbers α) clause := by
  refine exists_iff_of_forall₂ (forall₂_of_mapM h) fun entry hentry n hn => ?_
  rw [(faithful.literalValue (hentries entry hentry) (get?_of_number hn)).2]

variable {l : Layout} {sheet : Sheet} {scopes : List Scope} {given : Table Circuit (List String)}

theorem isGate_iff_of_isPlain {d : Circuit} (h : d.isPlain = true) :
    d.isGate = true ↔ d.isNode = true ∧ d.isLit = false := by
  cases d <;> simp_all [isPlain, isGate, isNode, isLit]

theorem mem_gates_of_layout (plain : c.Plain) (h : layout given c = .ok l) {d : Circuit} :
    d ∈ l.gates.map (·.1) ↔ d ∈ c.gates := by
  rw [(gates_of_layout h).2, mem_gates]
  exact and_congr_right fun hd => (isGate_iff_of_isPlain (plain d hd)).symm

theorem faithful_of_layout (plain : c.Plain) (h : layout given c = .ok l)
    (kept : KeepsLiterals l.numbers c) : Faithful l.numbers c := by
  obtain ⟨hnumbered, hplaced⟩ := numbers_of_layout h
  refine ⟨plain, hnumbered, kept, fun gate hgate => ?_⟩
  obtain ⟨hpart, hkind⟩ := mem_gates.mp hgate
  exact hplaced gate hpart (isNode_of_isGate hkind)

theorem mem_clausesOf {gate : Circuit} {clause : List Circuit} :
    clause ∈ clausesOf gate ↔ ∃ clauses, gateClauses? gate = some clauses ∧ clause ∈ clauses := by
  unfold clausesOf
  cases gateClauses? gate <;> simp

theorem mem_clauses_of_layout (plain : c.Plain) (h : layout given c = .ok l)
    {clause : List Circuit} :
    clause ∈ [c] :: l.gates.flatMap (fun entry => clausesOf entry.1) ↔
      clause = [c] ∨ ∃ gate ∈ c.gates, clause ∈ clausesOf gate := by
  simp only [List.mem_cons, List.mem_flatMap, ← mem_gates_of_layout plain h, List.mem_map]
  grind

theorem isEntry_of_mem_clauses (plain : c.Plain) (h : layout given c = .ok l) :
    ∀ clause ∈ [c] :: l.gates.flatMap (fun entry => clausesOf entry.1),
      ∀ entry ∈ clause, IsEntry c entry := by
  intro clause hclause entry hentry
  rcases (mem_clauses_of_layout plain h).mp hclause with rfl | ⟨gate, hgate, hclause⟩
  · exact IsEntry.part (List.mem_singleton.mp hentry ▸ mem_parts_self c)
  · exact isEntry_of_mem_clause plain hgate hclause hentry

/-- The written clauses say that the values of the gates fit and that the circuit is true. -/
theorem clausesHold_iff (plain : c.Plain) (h : layout given c = .ok l)
    (kept : KeepsLiterals l.numbers c) (describes : sheet.Describes l scopes c) :
    ClausesHold sheet.clauses α ↔
      Fits α (gateValue l.numbers α) c ∧ Satisfied α (gateValue l.numbers α) [c] := by
  have hentries := isEntry_of_mem_clauses plain h
  have hclauses : ClausesHold sheet.clauses α ↔
      ∀ clause ∈ [c] :: l.gates.flatMap (fun entry => clausesOf entry.1),
        Satisfied α (gateValue l.numbers α) clause :=
    forall_iff_of_forall₂ describes.clauses fun clause hclause literals hliterals =>
      (faithful_of_layout plain h kept).satisfied (hentries clause hclause) hliterals
  rw [hclauses]
  simp only [mem_clauses_of_layout plain h, Fits, mem_clausesOf]
  grind

theorem mem_gateNumbers (plain : c.Plain) (h : layout given c = .ok l) {gates : List Int}
    (hgates : l.gates.mapM (fun entry => Numbering.number l.numbers entry.1) = .ok gates) {n : Int} :
    n ∈ gates ↔ ∃ gate ∈ c.gates, l.numbers.get? gate = some n := by
  have hnumber : ∀ gate : Circuit, Numbering.number l.numbers gate = .ok n ↔
      l.numbers.get? gate = some n := fun gate =>
    ⟨get?_of_number, fun hget => by rw [Numbering.number, hget]⟩
  have hmem : (∃ k ∈ gates, k = n) ↔
      ∃ entry ∈ l.gates, Numbering.number l.numbers entry.1 = .ok n :=
    exists_iff_of_forall₂ (forall₂_of_mapM hgates) fun entry _ k hk => by rw [hk, Except.ok.injEq]
  rw [exists_eq_right] at hmem
  simp only [hmem, hnumber, ← mem_gates_of_layout plain h, List.mem_map, exists_exists_and_eq_and]

/-- The assignment in which the number of every gate has the value of the gate. -/
def settle (l : Layout) (α : Id → Bool) (v : Id) : Bool :=
  match l.gates.find? fun entry => decide (l.numbers.get? entry.1 = some v) with
  | some entry => entry.1.value α
  | none => α v

theorem settle_of_not_mem (plain : c.Plain) (h : layout given c = .ok l) {v : Id}
    (hv : ∀ gate ∈ c.gates, l.numbers.get? gate ≠ some v) : settle l α v = α v := by
  unfold settle
  cases hfind : l.gates.find? fun entry => decide (l.numbers.get? entry.1 = some v) with
  | none => rfl
  | some entry =>
      have hget : l.numbers.get? entry.1 = some v := by simpa using List.find?_some hfind
      have hmem := List.mem_map_of_mem (f := (·.1)) (List.mem_of_find?_eq_some hfind)
      exact absurd hget (hv _ ((mem_gates_of_layout plain h).mp hmem))

theorem settle_of_gate (faithful : Faithful l.numbers c) (h : layout given c = .ok l)
    {gate : Circuit} (hgate : gate ∈ c.gates) {n : Int} (hn : l.numbers.get? gate = some n) :
    settle l α n = gate.value α := by
  obtain ⟨k, -, hk, hget, -⟩ := faithful.gate hgate
  cases hget.symm.trans hn
  unfold settle
  cases hfind : l.gates.find? fun entry => decide (l.numbers.get? entry.1 = some (k : Int)) with
  | none =>
      obtain ⟨entry, hentry, rfl⟩ := List.mem_map.mp
        ((mem_gates_of_layout faithful.plain h).mpr hgate)
      exact absurd hget (by simpa using List.find?_eq_none.mp hfind entry hentry)
  | some entry =>
      have hentry : l.numbers.get? entry.1 = some (k : Int) := by simpa using List.find?_some hfind
      have hmem := List.mem_map_of_mem (f := (·.1)) (List.mem_of_find?_eq_some hfind)
      have hother := (mem_gates.mp ((mem_gates_of_layout faithful.plain h).mp hmem)).2
      have hkind := (mem_gates.mp hgate).2
      have hsame : entry.1 = gate := faithful.numbered.apart entry.1 gate k
        (isNode_of_isGate hother) (isNode_of_isGate hkind) hk hentry hget
      exact congrArg (value α) hsame

/-- For every assignment there are values of the gates that make the clauses true if and only if
the circuit is true. -/
theorem exists_gates_iff (plain : c.Plain) (h : layout given c = .ok l)
    (kept : KeepsLiterals l.numbers c) (describes : sheet.Describes l scopes c) {gates : List Int}
    (hgates : l.gates.mapM (fun entry => Numbering.number l.numbers entry.1) = .ok gates)
    (α : Id → Bool) :
    (∃ β, AgreeOff gates α β ∧ ClausesHold sheet.clauses β) ↔ c.value α = true := by
  have faithful := faithful_of_layout plain h kept
  -- No variable of the circuit is among the numbers of the gates.
  have hvars : ∀ β, AgreeOff gates α β → ∀ d ∈ c.parts, d.value β = d.value α := by
    intro β hβ d hd
    refine value_congr fun v hv => hβ v fun hmem => ?_
    obtain ⟨gate, hgate, hget⟩ := (mem_gateNumbers plain h hgates).mp hmem
    obtain ⟨k, -, hk, hget', -⟩ := faithful.gate hgate
    cases hget.symm.trans hget'
    obtain ⟨n, hpart, hn⟩ := mem_occurrences.mp hv
    exact hk (mem_occurrences.mpr ⟨n, mem_parts_trans hd hpart, hn⟩)
  constructor
  · rintro ⟨β, hβ, hclauses⟩
    obtain ⟨hfits, hunit⟩ := (clausesHold_iff plain h kept describes).mp hclauses
    rw [satisfied_unit, entryValue_of_fits plain hfits (mem_parts_self c)] at hunit
    rwa [← hvars β hβ c (mem_parts_self c)]
  · intro hc
    have hsettle : AgreeOff gates α (settle l α) := fun v hv =>
      settle_of_not_mem plain h fun gate hgate hget =>
        hv ((mem_gateNumbers plain h hgates).mpr ⟨gate, hgate, hget⟩)
    have hvalues : ∀ gate ∈ c.gates,
        gateValue l.numbers (settle l α) gate = gate.value (settle l α) := by
      intro gate hgate
      obtain ⟨k, -, -, hget, -⟩ := faithful.gate hgate
      rw [hvars _ hsettle gate (mem_gates.mp hgate).1, ← settle_of_gate faithful h hgate hget,
        gateValue, hget]
      exact literalValue_of_nonneg (by omega)
    refine ⟨settle l α, hsettle, (clausesHold_iff plain h kept describes).mpr ⟨?_, ?_⟩⟩
    · exact (fits_iff_values plain).mpr hvalues
    · rwa [satisfied_unit, entryValue_of_values plain hvalues (mem_parts_self c),
        hvars _ hsettle c (mem_parts_self c)]

theorem legible_of_describes (plain : c.Plain) (h : layout given c = .ok l)
    (kept : KeepsLiterals l.numbers c) (describes : sheet.Describes l scopes c)
    (positive : ∀ scope ∈ scopes, ∀ v ∈ scope.vars, 0 < v) : sheet.Legible := by
  have faithful := faithful_of_layout plain h kept
  obtain ⟨gates, hgates, hwritten⟩ := describes.scopes
  refine ⟨describes.binder, fun scope hscope v hv => ?_, ?_⟩
  · have hmem := mem_of_withGates hwritten (List.mem_flatMap.mpr ⟨scope, hscope, hv⟩)
    rw [List.mem_append, List.mem_flatMap] at hmem
    rcases hmem with ⟨outer, houter, hv⟩ | hv
    · have := positive outer houter v hv
      omega
    · obtain ⟨gate, hgate, hget⟩ := (mem_gateNumbers plain h hgates).mp hv
      obtain ⟨k, hpos, -, hk, -⟩ := faithful.gate hgate
      cases hk.symm.trans hget
      omega
  · intro literals hliterals n hn
    obtain ⟨clause, hclause, hlists⟩ := exists_of_mem_forall₂ describes.clauses hliterals
    obtain ⟨entry, hentry, hnumber⟩ := exists_of_mem_mapM hlists hn
    exact (faithful.literalValue (α := fun _ => false)
      (isEntry_of_mem_clauses plain h clause hclause entry hentry) (get?_of_number hnumber)).1

/-- The written clauses under the written prefix are as true as the circuit under its prefix. An
empty prefix stays empty, and then all variables count as existential. -/
theorem holds_of_describes (plain : c.Plain) (h : layout given c = .ok l)
    (kept : KeepsLiterals l.numbers c) (describes : sheet.Describes l scopes c) :
    ((∃ α, Holds sheet.scopes (ClausesHold sheet.clauses) α) ↔
        ∃ α, Holds scopes (fun α => c.value α = true) α) ∧
      (scopes ≠ [] → ∀ α, Holds sheet.scopes (ClausesHold sheet.clauses) α ↔
        Holds scopes (fun α => c.value α = true) α) := by
  obtain ⟨gates, hgates, hwritten⟩ := describes.scopes
  have hgate := exists_gates_iff plain h kept describes hgates
  have hblocks : scopes ≠ [] → ∀ α, Holds sheet.scopes (ClausesHold sheet.clauses) α ↔
      Holds scopes (fun α => c.value α = true) α := fun hne =>
    holds_withGates hne hwritten hgate
  refine ⟨?_, hblocks⟩
  by_cases hne : scopes = []
  · subst hne
    rw [← Except.ok.inj hwritten]
    constructor
    · rintro ⟨α, hα⟩
      exact ⟨α, (hgate α).mp ⟨α, fun _ _ => rfl, hα⟩⟩
    · rintro ⟨α, hα⟩
      obtain ⟨β, -, hβ⟩ := (hgate α).mpr hα
      exact ⟨β, hβ⟩
  · exact exists_congr (hblocks hne)

end Truth

theorem Plain.ne_const {c : Circuit} (plain : c.Plain) (b : Bool) : c ≠ .const b := by
  rintro rfl
  cases plain _ (mem_parts_self _)

/-- Whatever the variables are, exactly one choice of truth values for the gates of a plain circuit
satisfies the clauses of all its gates; in it every gate has its value as a circuit, and the clause
of the circuit alone is satisfied if and only if the circuit is true. So the text of clauses that
is written for the circuit under quantifiers, read back, is as true as the circuit under these
quantifiers, provided that literals keep their numbers. -/
theorem clauses_as_true_as_circuit {c : Circuit} (plain : c.Plain) :
    (∀ α, (∃ g, Fits α g c) ∧ ∀ g, Fits α g c →
      (∀ gate ∈ c.gates, g gate = gate.value α) ∧ (Satisfied α g [c] ↔ c.value α = true)) ∧
    ∀ (setting : Setting) (scopes : List Scope) (text : String) (l : Layout),
      layout setting.gateNames c = .ok l → KeepsLiterals l.numbers c →
      (∀ scope ∈ scopes, ∀ v ∈ scope.vars, 0 < v) →
      (writeClauses setting scopes c).outcome = { text := some text } →
      ∃ written sheet gates, text = nameLines "c " setting ++ written ∧
        Sheet.read? written = some sheet ∧
        l.gates.mapM (fun entry => Numbering.number l.numbers entry.1) = .ok gates ∧
        withGates gates scopes = .ok sheet.scopes ∧
        ((∃ α, Holds sheet.scopes (ClausesHold sheet.clauses) α) ↔
          ∃ α, Holds scopes (fun α => c.value α = true) α) ∧
        (scopes ≠ [] → ∀ α, Holds sheet.scopes (ClausesHold sheet.clauses) α ↔
          Holds scopes (fun α => c.value α = true) α) := by
  constructor
  · intro α
    refine ⟨⟨value α, (fits_iff_values plain).mpr fun _ _ => rfl⟩, fun g fits => ⟨?_, ?_⟩⟩
    · exact (fits_iff_values plain).mp fits
    · rw [satisfied_unit, entryValue_of_fits plain fits (mem_parts_self c)]
  · intro setting scopes text l hlayout kept positive hwritten
    obtain ⟨l', sheet, hlayout', describes, rfl⟩ := sheet_of_writeClauses plain.ne_const hwritten
    cases hlayout.symm.trans hlayout'
    obtain ⟨gates, hgates, hscopes⟩ := describes.scopes
    exact ⟨sheet.text, sheet, gates, rfl,
      Sheet.read?_text (legible_of_describes plain hlayout kept describes positive), hgates, hscopes,
      holds_of_describes plain hlayout kept describes⟩

/-- A circuit with a parity that is used twice, once negated. -/
def mixedCircuit : Circuit :=
  .or [.neg (.xor (.lit 1) (.lit 2)), .ite (.lit 1) (.lit (-2)) (.xor (.lit 1) (.lit 2))]

def mixedScopes : List Scope :=
  [⟨.exists, [1]⟩, ⟨.forall, [2]⟩]

/-- Two gates can have the numbers they are named after, and one cannot. -/
def mixedSetting (names : Table Nat String) : Setting where
  keepVariableNames := false
  variableNames := names
  gateNames := ⟨[(.xor (.lit 1) (.lit 2), ["4"]),
    (.ite (.lit 1) (.lit (-2)) (.xor (.lit 1) (.lit 2)), ["3"]), (mixedCircuit, ["9"])]⟩

def mixedSheet : Sheet where
  greatest := 5
  count := 12
  scopes := [⟨.exists, [1]⟩, ⟨.forall, [2]⟩, ⟨.exists, [4, 3, 5]⟩]
  clauses := [[5], [-1, 2, 4], [-1, -2, -4], [1, -2, 4], [1, 2, -4], [-1, 2, 3], [-1, -2, -3],
    [1, -4, 3], [1, 4, -3], [-5, -4, 3], [5, 4], [5, -3]]

theorem mixedSheet_written (names : Table Nat String) :
    (writeClauses (mixedSetting names) mixedScopes mixedCircuit).outcome =
      { text := some mixedSheet.text } := by
  refine (congrArg Writing.outcome (writeClauses_unnamed (mixedSetting {}) rfl names _ _)).trans ?_
  unfold writeClauses layout
  simp only [sorted_eq_insertionSort]
  exact outcome_of_text (by decide +kernel) (by decide +kernel)

theorem clauses_as_true_as_circuit_mixed :
    mixedCircuit.Plain ∧
      (∃ l, layout (mixedSetting {}).gateNames mixedCircuit = .ok l ∧
        KeepsLiterals l.numbers mixedCircuit) ∧
      (writeClauses (mixedSetting {}) mixedScopes mixedCircuit).outcome =
        { text := some mixedSheet.text } ∧
      ∀ α, Holds mixedSheet.scopes (ClausesHold mixedSheet.clauses) α ↔
        Holds mixedScopes (fun α => mixedCircuit.value α = true) α := by
  have plain : mixedCircuit.Plain := by decide +kernel
  have hwritten := mixedSheet_written {}
  obtain ⟨l, -, hlayout, -, -⟩ := sheet_of_writeClauses plain.ne_const hwritten
  have kept : KeepsLiterals l.numbers mixedCircuit :=
    keepsLiterals_of_unnamed (fun _ => rfl) hlayout
  refine ⟨plain, ⟨l, hlayout, kept⟩, hwritten, ?_⟩
  obtain ⟨written, sheet, -, htext, hread, -, -, -, hholds⟩ :=
    (clauses_as_true_as_circuit plain).2 (mixedSetting {}) mixedScopes mixedSheet.text l hlayout
      kept (by decide) hwritten
  have hnames : nameLines "c " (mixedSetting {}) = "" := rfl
  rw [hnames, String.empty_append] at htext
  rw [← htext, Sheet.read?_text ⟨by decide, by decide, by decide⟩] at hread
  cases hread
  exact hholds (by decide)

/-- A text in which a gate with one input is named after a number that is free. -/
def collapsedText : String :=
  "#QCIR-G14\nexists(1)\nforall(2)\noutput(9)\n3 = and(1)\n7 = or(3, 2)\n8 = or(-1, -2)\n" ++
    "9 = and(7, 8)\n"

def collapsedCircuit : Circuit :=
  .and [.or [.lit 1, .lit 2], .or [.lit (-1), .lit (-2)]]

/-- The name of the gate has gone over to its only input. -/
def collapsedDocument : Document where
  scopes := [⟨.exists, [1]⟩, ⟨.forall, [2]⟩]
  output := .and [.or [.and [.lit 1], .lit 2], .or [.lit (-1), .lit (-2)]]
  variableNames := {}
  gateNames := ⟨[(.and [.lit 1], ["3"]), (.or [.and [.lit 1], .lit 2], ["7"]),
    (.or [.lit (-1), .lit (-2)], ["8"]),
    (.and [.or [.and [.lit 1], .lit 2], .or [.lit (-1), .lit (-2)]], ["9"]), (.lit 1, ["3"]),
    (.or [.lit 1, .lit 2], ["7"]), (collapsedCircuit, ["9"])]⟩

def collapsedSheet : Sheet where
  greatest := 7
  count := 10
  scopes := [⟨.exists, [1]⟩, ⟨.forall, [2]⟩, ⟨.exists, [7, 4, 5]⟩]
  clauses := [[5], [-7, 3, 2], [7, -1], [7, -2], [-4, -1, -2], [4, 3], [4, 2], [5, -7, -4], [-5, 7],
    [-5, 4]]

theorem collapsedSheet_written (names : Table Nat String) :
    (writeClauses (({ keepVariableNames := false } : Conversion).setting
      { collapsedDocument with variableNames := names }) collapsedDocument.scopes
      collapsedCircuit).outcome = { text := some collapsedSheet.text } := by
  refine (congrArg Writing.outcome (writeClauses_unnamed
    (({ keepVariableNames := false } : Conversion).setting collapsedDocument) rfl names _ _)).trans ?_
  unfold writeClauses layout
  simp only [sorted_eq_insertionSort]
  exact outcome_of_text (by decide +kernel) (by decide +kernel)

theorem collapsedSheet_holds :
    Holds collapsedSheet.scopes (ClausesHold collapsedSheet.clauses) fun v => v = 3 := by
  refine ⟨fun v => v = 3, fun _ _ => rfl, fun β hβ => ?_⟩
  have hone : β 1 = false := hβ 1 (by decide)
  have hthree : β 3 = true := hβ 3 (by decide)
  refine ⟨fun v => v = 7 ∨ v = 4 ∨ v = 5 ∨ β v = true, fun v hv => ?_, ?_⟩
  · simp only [List.mem_cons, List.not_mem_nil, or_false, not_or] at hv
    simp [hv]
  · simp [Holds, ClausesHold, collapsedSheet, literalValue, hone, hthree]

theorem collapsedCircuit_fails (α : Id → Bool) :
    ¬ Holds collapsedDocument.scopes (fun α => collapsedCircuit.value α = true) α := by
  rintro ⟨β, -, hβ⟩
  -- The second variable is chosen as the first one.
  have h := hβ (Function.update β 2 (β 1)) fun v hv => Function.update_of_ne (by simpa using hv) _ _
  simp [Holds, collapsedCircuit, literalValue] at h

/-- The name of a gate that has only one input goes over to the input. A literal is then written
by the number that the gate was named after, which no quantifier binds: the clauses under their
prefix are true, the circuit under its prefix is false. -/
theorem renumbered_literal_changes_truth :
    (∃ document, ({ keepVariableNames := false } : Conversion).prepare collapsedText =
        .ok (document, collapsedCircuit) ∧ document.scopes = collapsedDocument.scopes) ∧
      collapsedCircuit.Plain ∧
      ({ keepVariableNames := false } : Conversion).run collapsedText =
        { text := some collapsedSheet.text } ∧
      Sheet.read? collapsedSheet.text = some collapsedSheet ∧
      (∃ α, Holds collapsedSheet.scopes (ClausesHold collapsedSheet.clauses) α) ∧
      ¬ ∃ α, Holds collapsedDocument.scopes (fun α => collapsedCircuit.value α = true) α := by
  have hcheck : ({ keepVariableNames := false } : Conversion).prepares collapsedText
      collapsedDocument collapsedCircuit = true := by decide +kernel
  obtain ⟨names, hprepare⟩ := prepare_of_prepares hcheck
  refine ⟨⟨_, hprepare, rfl⟩, by decide +kernel, ?_, ?_, ⟨_, collapsedSheet_holds⟩, ?_⟩
  · exact (run_of_prepare rfl hprepare).trans (collapsedSheet_written names)
  · exact Sheet.read?_text ⟨by decide, by decide, by decide⟩
  · rintro ⟨α, hα⟩
    exact collapsedCircuit_fails α hα

end QuantFamily.Circuit
