import Mathlib.Tactic.SplitIfs
import QuantFamily.Proofs.Circuit.Value

/-!
# Circuits that stand for others

A circuit represents another one if it has the same value under every assignment and brings in no
new variables. Gates represent gates when their inputs do. The rules by which a gate over
simplified inputs is made smaller all give a circuit that represents the gate, and none of them
raises the rank, so a gate that has to be simplified once more is below the one it comes from.
-/

namespace QuantFamily.Circuit

/-- The second circuit can be put in the place of the first. -/
structure Represents (c r : Circuit) : Prop where
  regular : r.Regular
  value : ∀ α, r.value α = c.value α
  occurs : ∀ v ∈ r.occurrences, v ∈ c.occurrences

namespace Represents

variable {c d r : Circuit} {args rs : List Circuit}

theorem refl (h : c.Regular) : Represents c c :=
  ⟨h, fun _ => rfl, fun _ hv => hv⟩

theorem trans (h : Represents c d) (h' : Represents d r) : Represents c r :=
  ⟨h'.regular, fun α => (h'.value α).trans (h.value α), fun v hv => h.occurs v (h'.occurs v hv)⟩

theorem occurs_of_inputs (hlit : ∀ n, r ≠ .lit n)
    (h : ∀ input ∈ r.inputs, ∃ original ∈ c.inputs, Represents original input) :
    ∀ v ∈ r.occurrences, v ∈ c.occurrences := by
  intro v hv
  rcases mem_occurrences_iff_input.mp hv with ⟨n, rfl, -⟩ | ⟨input, hinput, hv⟩
  · exact absurd rfl (hlit n)
  · obtain ⟨original, horiginal, hrep⟩ := h input hinput
    exact mem_occurrences_iff_input.mpr (Or.inr ⟨original, horiginal, hrep.occurs v hv⟩)

theorem neg (h : Represents c r) : Represents (.neg c) (.neg r) where
  regular := everywhere_iff.mpr ⟨rfl, by simpa [inputs] using h.regular⟩
  value := fun α => by simp [h.value]
  occurs := occurs_of_inputs (by simp) (by simpa [inputs] using h)

theorem xor {a b x y : Circuit} (ha : Represents a x) (hb : Represents b y) :
    Represents (.xor a b) (.xor x y) where
  regular := everywhere_iff.mpr ⟨rfl, by simpa [inputs] using ⟨ha.regular, hb.regular⟩⟩
  value := fun α => by simp [ha.value, hb.value]
  occurs := occurs_of_inputs (by simp) (by simpa [inputs] using ⟨Or.inl ha, Or.inr hb⟩)

theorem ite {t e x y z : Circuit} (hc : Represents c x) (ht : Represents t y)
    (he : Represents e z) : Represents (.ite c t e) (.ite x y z) where
  regular := everywhere_iff.mpr
    ⟨rfl, by simpa [inputs] using ⟨hc.regular, ht.regular, he.regular⟩⟩
  value := fun α => by simp [hc.value, ht.value, he.value]
  occurs := occurs_of_inputs (by simp)
    (by simpa [inputs] using ⟨Or.inl hc, Or.inr (Or.inl ht), Or.inr (Or.inr he)⟩)

theorem map_value (h : List.Forall₂ Represents args rs) (α : Id → Bool) :
    rs.map (Circuit.value α) = args.map (Circuit.value α) := by
  induction h with
  | nil => rfl
  | cons hfirst _ ih => rw [List.map_cons, List.map_cons, ih, hfirst.value]

theorem and (h : List.Forall₂ Represents args rs) : Represents (.and args) (.and rs) where
  regular := everywhere_iff.mpr ⟨rfl, fun r hr =>
    have ⟨_, _, hrep⟩ := exists_of_mem_forall₂ h hr
    hrep.regular⟩
  value := fun α => by
    rw [Circuit.value, Circuit.value, values_eq_map, values_eq_map, map_value h]
  occurs := occurs_of_inputs (by simp) fun _ hr => exists_of_mem_forall₂ h hr

theorem or (h : List.Forall₂ Represents args rs) : Represents (.or args) (.or rs) where
  regular := everywhere_iff.mpr ⟨rfl, fun r hr =>
    have ⟨_, _, hrep⟩ := exists_of_mem_forall₂ h hr
    hrep.regular⟩
  value := fun α => by
    rw [Circuit.value, Circuit.value, values_eq_map, values_eq_map, map_value h]
  occurs := occurs_of_inputs (by simp) fun _ hr => exists_of_mem_forall₂ h hr

end Represents

/-! ## Ranks -/

theorem rankAll_le_iff {cs : List Circuit} {n : Nat} : rankAll cs ≤ n ↔ ∀ c ∈ cs, c.rank ≤ n := by
  induction cs with
  | nil => simp [rankAll]
  | cons c cs ih => rw [rankAll, Nat.max_le, List.forall_mem_cons, ih]

theorem rank_le_rankAll {c : Circuit} {cs : List Circuit} (h : c ∈ cs) : c.rank ≤ rankAll cs :=
  rankAll_le_iff.mp (Nat.le_refl _) c h

theorem rank_negate_le (c : Circuit) : c.negate.rank ≤ c.rank + 1 := by
  cases c <;> simp [negate, rank]
  omega

/-! ## Negation and parity -/

theorem represents_inversion {c : Circuit} (h : c.Regular) :
    Represents (.neg c) (Pass.inversion c) ∧ (Pass.inversion c).rank ≤ (Circuit.neg c).rank := by
  cases c with
  | const b =>
      refine ⟨⟨everywhere_iff.mpr ⟨rfl, by simp [Pass.inversion, inputs]⟩, fun α => ?_, ?_⟩, ?_⟩
      · simp [Pass.inversion]
      · simp [Pass.inversion, occurrences]
      · simp [Pass.inversion, rank]
  | lit n => exact ⟨.neg (.refl h), Nat.le_refl _⟩
  | neg d => exact ⟨.neg (.refl h), Nat.le_refl _⟩
  | and args => exact ⟨.neg (.refl h), Nat.le_refl _⟩
  | or args => exact ⟨.neg (.refl h), Nat.le_refl _⟩
  | xor a b => exact ⟨.neg (.refl h), Nat.le_refl _⟩
  | ite d t e => exact ⟨.neg (.refl h), Nat.le_refl _⟩
  | other name args => exact ⟨.neg (.refl h), Nat.le_refl _⟩

theorem represents_of_const {b : Bool} {c gate : Circuit} (h : c.Regular)
    (hvalue : ∀ α, gate.value α = (b ^^ c.value α)) (hoccurs : ∀ v ∈ c.occurrences, v ∈ gate.occurrences) :
    Represents gate (if b then c.negate else c) := by
  cases b with
  | false => exact ⟨h, fun α => by simp [hvalue], hoccurs⟩
  | true =>
      refine ⟨h.negate, fun α => ?_, fun v hv => hoccurs v ?_⟩
      · rw [if_pos rfl, value_negate α h.ne_zero, hvalue, Bool.true_xor]
      · rwa [if_pos rfl, occurrences_negate] at hv

theorem parity_const_left (b : Bool) {c : Circuit} (h : ∀ b, c ≠ .const b) :
    Pass.parity (.const b) c = if b then c.negate else c := by
  cases c with
  | const b => exact absurd rfl (h b)
  | _ => cases b <;> rfl

theorem parity_const_right (b : Bool) (c : Circuit) :
    Pass.parity c (.const b) = if b then c.negate else c := by
  cases b <;> rfl

theorem parity_of_ne_const {a b : Circuit} (ha : ∀ v, a ≠ .const v) (hb : ∀ v, b ≠ .const v) :
    Pass.parity a b = .xor a b := by
  cases a with
  | const v => exact absurd rfl (ha v)
  | _ =>
      cases b with
      | const v => exact absurd rfl (hb v)
      | _ => rfl

theorem rank_if_negate_le (b : Bool) (c : Circuit) :
    (if b then c.negate else c).rank ≤ c.rank + 1 := by
  cases b with
  | false => exact Nat.le_succ _
  | true => exact rank_negate_le c

theorem represents_parity {a b : Circuit} (ha : a.Regular) (hb : b.Regular) :
    Represents (.xor a b) (Pass.parity a b) ∧ (Pass.parity a b).rank ≤ (Circuit.xor a b).rank := by
  by_cases hconst : ∃ v, b = .const v
  · obtain ⟨v, rfl⟩ := hconst
    rw [parity_const_right]
    refine ⟨represents_of_const ha (fun α => ?_) (by simp [occurrences]), ?_⟩
    · rw [value_xor, value_const, Bool.xor_comm]
    · have := rank_if_negate_le v a
      simp only [rank]
      omega
  · have hb' : ∀ v, b ≠ .const v := fun v heq => hconst ⟨v, heq⟩
    by_cases hconst : ∃ v, a = .const v
    · obtain ⟨v, rfl⟩ := hconst
      rw [parity_const_left v hb']
      refine ⟨represents_of_const hb (fun α => by simp) (by simp [occurrences]), ?_⟩
      have := rank_if_negate_le v b
      simp only [rank]
      omega
    · rw [parity_of_ne_const (fun v heq => hconst ⟨v, heq⟩) hb']
      exact ⟨.xor (.refl ha) (.refl hb), Nat.le_refl _⟩

/-! ## Conjunction and disjunction -/

def joined (conjunction : Bool) (args : List Circuit) : Circuit :=
  if conjunction then .and args else .or args

section Joined

variable {b : Bool} {args kept : List Circuit}

theorem joined_inputs : (joined b args).inputs = args := by
  cases b <;> rfl

theorem joined_rank : (joined b args).rank = rankAll args + 1 := by
  cases b <;> simp [joined, rank]

/-- A conjunction is true, or a disjunction false, if all inputs are. -/
theorem value_joined {α : Id → Bool} : (joined b args).value α = b ↔ ∀ c ∈ args, c.value α = b := by
  cases b <;> simp [joined]

theorem joined_regular (h : ∀ c ∈ args, c.Regular) : (joined b args).Regular := by
  cases b <;> exact everywhere_iff.mpr ⟨rfl, h⟩

theorem mem_unique {α : Type} [DecidableEq α] {items : List α} {x : α} :
    x ∈ Pass.unique items ↔ x ∈ items := by
  have hfold : ∀ kept : List α, x ∈ items.foldl
      (fun kept item => if item ∈ kept then kept else kept ++ [item]) kept ↔
        x ∈ kept ∨ x ∈ items := by
    induction items with
    | nil => simp
    | cons item items ih =>
        intro kept
        rw [List.foldl_cons, ih]
        by_cases hitem : item ∈ kept
        · rw [if_pos hitem, List.mem_cons]
          constructor
          · rintro (h | h)
            · exact Or.inl h
            · exact Or.inr (Or.inr h)
          · rintro (h | rfl | h)
            · exact Or.inl h
            · exact Or.inl hitem
            · exact Or.inr h
        · rw [if_neg hitem, List.mem_append, List.mem_singleton, List.mem_cons, or_assoc]
  simpa [Pass.unique] using hfold []

/-- Some inputs of a gate that decide its value may be joined instead of all. -/
theorem represents_joined_of_subset (h : ∀ c ∈ args, c.Regular) (hsub : ∀ c ∈ kept, c ∈ args)
    (hvalue : ∀ α, (∀ c ∈ kept, c.value α = b) → ∀ c ∈ args, c.value α = b) :
    Represents (joined b args) (joined b kept) where
  regular := joined_regular fun c hc => h c (hsub c hc)
  value := fun α => by
    have hiff : (joined b kept).value α = b ↔ (joined b args).value α = b := by
      rw [value_joined, value_joined]
      exact ⟨hvalue α, fun hall c hc => hall c (hsub c hc)⟩
    cases hk : (joined b kept).value α <;> cases ha : (joined b args).value α <;>
      cases b <;> simp_all
  occurs := by
    intro v hv
    rcases mem_occurrences_iff_input.mp hv with ⟨n, hlit, -⟩ | ⟨input, hinput, hv⟩
    · cases b <;> cases hlit
    · rw [joined_inputs] at hinput
      refine mem_occurrences_iff_input.mpr (Or.inr ⟨input, ?_, hv⟩)
      rw [joined_inputs]
      exact hsub input hinput

/-- A gate with an input that has the deciding value under every assignment. -/
theorem represents_joined_decided (h : ∀ α, ∃ c ∈ args, c.value α = !b) :
    Represents (joined b args) (.const (!b)) where
  regular := everywhere_iff.mpr ⟨rfl, by simp [inputs]⟩
  value := fun α => by
    obtain ⟨c, hc, hvalue⟩ := h α
    have hne : (joined b args).value α ≠ b := by
      rw [Ne, value_joined]
      intro hall
      rw [hall c hc] at hvalue
      cases b <;> cases hvalue
    rw [value_const]
    cases hj : (joined b args).value α <;> cases b <;> simp_all
  occurs := by simp [occurrences]

theorem represents_joined_nil : Represents (joined b []) (.const b) where
  regular := everywhere_iff.mpr ⟨rfl, by simp [inputs]⟩
  value := fun α => by cases b <;> simp [joined]
  occurs := by simp [occurrences]

theorem represents_joined_singleton {c : Circuit} (h : c.Regular) : Represents (joined b [c]) c where
  regular := h
  value := fun α => by cases b <;> simp [joined]
  occurs := by cases b <;> simp [joined, occurrences, occurrencesAll]

theorem represents_junction (h : ∀ c ∈ args, c.Regular) :
    Represents (joined b args) (Pass.junction b args) ∧
      (Pass.junction b args).rank ≤ (joined b args).rank := by
  -- Inputs that are the neutral constant do not count.
  have hmem : ∀ c, c ∈ args.filter (fun arg => arg ≠ .const b) ↔ c ∈ args ∧ c ≠ .const b := by
    simp
  have hkept : Represents (joined b args) (joined b (args.filter fun arg => arg ≠ .const b)) := by
    refine represents_joined_of_subset h (fun c hc => ((hmem c).mp hc).1) fun α hall c hc => ?_
    by_cases hneutral : c = .const b
    · rw [hneutral, value_const]
    · exact hall c ((hmem c).mpr ⟨hc, hneutral⟩)
  have hregular : ∀ c ∈ args.filter (fun arg => arg ≠ .const b), c.Regular :=
    fun c hc => h c ((hmem c).mp hc).1
  have hrank : ∀ c ∈ args.filter (fun arg => arg ≠ .const b), c.rank ≤ rankAll args :=
    fun c hc => rank_le_rankAll ((hmem c).mp hc).1
  rw [joined_rank]
  unfold Pass.junction
  dsimp only
  generalize args.filter (fun arg => arg ≠ .const b) = kept at hkept hregular hrank
  split
  · rename_i hdecided
    refine ⟨hkept.trans (represents_joined_decided fun α => ⟨_, hdecided, value_const α _⟩), ?_⟩
    simp [rank]
  · split
    · exact ⟨hkept.trans represents_joined_nil, by simp [rank]⟩
    · rename_i c _
      exact ⟨hkept.trans (represents_joined_singleton (hregular c List.mem_cons_self)),
        Nat.le_succ_of_le (hrank c List.mem_cons_self)⟩
    · split
      · rename_i hopposite
        obtain ⟨c, hc, hneg⟩ := List.any_eq_true.mp hopposite
        rw [decide_eq_true_eq] at hneg
        refine ⟨hkept.trans (represents_joined_decided fun α => ?_), by simp [rank]⟩
        by_cases hvalue : c.value α = !b
        · exact ⟨c, hc, hvalue⟩
        · refine ⟨c.negate, hneg, ?_⟩
          rw [value_negate α (hregular c hc).ne_zero]
          cases hv : c.value α <;> cases b <;> simp_all
      · have hunique : Represents (joined b kept) (joined b (Pass.unique kept)) :=
          represents_joined_of_subset hregular (fun c hc => mem_unique.mp hc)
            fun α hall c hc => hall c (mem_unique.mpr hc)
        have hle : rankAll (Pass.unique kept) ≤ rankAll args :=
          rankAll_le_iff.mpr fun c hc => hrank c (mem_unique.mp hc)
        have hjoined : (if b = true then Circuit.and (Pass.unique kept) else .or (Pass.unique kept)) =
            joined b (Pass.unique kept) := rfl
        rw [hjoined, joined_rank]
        exact ⟨hkept.trans hunique, Nat.succ_le_succ hle⟩

end Joined

/-! ## Choice -/

/-- What a gate has become: a circuit that is done, or a gate of smaller rank that has to be
simplified itself. -/
def Settles (gate : Circuit) : Circuit ⊕ Circuit → Prop
  | .inl done => Represents gate done ∧ done.rank ≤ gate.rank
  | .inr smaller => Represents gate smaller ∧ smaller.rank < gate.rank

/-- A choice with a constant branch becomes a gate over its condition and the other branch. -/
theorem settles_pair {b : Bool} {c t e condition branch : Circuit}
    (hcondition : condition = c ∨ condition = c.negate) (hbranch : branch = t ∨ branch = e)
    (hc : c.Regular) (hregular : branch.Regular)
    (hvalue : ∀ α, (joined b [condition, branch]).value α = (Circuit.ite c t e).value α) :
    Settles (.ite c t e) (.inr (joined b [condition, branch])) := by
  have hoccurs : condition.occurrences = c.occurrences := by
    rcases hcondition with rfl | rfl
    · rfl
    · exact occurrences_negate c
  have hrank : condition.rank ≤ c.rank + 1 := by
    rcases hcondition with rfl | rfl
    · exact Nat.le_succ _
    · exact rank_negate_le c
  have hplace : branch.rank ≤ max t.rank e.rank ∧
      ∀ v ∈ branch.occurrences, v ∈ t.occurrences ∨ v ∈ e.occurrences := by
    rcases hbranch with rfl | rfl
    · exact ⟨Nat.le_max_left _ _, fun v hv => Or.inl hv⟩
    · exact ⟨Nat.le_max_right _ _, fun v hv => Or.inr hv⟩
  refine ⟨⟨joined_regular ?_, hvalue, fun v hv => ?_⟩, ?_⟩
  · have hfirst : condition.Regular := by
      rcases hcondition with rfl | rfl
      · exact hc
      · exact hc.negate
    simpa using ⟨hfirst, hregular⟩
  · have hv : v ∈ c.occurrences ∨ v ∈ branch.occurrences := by
      cases b <;> simpa [joined, occurrences, occurrencesAll, hoccurs] using hv
    simp only [occurrences, List.mem_append, or_assoc]
    exact hv.imp_right (hplace.2 v)
  · rw [joined_rank]
    simp only [rank, rankAll]
    omega

theorem settles_choice {c t e : Circuit} (hc : c.Regular) (ht : t.Regular) (he : e.Regular) :
    Settles (.ite c t e) (Pass.choice c t e) := by
  unfold Pass.choice
  split_ifs with hthen helse hthenTrue helseTrue hthenFalse helseFalse
  · subst hthen
    exact ⟨⟨ht, fun α => by simp, fun v hv => by simp [occurrences, hv]⟩, by simp only [rank]; omega⟩
  · subst helse
    exact ⟨⟨he, fun α => by simp, fun v hv => by simp [occurrences, hv]⟩, by simp only [rank]; omega⟩
  · subst hthenTrue
    refine settles_pair (b := false) (Or.inl rfl) (Or.inr rfl) hc he fun α => ?_
    cases hv : c.value α <;> simp [joined, hv]
  · subst helseTrue
    refine settles_pair (b := false) (Or.inr rfl) (Or.inl rfl) hc ht fun α => ?_
    cases hv : c.value α <;> simp [joined, hv, value_negate α hc.ne_zero]
  · subst hthenFalse
    refine settles_pair (b := true) (Or.inr rfl) (Or.inr rfl) hc he fun α => ?_
    cases hv : c.value α <;> simp [joined, hv, value_negate α hc.ne_zero]
  · subst helseFalse
    refine settles_pair (b := true) (Or.inl rfl) (Or.inl rfl) hc ht fun α => ?_
    cases hv : c.value α <;> simp [joined, hv]
  · exact ⟨.ite (.refl hc) (.refl ht) (.refl he), Nat.le_refl _⟩

end QuantFamily.Circuit
