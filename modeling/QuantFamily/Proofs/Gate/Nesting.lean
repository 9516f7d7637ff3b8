import QuantFamily.Proofs.Gate.Quantifier

/-!
# Prefixes that can be written

A body refers to what was there before its block, or to the block itself, and what stands for a list
of variables does not refer to itself. So from block to block the identifiers go down, and no chain
of blocks is longer than the table of contents. The bound on nesting is never reached: the
quantifier lines of every prefix are written.

There are variables that an identifier stands for exactly if all that it leads to is known, unless
it leads to a block that lists itself.
-/

namespace QuantFamily.Formula

variable {φ : Formula} {fuel : Nat}

theorem countP_le_lt_countP_le {keys : List Int} {a b : Int} (h : a < b) (hb : b ∈ keys) :
    keys.countP (fun key => key ≤ a) < keys.countP fun key => key ≤ b := by
  induction keys with
  | nil => cases hb
  | cons key keys ih =>
      have hmono : keys.countP (fun key => key ≤ a) ≤ keys.countP fun key => key ≤ b := by
        refine List.countP_mono_left fun key _ hkey => ?_
        rw [decide_eq_true_eq] at hkey ⊢
        omega
      simp only [List.countP_cons, decide_eq_true_eq]
      rcases List.mem_cons.mp hb with rfl | hmem
      · rw [if_neg (by omega), if_pos (Int.le_refl b)]
        omega
      · have hrest := ih hmem
        split <;> split <;> omega

/-- How many blocks with contents there are up to an identifier. -/
def rank (φ : Formula) (id : Id) : Nat :=
  φ.contents.keys.countP fun key => decide ((key : Int) ≤ id)

theorem rank_lt_nestingBound (φ : Formula) (id : Id) : φ.rank id < φ.nestingBound := by
  have hle : φ.rank id ≤ φ.contents.keys.length := List.countP_le_length
  have hsize : φ.contents.keys.length = φ.contents.size := List.length_map _
  rw [hsize] at hle
  unfold nestingBound
  omega

theorem rank_pos {id : Id} {b : Block} (hb : φ.contents.get? id = some b) : 0 < φ.rank id :=
  List.countP_pos_iff.mpr ⟨id, Table.mem_keys_of_get? hb, decide_eq_true (Int.le_refl id)⟩

/-- The rank goes down from a block to what it refers to. -/
theorem WellFormed.rank_lt (hφ : φ.WellFormed) {id e : Id} {b : Block}
    (hb : φ.contents.get? id = some b) (he : e ∈ b.body) (hne : (e.natAbs : Int) ≠ id) :
    φ.rank e.natAbs < φ.rank id := by
  have hle := (hφ.bricks id b (Table.mem_entries_of_get? hb) e he).2.1
  exact countP_le_lt_countP_le (Int.lt_iff_le_and_ne.mpr ⟨hle, hne⟩) (Table.mem_keys_of_get? hb)

/-! ## No block refers to itself -/

theorem Flattens.not_self (hφ : φ.WellFormed) {e : Id} {ns : List Int} (h : φ.Flattens e ns)
    {b : Block} (hb : φ.contents.get? e.natAbs = some b) :
    ∀ d ∈ b.body, (d.natAbs : Int) ≠ (e.natAbs : Int) := by
  induction h with
  | «variable» hvar => exact absurd hvar (hφ.not_variable hb)
  | @block e c parts held bricks ih =>
      intro d hd heq
      rw [held, Option.some.injEq] at hb
      subst hb
      exact ih d hd (heq ▸ held) d hd rfl

theorem Quantifies.not_self {id : Id} {scopes : List (Quantifier × List Int)}
    (h : φ.Quantifies id scopes) {b : Block} (hb : φ.contents.get? id = some b)
    (mark : b.mark = none) : id ∉ b.body := by
  induction h with
  | scope parts held hmark bricks =>
      rw [held, Option.some.injEq] at hb
      rw [hb, mark] at hmark
      cases hmark
  | @list id c parts held hmark bricks ih =>
      intro hmem
      rw [held, Option.some.injEq] at hb
      exact ih id (hb ▸ hmem) (hb ▸ held) hmem

/-! ## What can be expanded -/

theorem exists_of_mem_keys {id : Id} (h : id ∈ φ.contents.keys) :
    ∃ b, φ.contents.get? id = some b := by
  cases hget : φ.contents.get? id with
  | some b => exact ⟨b, rfl⟩
  | none => exact absurd h (Table.get?_eq_none_iff.mp hget)

/-- If every block has contents, then all that is reached is a variable or has contents. -/
theorem Complete.known_of_reaches (hfull : φ.Complete) (hφ : φ.WellFormed) {root id : Id}
    (hroot : root ∈ φ.ids) (reaches : Relation.ReflTransGen φ.Refers root id) :
    id ∈ φ.vars.values ∨ id ∈ φ.contents.keys := by
  have hid : id ∈ φ.ids := mem_of_reaches φ.ids
    (fun id _ b hb e he => (hφ.bricks id b (Table.mem_entries_of_get? hb) e he).2.2) hroot reaches
  rcases List.mem_append.mp hid with hvar | hblock
  · exact Or.inl hvar
  · exact Or.inr (hfull id hblock)

/-- All that is reached from what stands for variables is a variable or has contents. -/
theorem Flattens.known_of_reaches (hφ : φ.WellFormed) {e : Id} {ns : List Int}
    (h : φ.Flattens e ns) {id : Id} (reaches : Relation.ReflTransGen φ.Refers e.natAbs id) :
    id ∈ φ.vars.values ∨ id ∈ φ.contents.keys := by
  induction h with
  | «variable» hvar =>
      rcases reaches.cases_head with rfl | ⟨target, ⟨b, hb, -⟩, -⟩
      · exact Or.inl hvar
      · exact absurd hvar (hφ.not_variable hb)
  | @block e b parts held bricks ih =>
      rcases reaches.cases_head with rfl | ⟨target, ⟨c, hc, d, hd, rfl⟩, hrest⟩
      · exact Or.inr (Table.mem_keys_of_get? held)
      · rw [held, Option.some.injEq] at hc
        subst hc
        exact ih d hd hrest

/-- Conversely, if all that is reached is a variable or has contents and nothing reached lists
itself, then there are variables that stand for it. The identifiers go down along the way. -/
theorem exists_flattens (hφ : φ.WellFormed) {e : Id}
    (known : ∀ id, Relation.ReflTransGen φ.Refers e.natAbs id →
      id ∈ φ.vars.values ∨ id ∈ φ.contents.keys)
    (apart : ∀ id, Relation.ReflTransGen φ.Refers e.natAbs id → ¬ φ.Refers id id) :
    ∃ ns, φ.Flattens e ns := by
  induction hn : e.natAbs using Nat.strongRecOn generalizing e with
  | ind n ih =>
      subst hn
      rcases known _ .refl with hvar | hkey
      · exact ⟨[e], .variable hvar⟩
      · obtain ⟨b, hb⟩ := exists_of_mem_keys hkey
        have hbricks : ∀ d ∈ b.body, ∃ ns, φ.Flattens d ns := by
          intro d hd
          have hrefers : φ.Refers e.natAbs d.natAbs := ⟨b, hb, d, hd, rfl⟩
          have hne : (d.natAbs : Int) ≠ e.natAbs := fun heq => apart _ .refl (heq ▸ hrefers)
          have hlt : (d.natAbs : Int) < e.natAbs :=
            Int.lt_iff_le_and_ne.mpr ⟨hφ.le_of_refers hrefers, hne⟩
          exact ih d.natAbs (Int.ofNat_lt.mp hlt) (fun id hid => known id (.head hrefers hid))
            (fun id hid => apart id (.head hrefers hid)) rfl
        choose! parts hparts using hbricks
        exact ⟨_, .block parts hb hparts⟩

/-! ## Lines for every prefix -/

theorem literals_of_flattens (hφ : φ.WellFormed) {bricks : List Id} {parts : Id → List Int}
    (h : ∀ e ∈ bricks, φ.Flattens e (parts e)) (enough : ∀ e ∈ bricks, φ.rank e.natAbs < fuel)
    (positive : 0 < fuel) : φ.literals fuel bricks = .ok (bricks.flatMap parts) := by
  induction fuel generalizing bricks parts with
  | zero => cases positive
  | succ fuel ih =>
      unfold literals
      refine (congrArg (· >>= _) (mapM_ok_of_forall (g := parts) fun e he => ?_)).trans rfl
      have hrank := enough e he
      have hself : ∀ c, φ.contents.get? e.natAbs = some c →
          ∀ d ∈ c.body, (d.natAbs : Int) ≠ (e.natAbs : Int) :=
        fun c hc => (h e he).not_self hφ hc
      have hflattens := h e he
      dsimp only
      generalize parts e = ns at hflattens
      cases hflattens with
      | «variable» hvar => exact if_pos (List.contains_iff_mem.mpr hvar)
      | @block _ b below held bricks =>
          have hblock : φ.isVariable (Int.ofNat e.natAbs) = false := by
            rw [Formula.isVariable, List.contains_eq_mem, decide_eq_false_iff_not]
            exact hφ.not_variable held
          have hget : φ.contents.get? (Int.ofNat e.natAbs) = some b := held
          have hpos := rank_pos held
          rw [hblock, hget, if_neg Bool.false_ne_true]
          dsimp only
          rw [ih bricks (fun d hd => ?_) (by omega)]
          · rfl
          · exact Nat.lt_of_lt_of_le (hφ.rank_lt held hd (hself b held d hd)) (Nat.le_of_lt_succ hrank)

theorem exists_literals_of_flattens (hφ : φ.WellFormed) {bricks : List Id}
    (h : ∀ e ∈ bricks, ∃ ns, φ.Flattens e ns) :
    ∃ parts, (∀ e ∈ bricks, φ.Flattens e (parts e)) ∧
      φ.literals φ.nestingBound bricks = .ok (bricks.flatMap parts) := by
  choose! parts hparts using h
  exact ⟨parts, hparts, literals_of_flattens hφ hparts
    (fun e _ => φ.rank_lt_nestingBound _) (Nat.zero_lt_of_lt (φ.rank_lt_nestingBound 0))⟩

theorem Quantifies.exists_held {id : Id} {scopes : List (Quantifier × List Int)}
    (h : φ.Quantifies id scopes) : ∃ b, φ.contents.get? id = some b := by
  cases h with
  | scope parts held mark bricks => exact ⟨_, held⟩
  | list parts held mark bricks => exact ⟨_, held⟩

theorem markedLine_of_flattens (hφ : φ.WellFormed) (q : Quantifier) {body : List Id}
    {parts : Id → List Int} (h : ∀ e ∈ body, φ.Flattens e (parts e)) :
    φ.markedLine (.quantifier q) body = .ok (renderScopes [(q, body.flatMap parts)]) := by
  have hliterals : φ.literals φ.nestingBound body = .ok (body.flatMap parts) :=
    literals_of_flattens hφ h (fun e _ => φ.rank_lt_nestingBound _)
      (Nat.zero_lt_of_lt (φ.rank_lt_nestingBound 0))
  have hline : ∃ line, φ.markedLine (.quantifier q) body = .ok line := by
    unfold markedLine
    rw [literalText_eq, hliterals]
    exact ⟨_, rfl⟩
  obtain ⟨line, hline⟩ := hline
  obtain ⟨ns, hns, rfl⟩ := toList_markedLine hline
  cases hns.symm.trans hliterals
  rw [hline]
  simp [renderScopes, scopeLine]

/-- The quantifier lines of every prefix are written. -/
theorem quantifierLines_of_quantifies (hφ : φ.WellFormed) {id : Id}
    {scopes : List (Quantifier × List Int)} (h : φ.Quantifies id scopes) {b : Block}
    (hb : φ.contents.get? id = some b) (enough : φ.rank id < fuel) :
    φ.quantifierLines fuel b = .ok (renderScopes scopes) := by
  induction fuel generalizing id scopes b with
  | zero => cases enough
  | succ fuel ih =>
      have hself : b.mark = none → id ∉ b.body := h.not_self hb
      unfold quantifierLines
      cases h with
      | @scope _ c q parts held mark bricks =>
          cases held.symm.trans hb
          rw [mark]
          exact markedLine_of_flattens hφ q bricks
      | @list _ c parts held mark bricks =>
          cases held.symm.trans hb
          rw [mark, ← join_map_renderScopes]
          refine (congrArg (· >>= _) (mapM_ok_of_forall (g := fun e => renderScopes (parts e))
            fun e he => ?_)).trans rfl
          obtain ⟨inner, hinner⟩ := (bricks e he).exists_held
          have hpos : (e.natAbs : Int) = e :=
            Int.natAbs_of_nonneg (Int.le_trans (by decide) (hφ.held_range hinner).1)
          have hne : (e.natAbs : Int) ≠ id := by
            rw [hpos]
            rintro rfl
            exact hself mark he
          have hrank := hφ.rank_lt held he hne
          rw [hpos] at hrank
          rw [hinner]
          exact ih (bricks e he) hinner (Nat.lt_of_lt_of_le hrank (Nat.le_of_lt_succ enough))

end QuantFamily.Formula
