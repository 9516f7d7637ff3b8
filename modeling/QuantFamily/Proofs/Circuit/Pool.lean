import QuantFamily.Proofs.Circuit.Converted
import QuantFamily.Proofs.Circuit.Levels

/-!
# Free numbers

The numbers that the literals leave free are enough for the gates, because no two literals of one
variable take a number out of the pool. But a literal may have inherited the name of a gate, and
then it takes the number that the name spells as a gate would. The literals keep their numbers
exactly when none of them is named after a number of the pool, and then the pool never runs out.
-/

namespace QuantFamily.Circuit

/-! ## Levels -/

theorem rises_literals : Rises fun c level => 1 ≤ level ∧ (level = 1 ↔ c.isLit = true) := by
  refine ⟨fun n => ⟨le_rfl, by simp [isLit]⟩, fun c level _ gate highest => ?_⟩
  obtain ⟨d, -, hpos, -⟩ := highest.reached
  rw [gate]
  exact ⟨by omega, fun h => by omega, fun h => by cases h⟩

/-- In the order of the circuits all literals come before all gates. -/
theorem literals_first {c : Circuit} {found : Table Circuit Place} (h : places c = .ok found) :
    ((sorted found).map (·.1)).Pairwise fun d e => e.isLit = true → d.isLit = true := by
  rw [List.pairwise_map]
  refine (sorted_pairwise found).imp_of_mem fun {a b} ha hb hle hlit => ?_
  have ha := places_hold rises_literals h a (mem_sorted.mp ha)
  have hb := places_hold rises_literals h b (mem_sorted.mp hb)
  rw [← ha.2]
  rw [← hb.2] at hlit
  omega

namespace Numbering

variable {given : Table Circuit (List String)} {cs ds : List Circuit} {s t : Numbering}
  {c : Circuit}

/-! ## Room for the gates -/

/-- The gates that have no number yet. -/
def waiting (cs : List Circuit) (s : Numbering) : List Circuit :=
  cs.filter fun c => !c.isLit && !s.numbers.contains c

/-- There are enough free numbers for the gates that have none. -/
structure Roomy (cs : List Circuit) (s : Numbering) : Prop where
  nodup : s.free.Nodup
  room : (s.waiting cs).length ≤ s.free.length

theorem length_le_filter_ne {free : List Nat} (nodup : free.Nodup) (n : Nat) :
    free.length ≤ (free.filter (· ≠ n)).length + 1 := by
  have herase : free.filter (· ≠ n) = free.erase n := by
    rw [nodup.erase_eq_filter]
    refine List.filter_congr fun k _ => ?_
    by_cases h : k = n <;> simp [h]
  rw [herase, List.length_erase]
  split <;> omega

theorem mem_waiting : c ∈ s.waiting cs ↔ c ∈ cs ∧ c.isLit = false ∧ c ∉ s.numbers.keys := by
  simp [waiting, ← Table.contains_eq_false_iff]

theorem waiting_assign {n : Nat} (h : c ∈ s.waiting cs) :
    ((s.assign c n).waiting cs).length < (s.waiting cs).length := by
  have hsub : ((s.assign c n).waiting cs).Sublist ((s.waiting cs).filter (· ≠ c)) := by
    unfold waiting
    rw [List.filter_filter]
    refine List.monotone_filter_right cs fun d hd => ?_
    simp only [Bool.and_eq_true, Bool.not_eq_true', Table.contains_eq_false_iff,
      decide_eq_true_eq] at hd ⊢
    refine ⟨?_, hd.1, fun hkey => hd.2 ?_⟩
    · rintro rfl
      exact hd.2 (Table.mem_keys_put_of_mem Table.mem_keys_put_self)
    · exact Table.mem_keys_put_of_mem (Table.mem_keys_put_of_mem hkey)
  exact lt_of_le_of_lt hsub.length_le
    (List.length_filter_lt_length_iff_exists.mpr ⟨c, h, by simp⟩)

theorem Roomy.assign {n : Nat} (roomy : s.Roomy cs) (h : c ∈ s.waiting cs) :
    (s.assign c n).Roomy cs := by
  have hwaiting := waiting_assign (n := n) h
  have hfree : s.free.length ≤ (s.assign c n).free.length + 1 := length_le_filter_ne roomy.nodup n
  have hroom := roomy.room
  exact ⟨roomy.nodup.filter _, by omega⟩

/-- The literals take at most one number each. -/
theorem length_free_foldl_keepLiteral (nodup : s.free.Nodup) (cs : List Circuit) :
    (cs.foldl keepLiteral s).free.Nodup ∧
      s.free.length ≤ (cs.foldl keepLiteral s).free.length + (cs.filter isLit).length := by
  induction cs generalizing s with
  | nil => exact ⟨nodup, by simp⟩
  | cons c cs ih =>
      cases c with
      | lit m =>
          obtain ⟨hnodup, hle⟩ := ih (s := s.keepLiteral (.lit m)) (nodup.filter _)
          have hown : s.free.length ≤ (s.keepLiteral (.lit m)).free.length + 1 :=
            length_le_filter_ne nodup m.natAbs
          refine ⟨hnodup, ?_⟩
          rw [List.foldl_cons, List.filter_cons_of_pos (by rfl), List.length_cons]
          omega
      | _ => exact ih nodup

theorem ofLiterals_roomy (cs : List Circuit) : (ofLiterals cs).Roomy cs := by
  have hstart : ((List.range cs.length).map (· + 1)).Nodup :=
    List.nodup_range.map fun _ _ => Nat.succ.inj
  obtain ⟨hnodup, hle⟩ :=
    length_free_foldl_keepLiteral (s := { free := (List.range cs.length).map (· + 1) }) hstart cs
  refine ⟨hnodup, ?_⟩
  have hwaiting : ((ofLiterals cs).waiting cs).length ≤ (cs.filter fun c => !c.isLit).length :=
    (List.monotone_filter_right cs fun c hc => by simp_all).length_le
  have hall := List.length_eq_length_filter_add (l := cs) isLit
  simp only [List.length_map, List.length_range] at hle
  change _ ≤ (cs.foldl keepLiteral _).free.length
  omega

theorem get?_takeName_of_ne {d : Circuit} (node : d.isNode = true) (h : d ≠ c) :
    (s.takeName given c).numbers.get? d = s.numbers.get? d := by
  rcases takeName_cases given s c with ⟨n, -, -, heq⟩ | ⟨-, heq⟩
  · rw [heq, get?_assign_of_ne s n node h]
  · rw [heq]

theorem get?_foldl_takeName_of_not_mem {d : Circuit} (node : d.isNode = true) (h : d ∉ cs) :
    (cs.foldl (Numbering.takeName given) s).numbers.get? d = s.numbers.get? d := by
  induction cs generalizing s with
  | nil => rfl
  | cons c cs ih =>
      rw [List.mem_cons, not_or] at h
      exact (ih h.2).trans (get?_takeName_of_ne node h.1)

theorem Roomy.takeName (roomy : s.Roomy cs) (hc : c ∈ cs)
    (fresh : c.isLit = false → c ∉ s.numbers.keys) (spares : s.Spares given (c :: ds)) :
    (s.takeName given c).Roomy cs := by
  rcases takeName_cases given s c with ⟨n, hfree, hname, heq⟩ | ⟨-, heq⟩
  · have hgate : c.isLit = false := by
      cases c with
      | lit m => exact absurd hfree (spares m n List.mem_cons_self hname)
      | _ => rfl
    rw [heq]
    exact roomy.assign (mem_waiting.mpr ⟨hc, hgate, fresh hgate⟩)
  · rwa [heq]

theorem Roomy.foldl_takeName (roomy : s.Roomy cs) (sub : ds ⊆ cs) (nodup : ds.Nodup)
    (nodes : ∀ d ∈ ds, d.isNode = true)
    (fresh : ∀ d ∈ ds, d.isLit = false → d ∉ s.numbers.keys) (spares : s.Spares given ds) :
    (ds.foldl (Numbering.takeName given) s).Roomy cs := by
  induction ds generalizing s with
  | nil => exact roomy
  | cons d ds ih =>
      rw [List.cons_subset] at sub
      rw [List.nodup_cons] at nodup
      rw [List.forall_mem_cons] at nodes fresh
      refine ih (roomy.takeName sub.1 fresh.1 spares) sub.2 nodup.2 nodes.2 (fun e he hgate => ?_)
        spares.takeName
      have hne : e ≠ d := fun heq => nodup.1 (heq ▸ he)
      rw [← Table.get?_eq_none_iff, get?_takeName_of_ne (nodes.2 e he) hne,
        Table.get?_eq_none_iff]
      exact fresh.2 e he hgate

theorem Roomy.takeFree (roomy : s.Roomy cs) (hc : c ∈ cs) :
    ∃ t, s.takeFree c = .ok t ∧ t.Roomy cs := by
  unfold Numbering.takeFree
  split
  case isTrue => exact ⟨s, rfl, roomy⟩
  case isFalse hskip =>
    rw [Bool.not_eq_true, Bool.or_eq_false_iff, Table.contains_eq_false_iff] at hskip
    have hwaiting := mem_waiting.mpr ⟨hc, hskip⟩
    split
    case h_1 hfree =>
      have hroom := roomy.room
      rw [hfree] at hroom
      rw [List.length_eq_zero_iff.mp (Nat.le_zero.mp hroom)] at hwaiting
      cases hwaiting
    case h_2 n rest hfree => exact ⟨s.assign c n, rfl, roomy.assign hwaiting⟩

theorem Roomy.foldlM_takeFree (roomy : s.Roomy cs) (sub : ds ⊆ cs) :
    ∃ t, ds.foldlM Numbering.takeFree s = .ok t := by
  induction ds generalizing s with
  | nil => exact ⟨s, rfl⟩
  | cons d ds ih =>
      rw [List.cons_subset] at sub
      obtain ⟨t, hstep, ht⟩ := roomy.takeFree sub.1
      rw [List.foldlM_cons, hstep]
      exact ih ht sub.2

/-- The pool does not run out if no literal takes a number from it. -/
theorem exists_ofCircuits (nodup : cs.Nodup) (nodes : ∀ c ∈ cs, c.isNode = true)
    (spares : (ofLiterals cs).Spares given cs) : ∃ numbers, ofCircuits given cs = .ok numbers := by
  have hfresh : ∀ c ∈ cs, c.isLit = false → c ∉ (ofLiterals cs).numbers.keys := by
    intro c _ hgate
    rw [← Table.get?_eq_none_iff, Option.eq_none_iff_forall_ne_some]
    intro n hn
    obtain ⟨m, rfl, -⟩ := (kept_ofLiterals cs).number c n hn
    cases hgate
  obtain ⟨t, ht⟩ := ((ofLiterals_roomy cs).foldl_takeName (List.Subset.refl cs) nodup nodes hfresh
    spares).foldlM_takeFree (List.Subset.refl cs)
  refine ⟨t.numbers, ?_⟩
  change (cs.foldlM Numbering.takeFree (cs.foldl (Numbering.takeName given) (ofLiterals cs)) >>= _) =
    _
  rw [ht]
  rfl

/-! ## Literals that take numbers -/

/-- Among literals that come before all gates, one that is named after a free number takes one. -/
theorem exists_lit_takeName (nodup : cs.Nodup)
    (first : cs.Pairwise fun d e => e.isLit = true → d.isLit = true)
    (h : ¬ s.Spares given cs) :
    ∃ m, .lit m ∈ cs ∧ ∃ k ∈ s.free,
      (cs.foldl (Numbering.takeName given) s).numbers.get? (.lit m) = some (k : Int) := by
  induction cs generalizing s with
  | nil => exact absurd (fun m k hm => by cases hm) h
  | cons c cs ih =>
      rw [List.nodup_cons] at nodup
      rw [List.pairwise_cons] at first
      rcases takeName_cases given s c with ⟨n, hfree, -, heq⟩ | ⟨hkeeps, heq⟩
      · -- A literal that is named after a free number does not come after a gate.
        have hlit : c.isLit = true := by
          by_contra hgate
          refine h fun m k hm _ _ => hgate ?_
          rcases List.mem_cons.mp hm with hm | hm
          · rw [← hm]
            rfl
          · exact first.1 _ hm rfl
        cases c with
        | lit m =>
            refine ⟨m, List.mem_cons_self, n, hfree, ?_⟩
            rw [List.foldl_cons, get?_foldl_takeName_of_not_mem rfl nodup.1, heq,
              get?_assign_self s n rfl]
        | _ => cases hlit
      · have hrest : ¬ s.Spares given cs := fun spares => h fun m k hm hk => by
          rcases List.mem_cons.mp hm with rfl | hm
          · exact hkeeps k hk
          · exact spares m k hm hk
        obtain ⟨m, hm, hget⟩ := ih nodup.2 first.2 hrest
        rw [List.foldl_cons, heq]
        exact ⟨m, List.mem_cons_of_mem c hm, hget⟩

theorem exists_lit_of_ofCircuits {numbers : Table Circuit Int} (nodup : cs.Nodup)
    (first : cs.Pairwise fun d e => e.isLit = true → d.isLit = true)
    (h : ¬ (ofLiterals cs).Spares given cs) (run : ofCircuits given cs = .ok numbers) :
    ∃ m, .lit m ∈ cs ∧ ∃ k : Nat, ¬ Occurs cs k ∧ numbers.get? (.lit m) = some (k : Int) := by
  unfold ofCircuits at run
  obtain ⟨t, hrun, run⟩ := exists_ok_of_bind run
  cases run
  obtain ⟨m, hm, k, hk, hget⟩ := exists_lit_takeName nodup first h
  refine ⟨m, hm, k, (((kept_ofLiterals cs).free k).mp hk).2, ?_⟩
  rw [get?_lit_foldlM_takeFree hrun]
  exact hget

end Numbering

/-! ## Numbers of a circuit -/

section Order

variable {given : Table Circuit (List String)} {c : Circuit} {found : Table Circuit Place}

/-- A literal of the circuit is named after a number up to a count that is not a variable of the
circuit. -/
def NamesLiteral (given : Table Circuit (List String)) (c : Circuit) (count : Nat) : Prop :=
  ∃ m k, .lit m ∈ c.parts ∧ Numbering.namedAfter? given (.lit m) = some k ∧
    1 ≤ k ∧ k ≤ count ∧ k ∉ c.occurrences

theorem spares_iff (placed : places c = .ok found) :
    (Numbering.ofLiterals ((sorted found).map (·.1))).Spares given ((sorted found).map (·.1)) ↔
      ¬ NamesLiteral given c found.size := by
  obtain ⟨-, hmem⟩ := order_of_places placed
  have hlength : ((sorted found).map (·.1)).length = found.size := by
    rw [(sorted_perm found).length_eq, Table.keys, List.length_map, Table.size]
  have hfree : ∀ k, k ∈ (Numbering.ofLiterals ((sorted found).map (·.1))).free ↔
      1 ≤ k ∧ k ≤ found.size ∧ k ∉ c.occurrences := by
    intro k
    rw [(Numbering.kept_ofLiterals _).free, occurs_order hmem, hlength, ← and_assoc]
    refine and_congr_left' ?_
    rw [List.mem_map]
    exact ⟨by simp; omega, fun h => ⟨k - 1, by simp; omega⟩⟩
  simp only [Numbering.Spares, NamesLiteral, hfree, hmem, isNode, and_true, not_exists, not_and]

/-- Whatever names gates were given, the numbers of a circuit are right up to one condition: no
literal may be named after a number of the pool. Under it the pool does not run out. Without it,
a numbering that is found does not keep all literals. In every case different gates have different
positive numbers, which are not variables, and the negation of a gate has the opposite number. -/
theorem literals_keep_numbers_iff (placed : places c = .ok found) :
    (¬ NamesLiteral given c found.size →
      ∃ numbers, Numbering.ofCircuits given ((sorted found).map (·.1)) = .ok numbers) ∧
    ∀ numbers, Numbering.ofCircuits given ((sorted found).map (·.1)) = .ok numbers →
      (KeepsLiterals numbers c ↔ ¬ NamesLiteral given c found.size) ∧
      (∀ gate ∈ c.parts, gate.isNode = true → gate.isLit = false →
        ∃ k : Nat, 0 < k ∧ k ∉ c.occurrences ∧ numbers.get? gate = some (k : Int) ∧
          numbers.get? (.neg gate) = some (-(k : Int))) ∧
      ∀ gate ∈ c.parts, ∀ other ∈ c.parts, gate.isNode = true → gate.isLit = false →
        other.isNode = true → other.isLit = false →
        numbers.get? gate = numbers.get? other → gate = other := by
  obtain ⟨hnodup, hmem⟩ := order_of_places placed
  have hnodes : ∀ d ∈ (sorted found).map (·.1), d.isNode = true := fun d hd => ((hmem d).mp hd).2
  rw [← spares_iff placed]
  refine ⟨Numbering.exists_ofCircuits hnodup hnodes, fun numbers run => ?_⟩
  obtain ⟨hnumbered, hall⟩ := Numbering.numbered_of_ofCircuits hnodes run
  have hgate : ∀ gate ∈ c.parts, gate.isNode = true → gate.isLit = false →
      ∃ k : Nat, 0 < k ∧ k ∉ c.occurrences ∧ numbers.get? gate = some (k : Int) ∧
        numbers.get? (.neg gate) = some (-(k : Int)) := by
    intro gate hpart hnode hlit
    obtain ⟨n, hn⟩ := hall gate ((hmem gate).mpr ⟨hpart, hnode⟩)
    rcases hnumbered.node gate n hnode hn with ⟨m, rfl, -, -⟩ | ⟨k, hpos, hk, rfl, hneg⟩
    · cases hlit
    · rw [occurs_order hmem] at hk
      exact ⟨k, hpos, hk, hn, hneg⟩
  refine ⟨⟨fun keeps => ?_, fun spares n hn => ?_⟩, hgate, ?_⟩
  · by_contra hspares
    obtain ⟨m, hm, k, hk, hget⟩ :=
      Numbering.exists_lit_of_ofCircuits hnodup (literals_first placed) hspares run
    rw [occurs_order hmem] at hk
    have hoccurs : m.natAbs ∈ c.occurrences := mem_occurrences.mpr ⟨m, ((hmem _).mp hm).1, rfl⟩
    have hkm := Option.some.inj ((keeps m hoccurs).symm.trans hget)
    rw [hkm] at hoccurs
    exact hk (by simpa using hoccurs)
  · exact Numbering.get?_lit_of_ofCircuits spares run (by rwa [occurs_order hmem])
  · intro gate hpart other hpart' hnode hlit hnode' hlit' heq
    obtain ⟨k, -, hk, hget, -⟩ := hgate gate hpart hnode hlit
    exact hnumbered.apart gate other k hnode hnode' (by rwa [occurs_order hmem]) hget
      (heq ▸ hget)

end Order

/-- A text whose first gate has one input and the given name. -/
def pairText (name : String) : String :=
  "#QCIR-G14\nexists(1, 2)\noutput(9)\n" ++ name ++ " = and(1)\n9 = or(" ++ name ++ ", 2)\n"

def pairCircuit : Circuit :=
  .or [.lit 1, .lit 2]

/-- The name of the first gate has gone over to its input. -/
def pairDocument (name : String) : Document where
  scopes := [⟨.exists, [1, 2]⟩]
  output := .or [.and [.lit 1], .lit 2]
  variableNames := {}
  gateNames := ⟨[(.and [.lit 1], [name]), (.or [.and [.lit 1], .lit 2], ["9"]), (.lit 1, [name]),
    (pairCircuit, ["9"])]⟩

def pairPlaces : Table Circuit Place :=
  ⟨[(.lit 1, ⟨1, 1⟩), (.lit 2, ⟨1, 2⟩), (pairCircuit, ⟨2, 3⟩)]⟩

theorem pairPlaces_found : places pairCircuit = .ok pairPlaces :=
  rfl

theorem pairPlaces_sorted : (sorted pairPlaces).map (·.1) = [.lit 1, .lit 2, pairCircuit] := by
  rw [sorted_eq_insertionSort]
  decide +kernel

theorem prepare_pairText (name : String)
    (h : ({ keepVariableNames := false } : Conversion).prepares (pairText name) (pairDocument name)
      pairCircuit = true) :
    ∃ document, ({ keepVariableNames := false } : Conversion).prepare (pairText name) =
      .ok (document, pairCircuit) ∧ document.gateNames = (pairDocument name).gateNames := by
  obtain ⟨names, hprepare⟩ := prepare_of_prepares h
  exact ⟨_, hprepare, rfl⟩

/-- A literal that is named after a number outside of the pool keeps its own. -/
theorem literals_keep_numbers_iff_pair :
    ∃ document numbers, ({ keepVariableNames := false } : Conversion).prepare (pairText "8") =
        .ok (document, pairCircuit) ∧
      Numbering.namedAfter? document.gateNames (.lit 1) = some 8 ∧
      places pairCircuit = .ok pairPlaces ∧
      ¬ NamesLiteral document.gateNames pairCircuit pairPlaces.size ∧
      Numbering.ofCircuits document.gateNames ((sorted pairPlaces).map (·.1)) = .ok numbers ∧
      KeepsLiterals numbers pairCircuit ∧ numbers.get? pairCircuit = some 3 := by
  obtain ⟨document, hprepare, hnames⟩ := prepare_pairText "8" (by decide +kernel)
  have hspared : ¬ NamesLiteral document.gateNames pairCircuit pairPlaces.size := by
    rw [hnames]
    rintro ⟨m, k, hm, hname, -, hle, -⟩
    have hm : m = 1 ∨ m = 2 := by simpa [pairCircuit, parts, partsAll] using hm
    rcases hm with rfl | rfl
    · have hk : (8 : Nat) = k := Option.some.inj hname
      subst hk
      exact absurd hle (by decide)
    · cases hname
  obtain ⟨numbers, hrun⟩ := (literals_keep_numbers_iff pairPlaces_found).1 hspared
  refine ⟨document, numbers, hprepare, hnames ▸ by decide +kernel, rfl, hspared, hrun,
    ((literals_keep_numbers_iff pairPlaces_found).2 numbers hrun).1.mpr hspared, ?_⟩
  rw [pairPlaces_sorted, hnames] at hrun
  cases hrun
  decide +kernel

/-- A gate with one input gives its name to a literal, and the literal takes the number that the
name spells. It takes the only number of the pool away from the last gate, or it is written by a
number that is not opposite to that of its negation. -/
theorem literal_takes_number_of_gate :
    (∃ document, ({ keepVariableNames := false } : Conversion).prepare (pairText "3") =
        .ok (document, pairCircuit) ∧ places pairCircuit = .ok pairPlaces ∧
      Numbering.ofCircuits document.gateNames ((sorted pairPlaces).map (·.1)) =
        .error .missingEntry) ∧
    ∃ document l, ({ keepVariableNames := false } : Conversion).prepare collapsedText =
        .ok (document, collapsedCircuit) ∧ layout document.gateNames collapsedCircuit = .ok l ∧
      l.numbers.get? (.lit 1) = some 3 ∧ l.numbers.get? (.lit (-1)) = some (-1) := by
  constructor
  · obtain ⟨document, hprepare, hnames⟩ := prepare_pairText "3" (by decide +kernel)
    refine ⟨document, hprepare, rfl, ?_⟩
    rw [pairPlaces_sorted, hnames]
    rfl
  · have hcheck : ({ keepVariableNames := false } : Conversion).prepares collapsedText
        collapsedDocument collapsedCircuit = true := by decide +kernel
    obtain ⟨names, hprepare⟩ := prepare_of_prepares hcheck
    have hlayout : ((layout collapsedDocument.gateNames collapsedCircuit).toOption.map fun l =>
        (l.numbers.get? (.lit 1), l.numbers.get? (.lit (-1)))) = some (some 3, some (-1)) := by
      unfold layout
      simp only [sorted_eq_insertionSort]
      decide +kernel
    obtain ⟨l, hl, hget⟩ := Option.map_eq_some_iff.mp hlayout
    obtain ⟨hpos, hneg⟩ := Prod.mk.inj hget
    exact ⟨_, l, hprepare, ok_of_toOption hl, hpos, hneg⟩

end QuantFamily.Circuit
