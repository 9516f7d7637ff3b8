import QuantFamily.Proofs.Gate.Nesting

/-!
# Occurrences of variables below a list of identifiers

A list of signed identifiers is expanded by putting, for each block in it, what its body lists, from
left to right and down to the variables. A variable is met once for every way that leads to it. The
way is the list of the signed identifiers on it, and the signs on it multiply. The text of the
literals has one number for each occurrence, in this order, and there is a text whenever everything
on the way is known and no block on the way lists itself.
-/

namespace QuantFamily.Formula

variable {φ : Formula}

/-- The occurrences of variables below signed identifiers, each with the identifiers that lead to
it. -/
inductive Expands (φ : Formula) : List Id → List (List Id) → Prop
  | nil : Expands φ [] []
  | variable {e : Id} {bricks : List Id} {paths : List (List Id)}
      (h : (e.natAbs : Int) ∈ φ.vars.values) (rest : Expands φ bricks paths) :
      Expands φ (e :: bricks) ([e] :: paths)
  | block {e : Id} {b : Block} {bricks : List Id} {inner paths : List (List Id)}
      (held : φ.contents.get? e.natAbs = some b) (below : Expands φ b.body inner)
      (rest : Expands φ bricks paths) : Expands φ (e :: bricks) (inner.map (e :: ·) ++ paths)

/-- The product of the signs along a path. -/
def pathSign : List Id → Int
  | [] => 1
  | e :: path => Int.sign e * pathSign path

/-- The variable at the end of a path, multiplied by the signs along the path. -/
def occurrence (path : List Id) : Int :=
  pathSign path * (path.getLastD 0).natAbs

/-- The occurrences with their signs, each followed by a comma and a space. -/
def occurrenceText (paths : List (List Id)) : String :=
  String.join (paths.map fun path => Text.showInt (occurrence path) ++ ", ")

/-! ## Signs -/

theorem occurrence_singleton (e : Id) : occurrence [e] = e := by
  have hsign : Int.sign e * 1 * (Int.natAbs e : Int) = e := by
    rw [Int.mul_one]
    exact Int.sign_mul_natAbs e
  exact hsign

theorem sign_mul_eq_withSign {e : Id} (he : e ≠ 0) (n : Int) : Int.sign e * n = withSign e n := by
  unfold withSign
  split
  · rename_i hneg
    rw [Int.sign_eq_neg_one_of_neg hneg, Int.neg_mul, Int.one_mul]
  · rename_i hneg
    have hpos : 0 < e := Int.lt_iff_le_and_ne.mpr ⟨Int.not_lt.mp hneg, he.symm⟩
    rw [Int.sign_eq_one_of_pos hpos, Int.one_mul]

theorem occurrence_cons {e : Id} (he : e ≠ 0) {path : List Id} (hpath : path ≠ []) :
    occurrence (e :: path) = withSign e (occurrence path) := by
  have hlast : (e :: path).getLastD 0 = path.getLastD 0 := by
    cases path with
    | nil => exact absurd rfl hpath
    | cons d path => rfl
  rw [occurrence, pathSign, hlast, Int.mul_assoc, sign_mul_eq_withSign he]
  rfl

/-! ## Expansion and what identifiers stand for -/

theorem Expands.path_ne_nil {bricks : List Id} {paths : List (List Id)}
    (h : φ.Expands bricks paths) : ∀ path ∈ paths, path ≠ [] := by
  induction h with
  | nil => simp
  | «variable» _ _ ih => simpa using ih
  | block _ _ _ _ ih =>
      intro path hpath
      rcases List.mem_append.mp hpath with hin | hrest
      · obtain ⟨tail, -, rfl⟩ := List.mem_map.mp hin
        exact List.cons_ne_nil _ _
      · exact ih path hrest

theorem Expands.cons {e : Id} {bricks : List Id} {first rest : List (List Id)}
    (h : φ.Expands [e] first) (k : φ.Expands bricks rest) :
    φ.Expands (e :: bricks) (first ++ rest) := by
  cases h with
  | «variable» hvar none =>
      cases none
      exact .variable hvar k
  | block held below none =>
      cases none
      rw [List.append_nil]
      exact .block held below k

theorem exists_expands_of_forall {bricks : List Id} {parts : Id → List Int}
    (h : ∀ e ∈ bricks, ∃ paths, φ.Expands [e] paths ∧ paths.map occurrence = parts e) :
    ∃ paths, φ.Expands bricks paths ∧ paths.map occurrence = bricks.flatMap parts := by
  induction bricks with
  | nil => exact ⟨[], .nil, rfl⟩
  | cons e bricks ih =>
      rw [List.forall_mem_cons] at h
      obtain ⟨⟨first, hfirst, hparts⟩, h⟩ := h
      obtain ⟨rest, hrest, hall⟩ := ih h
      refine ⟨first ++ rest, hfirst.cons hrest, ?_⟩
      rw [List.map_append, hparts, hall, List.flatMap_cons]

/-- What an identifier stands for are its occurrences. -/
theorem Flattens.exists_expands (hφ : φ.WellFormed) {e : Id} {ns : List Int}
    (h : φ.Flattens e ns) : ∃ paths, φ.Expands [e] paths ∧ paths.map occurrence = ns := by
  induction h with
  | @«variable» e hvar =>
      exact ⟨[[e]], .variable hvar .nil, by rw [List.map_singleton, occurrence_singleton]⟩
  | @block e b parts held bricks ih =>
      obtain ⟨inner, hinner, hall⟩ := exists_expands_of_forall ih
      refine ⟨inner.map (e :: ·) ++ [], .block held hinner .nil, ?_⟩
      have he : e ≠ 0 := by
        rintro rfl
        exact absurd (hφ.held_range held).1 (by decide)
      rw [List.append_nil, ← hall, List.map_map, List.map_map]
      exact List.map_congr_left fun path hpath => occurrence_cons he (hinner.path_ne_nil path hpath)

theorem Expands.exists_flattens {bricks : List Id} {paths : List (List Id)}
    (h : φ.Expands bricks paths) : ∀ e ∈ bricks, ∃ ns, φ.Flattens e ns := by
  induction h with
  | nil => simp
  | @«variable» e _ _ hvar _ ih => exact List.forall_mem_cons.mpr ⟨⟨[e], .variable hvar⟩, ih⟩
  | block held _ _ below ih =>
      choose! parts hparts using below
      exact List.forall_mem_cons.mpr ⟨⟨_, .block parts held hparts⟩, ih⟩

theorem Expands.unique (hφ : φ.WellFormed) {bricks : List Id} {paths paths' : List (List Id)}
    (h : φ.Expands bricks paths) (h' : φ.Expands bricks paths') : paths = paths' := by
  induction h generalizing paths' with
  | nil =>
      cases h'
      rfl
  | «variable» hvar _ ih =>
      cases h' with
      | «variable» _ rest' => rw [ih rest']
      | block held' _ _ => exact absurd hvar (hφ.not_variable held')
  | block held _ _ below ih =>
      cases h' with
      | «variable» hvar' _ => exact absurd hvar' (hφ.not_variable held)
      | block held' below' rest' =>
          rw [held, Option.some.injEq] at held'
          subst held'
          rw [below below', ih rest']

theorem literalList_occurrences (paths : List (List Id)) :
    literalList (paths.map occurrence) = occurrenceText paths := by
  rw [literalList, List.map_map]
  rfl

/-- The text of the literals is that of the occurrences. -/
theorem literalText_ok_iff_expands (hφ : φ.WellFormed) {bricks : List Id} {text : String} :
    φ.literalText bricks = .ok text ↔
      ∃ paths, φ.Expands bricks paths ∧ text = occurrenceText paths := by
  simp only [literalText_eq_ok_iff, ← literalList_occurrences]
  constructor
  · rintro ⟨ns, hns, rfl⟩
    obtain ⟨parts, hparts, rfl⟩ := flattens_of_literals hns
    obtain ⟨paths, hpaths, hall⟩ := exists_expands_of_forall fun e he =>
      (hparts e he).exists_expands hφ
    exact ⟨paths, hpaths, by rw [hall]⟩
  · rintro ⟨paths, hpaths, rfl⟩
    obtain ⟨parts, hparts, hliterals⟩ := exists_literals_of_flattens hφ hpaths.exists_flattens
    obtain ⟨found, hfound, hall⟩ := exists_expands_of_forall fun e he =>
      (hparts e he).exists_expands hφ
    refine ⟨_, hliterals, ?_⟩
    rw [hpaths.unique hφ hfound, hall]

/-- Without blocks that list themselves, what decides is whether all that is reached is known. -/
theorem exists_literalText_iff (hφ : φ.WellFormed) {bricks : List Id}
    (apart : ∀ e ∈ bricks, ∀ id, Relation.ReflTransGen φ.Refers e.natAbs id → ¬ φ.Refers id id) :
    (∃ text, φ.literalText bricks = .ok text) ↔
      ∀ e ∈ bricks, ∀ id, Relation.ReflTransGen φ.Refers e.natAbs id →
        id ∈ φ.vars.values ∨ id ∈ φ.contents.keys := by
  constructor
  · rintro ⟨text, htext⟩ e he id hid
    obtain ⟨paths, hpaths, -⟩ := (literalText_ok_iff_expands hφ).mp htext
    obtain ⟨ns, hns⟩ := hpaths.exists_flattens e he
    exact hns.known_of_reaches hφ hid
  · intro known
    obtain ⟨parts, -, hliterals⟩ := exists_literals_of_flattens hφ fun e he =>
      exists_flattens hφ (known e he) (apart e he)
    exact ⟨_, literalText_eq_ok_iff.mpr ⟨_, hliterals, rfl⟩⟩

/-! ## Every formula that operations lead to -/

/-- If no block that is reached from signed identifiers lists itself, then their text lists the
occurrences of the variables below them, from left to right, each with the product of the signs that
lead to it, in every formula whose operations have all ended well. After faults there is a text
exactly if all that is reached is a variable or has contents. Whenever there is a text, it is this
one. -/
theorem literalText_lists_occurrences (edition : Edition) (operations : List Operation)
    (s : Session) (bricks : List Id) :
    let start : Session := { s with formula := {} }
    let φ := (Operation.run edition operations start).formula
    ((∀ e ∈ bricks, ∀ id, Relation.ReflTransGen φ.Refers e.natAbs id → ¬ φ.Refers id id) →
        (((operations.forM (Operation.act edition)).perform start).1 = .ok () →
          (∀ e ∈ bricks, (e.natAbs : Int) ∈ φ.ids) →
          ∃ paths, φ.Expands bricks paths ∧ φ.literalText bricks = .ok (occurrenceText paths)) ∧
        ((∃ text, φ.literalText bricks = .ok text) ↔
          ∀ e ∈ bricks, ∀ id, Relation.ReflTransGen φ.Refers e.natAbs id →
            id ∈ φ.vars.values ∨ id ∈ φ.contents.keys)) ∧
      ∀ text, φ.literalText bricks = .ok text ↔
        ∃ paths, φ.Expands bricks paths ∧ text = occurrenceText paths := by
  intro start φ
  have hφ : φ.WellFormed := Operation.wellFormed_run edition operations wellFormed_empty
  refine ⟨fun apart => ?_, fun text => literalText_ok_iff_expands hφ⟩
  have hknown := exists_literalText_iff hφ apart
  refine ⟨fun ended ids => ?_, hknown⟩
  have hfull : φ.Complete := Operation.complete_run ended complete_empty
  obtain ⟨text, htext⟩ := hknown.mpr fun e he id hid => hfull.known_of_reaches hφ (ids e he) hid
  obtain ⟨paths, hpaths, rfl⟩ := (literalText_ok_iff_expands hφ).mp htext
  exact ⟨paths, hpaths, htext⟩

/-- Blocks in three levels, negated on each of them, and one without bricks. -/
def negatedLevels : List Operation :=
  ([.vars "x" [] [], .vars "y" [] [],
    .blocks [⟨"A", [], [.ref false "x" [], .ref true "y" []]⟩] [] none,
    .blocks [⟨"B", [], [.ref true "A" [], .ref false "y" []]⟩] [] none,
    .blocks [⟨"C", ["i"], [.ref false "x" []]⟩] [.range "i" "1" "0"] (some "G"),
    .blocks [⟨"D", [], [.all "G"]⟩] [] none,
    .blocks [⟨"E", [], [.ref true "B" [], .ref true "D" [], .ref false "x" []]⟩] [] none] :
    List Language.Statement).map (.define false)

theorem literalText_lists_occurrences_negatedLevels :
    let φ := (Operation.run .full negatedLevels {}).formula
    (∀ e ∈ ([-6, 2] : List Id), ∀ id, Relation.ReflTransGen φ.Refers e.natAbs id →
        ¬ φ.Refers id id) ∧
      (∃ paths, φ.Expands [-6, 2] paths ∧ φ.literalText [-6, 2] = .ok (occurrenceText paths)) ∧
      φ.literalText [-6, 2] = .ok "-1, 2, 2, -1, 2, " := by
  intro φ
  have hφ : φ.WellFormed := Operation.wellFormed_run .full negatedLevels wellFormed_empty
  have acyclic : φ.Acyclic := hφ.acyclic (by decide +kernel)
  have apart : ∀ e ∈ ([-6, 2] : List Id), ∀ id, Relation.ReflTransGen φ.Refers e.natAbs id →
      ¬ φ.Refers id id := fun _ _ id _ hself => acyclic id (.single hself)
  have hlists := (literalText_lists_occurrences .full negatedLevels {} [-6, 2]).1 apart
  exact ⟨apart, hlists.1 (by decide +kernel) (by decide +kernel), by decide +kernel⟩

end QuantFamily.Formula
