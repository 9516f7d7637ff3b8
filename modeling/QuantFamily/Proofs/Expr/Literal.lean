import QuantFamily.Expr.Eval
import QuantFamily.Proofs.Expr.Scanning
import QuantFamily.Proofs.Text.Shown

/-!
# Values written and read

Truth values, integers, texts, and lists of such values are written as expressions that denote them.
The written value falls into tokens, the tokens make up a term, and the term has the value again,
whatever names are in scope. Only two things can go wrong: an integer that is too long to be
written, and lists inside lists beyond the depth to which brackets are read.
-/

namespace QuantFamily.Expr

/-! ## Terms without operators

Each level of precedence passes on what the next one reads, if neither an operator nor a bracket
follows. -/

namespace Term

/-- Nothing, a comma or a closing bracket comes next. -/
inductive Stops : List Token → Prop
  | nil : Stops []
  | comma (tokens : List Token) : Stops (.op "," :: tokens)
  | bracket (tokens : List Token) : Stops (.op "]" :: tokens)

variable {k : Nat} {tokens rest : List Token} {t : Term}

theorem binaryAt_comma (level : Nat) : binaryAt level "," = none := by
  unfold binaryAt
  split <;> first | rfl | simp_all

theorem binaryAt_bracket (level : Nat) : binaryAt level "]" = none := by
  unfold binaryAt
  split <;> first | rfl | simp_all

theorem climbRest_of_stops (hrest : Stops rest) (fuel level : Nat) :
    climbRest (fuel + 1) level t rest = some (t, rest) := by
  cases hrest with
  | nil => rfl
  | comma tokens => rw [climbRest, binaryAt_comma]
  | bracket tokens => rw [climbRest, binaryAt_bracket]

theorem climb_of_factor (hrest : Stops rest)
    (h : ∀ fuel, k ≤ fuel → factor fuel tokens = some (t, rest)) {steps : Nat}
    (hsteps : steps ≤ 6) :
    ∀ fuel, k + steps + 1 ≤ fuel → climb fuel (6 - steps) tokens = some (t, rest) := by
  -- From the tightest level outwards: each level costs one step.
  induction steps with
  | zero =>
      intro fuel hfuel
      obtain ⟨fuel, rfl⟩ := Nat.exists_eq_add_one_of_ne_zero (Nat.ne_zero_of_lt hfuel)
      rw [climb, if_pos (Nat.le_refl 6)]
      exact h fuel (by omega)
  | succ steps ih =>
      intro fuel hfuel
      obtain ⟨fuel, rfl⟩ := Nat.exists_eq_add_one_of_ne_zero (Nat.ne_zero_of_lt hfuel)
      obtain ⟨below, rfl⟩ := Nat.exists_eq_add_one_of_ne_zero (show fuel ≠ 0 by omega)
      have hlevel : 6 - (steps + 1) + 1 = 6 - steps := by omega
      rw [climb, if_neg (by omega), hlevel, ih (by omega) _ (by omega)]
      exact climbRest_of_stops hrest below _

theorem chain_of_stops (hrest : Stops rest) (fuel : Nat) :
    chain (fuel + 1) rest = some ([], [], rest) := by
  cases hrest <;> rfl

/-- A term that is read without operators is an expression. -/
theorem expr_of_factor (hnot : tokens.head? ≠ some (.word "not")) (hrest : Stops rest)
    (h : ∀ fuel, k ≤ fuel → factor fuel tokens = some (t, rest)) :
    ∀ fuel, k + 11 ≤ fuel → expr fuel tokens = some (t, rest) := by
  intro fuel hfuel
  obtain ⟨fuel, rfl⟩ := Nat.exists_eq_add_of_le hfuel
  have hclimb : climb (k + 7 + fuel) 0 tokens = some (t, rest) :=
    climb_of_factor hrest h (Nat.le_refl 6) _ (by omega)
  have hinversion : inversion (k + 8 + fuel) tokens = some (t, rest) := by
    rw [show k + 8 + fuel = k + 7 + fuel + 1 by omega, inversion]
    · rw [hclimb, Option.bind_eq_bind, Option.bind_some]
      dsimp only
      rw [show k + 7 + fuel = k + 6 + fuel + 1 by omega, chain_of_stops hrest]
      rfl
    · rintro more rfl
      exact hnot rfl
  have hconjunction : conjunction (k + 9 + fuel) tokens = some (t, rest) := by
    rw [show k + 9 + fuel = k + 8 + fuel + 1 by omega, conjunction, hinversion]
    cases hrest <;> rfl
  have hdisjunction : disjunction (k + 10 + fuel) tokens = some (t, rest) := by
    rw [show k + 10 + fuel = k + 9 + fuel + 1 by omega, disjunction, hconjunction]
    cases hrest <;> rfl
  rw [show k + 11 + fuel = k + 10 + fuel + 1 by omega, expr, hdisjunction]
  cases hrest <;> rfl

/-- Neither a sign nor a negation comes first. -/
def Unsigned (tokens : List Token) : Prop :=
  ∀ token ∈ tokens.head?, token ∉ [Token.op "-", .op "+", .op "~", .word "not"]

theorem Unsigned.ne_cons (h : Unsigned tokens) {token : Token} {more : List Token}
    (hsign : token ∈ [Token.op "-", .op "+", .op "~", .word "not"]) : tokens ≠ token :: more := by
  rintro rfl
  exact h token rfl hsign

theorem factor_of_atom (hsign : Unsigned tokens) (hrest : Stops rest)
    (h : ∀ fuel, k ≤ fuel → atom (fuel + 1) tokens = some (t, rest)) :
    ∀ fuel, k + 2 ≤ fuel → factor fuel tokens = some (t, rest) := by
  intro fuel hfuel
  obtain ⟨fuel, rfl⟩ := Nat.exists_eq_add_of_le hfuel
  have htrailers : trailers (k + fuel + 1) t rest = some (t, rest) := by
    cases hrest <;> rfl
  rw [show k + 2 + fuel = k + fuel + 1 + 1 by omega, factor, h _ (Nat.le_add_right k fuel)]
  · rw [Option.bind_eq_bind, Option.bind_some]
    dsimp only
    rw [htrailers]
    cases hrest <;> rfl
  · exact fun more => hsign.ne_cons (by simp)
  · exact fun more => hsign.ne_cons (by simp)
  · exact fun more => hsign.ne_cons (by simp)

theorem expr_of_atom (hsign : Unsigned tokens) (hrest : Stops rest)
    (h : ∀ fuel, k ≤ fuel → atom (fuel + 1) tokens = some (t, rest)) :
    ∀ fuel, k + 13 ≤ fuel → expr fuel tokens = some (t, rest) := by
  refine expr_of_factor (fun hnot => hsign _ hnot (by simp)) hrest ?_
  exact factor_of_atom hsign hrest h

theorem expr_name (s : String) (hrest : Stops rest) :
    ∀ fuel, 13 ≤ fuel → expr fuel (.name s :: rest) = some (.name s, rest) :=
  expr_of_atom (k := 0) (by simp [Unsigned]) hrest fun _ _ => rfl

/-- An expression without commas is the whole of a list of tokens. -/
theorem exprList_of_expr (h : ∀ fuel, k + 1 ≤ fuel → expr fuel tokens = some (t, [])) {fuel : Nat}
    (hfuel : k + 2 ≤ fuel) : exprList fuel tokens = some (t, []) := by
  obtain ⟨fuel, rfl⟩ := Nat.exists_eq_add_of_le hfuel
  rw [show k + 2 + fuel = k + 1 + fuel + 1 by omega, exprList, h _ (by omega),
    show k + 1 + fuel = k + fuel + 1 by omega]
  rfl

end Term

/-! ## Written values -/

namespace Value

mutual

/-- Whether a value is a truth value, an integer that can be written, a text, or a list of such
values, with no more lists inside lists than given. -/
def isLiteral : Nat → Value → Bool
  | _, .bool _ => true
  | _, .int n => Text.isConvertible n
  | _, .str _ => true
  | depth, .list items => decide (0 < depth) && areLiterals (depth - 1) items
  | _, _ => false

def areLiterals : Nat → List Value → Bool
  | _, [] => true
  | depth, item :: items => item.isLiteral depth && areLiterals depth items

end

mutual

/-- The tokens of a written value. -/
def tokens : Value → List Token
  | .bool b => [.word (if b then "True" else "False")]
  | .int n => (if n < 0 then [.op "-"] else []) ++ [.int n.natAbs]
  | .str s => [.str s]
  | .list [] => [.op "[", .op "]"]
  | .list (item :: items) => .op "[" :: (item.tokens ++ tokensBehind items)
  | _ => []

/-- The tokens of a written list behind an item of it, given the items that follow. -/
def tokensBehind : List Value → List Token
  | [] => [.op "]"]
  | item :: items => .op "," :: (item.tokens ++ tokensBehind items)

end

mutual

/-- The term that a written value is read as. -/
def term : Value → Term
  | .int n =>
      let size := Term.value (.int (Int.ofNat n.natAbs))
      if n < 0 then .unary .neg size else size
  | .list items => .list (terms items)
  | v => .value v

def terms : List Value → List Term
  | [] => []
  | item :: items => item.term :: terms items

end

/-- The characters of a written list behind an item of it, given the items that follow. -/
def charsBehind (items : List Value) : List Char :=
  items.flatMap (fun item => ',' :: ' ' :: item.render.toList) ++ [']']

theorem toList_render_nil : (Value.list []).render.toList = ['[', ']'] := by
  decide

theorem toList_render_cons (item : Value) (items : List Value) :
    (Value.list (item :: items)).render.toList =
      '[' :: (item.render.toList ++ charsBehind items) := by
  have hjoin : ∀ (item : Value) (items : List Value),
      (", ".intercalate (renderAll (item :: items))).toList ++ [']'] =
        item.render.toList ++ charsBehind items := by
    intro item items
    induction items generalizing item with
    | nil => simp [renderAll, charsBehind]
    | cons other items ih =>
        have hrest := ih other
        simp only [String.toList_intercalate, renderAll, List.map_cons, charsBehind,
          List.flatMap_cons, List.intercalate_cons_cons, List.append_assoc] at hrest ⊢
        rw [hrest]
        rfl
  rw [render, String.toList_append, String.toList_append]
  exact congrArg ('[' :: ·) (hjoin item items)

theorem delimited_charsBehind (items : List Value) (rest : List Char) :
    Token.Delimited (charsBehind items ++ rest) := by
  cases items with
  | nil => exact fun c hc => .inr (Option.some.inj hc).symm
  | cons item items => exact fun c hc => .inl (Option.some.inj hc).symm

mutual

/-- A written value falls into its tokens. -/
theorem scans_render {depth level : Nat} {v : Value} (h : v.isLiteral depth = true)
    (hlevel : level + depth ≤ Token.maxDepth) {rest : List Char} (hrest : Token.Delimited rest)
    {tokens : List Token} (htokens : Token.Scans level rest tokens) :
    Token.Scans level (v.render.toList ++ rest) (v.tokens ++ tokens) := by
  cases v with
  | bool b =>
      have hbool := Token.Scans.bool b hrest htokens
      cases b <;> exact hbool
  | int n =>
      rw [Value.tokens, List.append_assoc]
      exact Token.Scans.showInt h hrest htokens
  | str s => exact Token.Scans.quote s hrest htokens
  | list items =>
      rw [isLiteral, Bool.and_eq_true, decide_eq_true_eq] at h
      cases items with
      | nil =>
          rw [toList_render_nil]
          exact htokens.closing.opening (by omega)
      | cons item items =>
          rw [areLiterals, Bool.and_eq_true] at h
          rw [toList_render_cons, Value.tokens, List.cons_append, List.cons_append,
            List.append_assoc, List.append_assoc]
          refine Token.Scans.opening (by omega) (scans_render h.2.1 (by omega) ?_ ?_)
          · exact delimited_charsBehind items rest
          · exact scans_charsBehind h.2.2 (by omega) htokens
  | none | real | tuple | range | record | builtin | formula | drained => cases h

theorem scans_charsBehind {depth level : Nat} {items : List Value}
    (h : areLiterals depth items = true) (hlevel : level + 1 + depth ≤ Token.maxDepth)
    {rest : List Char} {tokens : List Token} (htokens : Token.Scans level rest tokens) :
    Token.Scans (level + 1) (charsBehind items ++ rest) (tokensBehind items ++ tokens) := by
  cases items with
  | nil => exact htokens.closing
  | cons item items =>
      rw [areLiterals, Bool.and_eq_true] at h
      have hitem := scans_render h.1 hlevel (delimited_charsBehind items rest)
        (scans_charsBehind h.2 hlevel htokens)
      rw [tokensBehind, List.cons_append, List.append_assoc]
      have hchars : charsBehind (item :: items) ++ rest =
          ',' :: ' ' :: (item.render.toList ++ (charsBehind items ++ rest)) := by
        simp [charsBehind]
      rw [hchars]
      exact hitem.space.comma

end

/-! ## Values read -/

/-- A written value begins neither with a closing bracket nor with a name. -/
theorem head?_tokens_append {depth : Nat} {v : Value} (h : v.isLiteral depth = true)
    (rest : List Token) :
    (v.tokens ++ rest).head? ≠ some (.op "]") ∧
      ∀ s, (v.tokens ++ rest).head? ≠ some (.name s) := by
  cases v with
  | bool b => simp [tokens]
  | int n =>
      rw [tokens]
      split <;> simp
  | str s => simp [tokens]
  | list items => cases items <;> simp [tokens]
  | none | real | tuple | range | record | builtin | formula | drained => cases h

theorem stops_tokensBehind (items : List Value) (rest : List Token) :
    Term.Stops (tokensBehind items ++ rest) := by
  cases items with
  | nil => exact .bracket rest
  | cons item items => exact .comma _

theorem expr_int (n : Int) {rest : List Token} (hrest : Term.Stops rest) :
    ∀ fuel, 14 ≤ fuel → Term.expr fuel ((Value.int n).tokens ++ rest) =
      some ((Value.int n).term, rest) := by
  have hsize : ∀ fuel, 2 ≤ fuel → Term.factor fuel (.int n.natAbs :: rest) =
      some (.value (.int (Int.ofNat n.natAbs)), rest) :=
    Term.factor_of_atom (k := 0) (by simp [Term.Unsigned]) hrest fun _ _ => rfl
  intro fuel hfuel
  rw [tokens, term]
  split
  · refine Term.expr_of_factor (k := 3) (by simp) hrest (fun fuel hfuel => ?_) fuel hfuel
    obtain ⟨fuel, rfl⟩ := Nat.exists_eq_add_one_of_ne_zero (Nat.ne_zero_of_lt hfuel)
    change Term.factor (fuel + 1) (.op "-" :: .int n.natAbs :: rest) = _
    rw [Term.factor, hsize fuel (by omega)]
    rfl
  · exact Term.expr_of_factor (by simp) hrest hsize fuel (by omega)

/-- A bracket that is not closed at once holds a first item and further ones. -/
theorem atom_bracket {fuel : Nat} {tokens behind rest : List Token} {first : Term}
    {items : List Term} {comma : Bool} (hopen : tokens.head? ≠ some (.op "]"))
    (hfirst : Term.expr fuel tokens = some (first, behind)) (hstops : Term.Stops behind)
    (hitems : Term.more fuel behind = some (items, comma, .op "]" :: rest)) :
    Term.atom (fuel + 1) (.op "[" :: tokens) = some (.list (first :: items), rest) := by
  rw [Term.atom, hfirst]
  · cases hstops <;>
    · dsimp only [Option.bind_eq_bind, Option.bind_some]
      rw [hitems]
      rfl
  · rintro more rfl
    exact hopen rfl

mutual

/-- The tokens of a written value are read as its term. -/
theorem expr_tokens {depth : Nat} {v : Value} (h : v.isLiteral depth = true) {rest : List Token}
    (hrest : Term.Stops rest) : ∀ fuel, 14 * v.tokens.length ≤ fuel →
      Term.expr fuel (v.tokens ++ rest) = some (v.term, rest) := by
  -- Thirteen levels lie between an expression and what it is made of. A token more pays for them
  -- and for the step from one item to the next.
  cases v with
  | bool b =>
      intro fuel hfuel
      refine Term.expr_of_atom (k := 1) ?_ hrest (fun fuel hfuel => ?_) fuel hfuel
      · cases b <;> simp [Term.Unsigned, tokens]
      · cases b <;> rfl
  | int n =>
      intro fuel hfuel
      refine expr_int n hrest fuel ?_
      simp only [tokens, List.length_append, List.length_singleton] at hfuel
      omega
  | str s =>
      intro fuel hfuel
      refine Term.expr_of_atom (k := 1) (by simp [Term.Unsigned, tokens]) hrest
        (fun fuel hfuel => ?_) fuel hfuel
      have hjoin : Term.joinTexts (.str s :: rest) = (s, rest) := by
        cases hrest <;> simp [Term.joinTexts]
      rw [tokens, List.singleton_append, Term.atom]
      dsimp only
      rw [hjoin]
      rfl
  | list items =>
      rw [isLiteral, Bool.and_eq_true] at h
      cases items with
      | nil =>
          exact Term.expr_of_atom (k := 15) (by simp [Term.Unsigned, tokens]) hrest
            fun _ _ => rfl
      | cons item items =>
          rw [areLiterals, Bool.and_eq_true] at h
          intro fuel hfuel
          rw [tokens, List.length_cons, List.length_append] at hfuel
          refine Term.expr_of_atom
            (k := 14 * item.tokens.length + 14 * (tokensBehind items).length)
            (by simp [Term.Unsigned, tokens]) hrest (fun fuel hfuel => ?_) fuel (by omega)
          obtain ⟨comma, hbehind⟩ := more_tokensBehind h.2.2 rest fuel (by omega)
          have hitem := expr_tokens h.2.1 (stops_tokensBehind items rest) fuel (by omega)
          rw [tokens, List.cons_append, List.append_assoc]
          exact atom_bracket (head?_tokens_append h.2.1 _).1 hitem (stops_tokensBehind items rest)
            hbehind
  | none | real | tuple | range | record | builtin | formula | drained => cases h

theorem more_tokensBehind {depth : Nat} {items : List Value} (h : areLiterals depth items = true)
    (rest : List Token) : ∀ fuel, 14 * (tokensBehind items).length ≤ fuel →
      ∃ comma, Term.more fuel (tokensBehind items ++ rest) =
        some (terms items, comma, .op "]" :: rest) := by
  cases items with
  | nil =>
      intro fuel hfuel
      rw [tokensBehind, List.length_singleton] at hfuel
      obtain ⟨fuel, rfl⟩ := Nat.exists_eq_add_one_of_ne_zero (show fuel ≠ 0 by omega)
      exact ⟨false, rfl⟩
  | cons item items =>
      rw [areLiterals, Bool.and_eq_true] at h
      intro fuel hfuel
      rw [tokensBehind, List.length_cons, List.length_append] at hfuel
      obtain ⟨fuel, rfl⟩ := Nat.exists_eq_add_one_of_ne_zero (show fuel ≠ 0 by omega)
      obtain ⟨comma, hbehind⟩ := more_tokensBehind h.2 rest fuel (by omega)
      have hitem := expr_tokens h.1 (stops_tokensBehind items rest) fuel (by omega)
      refine ⟨true, ?_⟩
      rw [tokensBehind, List.cons_append, List.append_assoc, Term.more, hitem]
      dsimp only
      rw [hbehind]
      rfl

end

mutual

/-- The term of a written value has the value, whatever is in scope. -/
theorem eval_term {depth : Nat} {v : Value} (h : v.isLiteral depth = true) (scope : Scope) :
    v.term.eval scope = some v := by
  cases v with
  | bool b => rfl
  | int n =>
      rw [term]
      split
      · have hneg : -(n.natAbs : Int) = n := by omega
        exact congrArg (fun m => some (Value.int m)) hneg
      · have hpos : (n.natAbs : Int) = n := by omega
        exact congrArg (fun m => some (Value.int m)) hpos
  | str s => rfl
  | list items =>
      rw [isLiteral, Bool.and_eq_true] at h
      rw [term, Term.eval, evalAll_terms h.2]
      rfl
  | none | real | tuple | range | record | builtin | formula | drained => cases h

theorem evalAll_terms {depth : Nat} {items : List Value} (h : areLiterals depth items = true)
    (scope : Scope) : Term.evalAll (terms items) scope = some items := by
  cases items with
  | nil => rfl
  | cons item items =>
      rw [areLiterals, Bool.and_eq_true] at h
      rw [terms, Term.evalAll, eval_term h.1, evalAll_terms h.2]
      rfl

end

mutual

theorem isWritable_of_isLiteral {depth : Nat} {v : Value} (h : v.isLiteral depth = true) :
    v.isWritable = true := by
  cases v with
  | bool b => rfl
  | int n => exact h
  | str s => rfl
  | list items =>
      rw [isLiteral, Bool.and_eq_true] at h
      exact areWritable_of_areLiterals h.2
  | none | real | tuple | range | record | builtin | formula | drained => cases h

theorem areWritable_of_areLiterals {depth : Nat} {items : List Value}
    (h : areLiterals depth items = true) : areWritable items = true := by
  cases items with
  | nil => rfl
  | cons item items =>
      rw [areLiterals, Bool.and_eq_true] at h
      rw [areWritable, Bool.and_eq_true]
      exact ⟨isWritable_of_isLiteral h.1, areWritable_of_areLiterals h.2⟩

end

end Value

/-! ## Assignments -/

/-- A name alone is an expression. -/
theorem Term.parse?_name {name : String} (hname : Token.isName name = true) :
    Term.parse? name = some (.name (Token.canonical name)) := by
  have hscan : Token.scan name.toList = some [.name (Token.canonical name)] := by
    have hline := Token.Scans.name hname (by simp) Token.Scans.nil
    have hfound := Token.scan_name hname List.not_mem_nil hline
    rwa [List.append_nil] at hfound
  have hlead : (name.toList.dropWhile fun c => c == ' ' || c == '\t') = name.toList := by
    have hword := Token.isWordChar_of_isName hname
    cases hlist : name.toList with
    | nil => rfl
    | cons c word =>
        have hspace := Token.isSpace_of_isWordChar (hword c (hlist ▸ List.mem_cons_self))
        simp only [Token.isSpace, Bool.or_eq_false_iff] at hspace
        simp [hspace.1]
  have hexpr := Term.exprList_of_expr (k := 12) (Term.expr_name (Token.canonical name) .nil)
    (show 14 ≤ Term.fuelFor [.name (Token.canonical name)] by simp [Term.fuelFor])
  simp only [Term.parse?, hlead, hscan, Option.bind_eq_bind, Option.bind_some, Term.ofTokens?,
    hexpr]
  rfl

/-- A name, an equals sign and an expression make up an assignment. -/
theorem Assignment.parse?_line {name text : String} (hname : Token.isName name = true)
    (hbreak : '\r' ∉ text.toList) {tokens : List Token} (hscan : Token.Scans 0 text.toList tokens)
    (hhead : Assignment.heads tokens = ([], tokens)) {t : Term}
    (hterm : Term.exprList (Term.fuelFor tokens) tokens = some (t, [])) :
    Assignment.parse? (name ++ " = " ++ text) = some [⟨[Token.canonical name], t⟩] := by
  have hline : Token.Scans 0 (name.toList ++ ' ' :: '=' :: ' ' :: text.toList)
      (.name (Token.canonical name) :: .op "=" :: tokens) := by
    refine Token.Scans.name hname (fun c hc => ?_) hscan.space.equals.space
    rw [← Option.some.inj hc]
    decide
  have htext : (name ++ " = " ++ text).toList =
      name.toList ++ ' ' :: '=' :: ' ' :: text.toList := by
    simp [String.toList_append]
  have hfound := Token.scan_name hname (by simp [hbreak]) hline
  rw [Assignment.parse?, htext, hfound, Option.bind_eq_bind, Option.bind_some, List.length_cons,
    Assignment.ofTokens?, Assignment.heads, hhead]
  · dsimp only
    rw [hterm]
    rfl
  · simp

/-- A value that is no text is assigned as it is written. -/
theorem Assignment.parse?_value {name : String} (hname : Token.isName name = true) {v : Value}
    (h : v.isLiteral Token.maxDepth = true) :
    Assignment.parse? (name ++ " = " ++ v.render) = some [⟨[Token.canonical name], v.term⟩] := by
  have hscan := Value.scans_render h (Nat.le_of_eq (Nat.zero_add _))
    (show Token.Delimited [] by simp [Token.Delimited]) Token.Scans.nil
  -- No further name is assigned, since a written value does not begin with one.
  have hhead : Assignment.heads v.tokens = ([], v.tokens) := by
    have hname := (Value.head?_tokens_append h []).2
    rw [List.append_nil] at hname
    unfold Assignment.heads
    split
    · rename_i heq
      exact absurd (congrArg List.head? heq) (hname _)
    · rfl
  have hexpr := Value.expr_tokens h .nil
  rw [List.append_nil, List.append_nil] at hscan
  rw [List.append_nil] at hexpr
  refine Assignment.parse?_line hname (Value.break_not_mem_render (.inr rfl) v) hscan hhead ?_
  refine Term.exprList_of_expr (k := 14 * v.tokens.length) (fun fuel hfuel => ?_) ?_
  · exact hexpr fuel (by omega)
  · rw [Term.fuelFor]
    omega

/-- A text that spells a name assigns what the name stands for. -/
theorem Assignment.parse?_name {name other : String} (hname : Token.isName name = true)
    (hother : Token.isName other = true) :
    Assignment.parse? (name ++ " = " ++ other) =
      some [⟨[Token.canonical name], .name (Token.canonical other)⟩] := by
  have hscan := Token.Scans.name hother (by simp) Token.Scans.nil
  rw [List.append_nil] at hscan
  have hbreak : '\r' ∉ other.toList := fun hmem =>
    absurd (Token.isWordChar_of_isName hother _ hmem) (by decide)
  refine Assignment.parse?_line hname hbreak hscan rfl ?_
  exact Term.exprList_of_expr (k := 12) (Term.expr_name _ .nil) (by simp [Term.fuelFor])

end QuantFamily.Expr
