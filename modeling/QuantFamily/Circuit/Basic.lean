import QuantFamily.Text.Numeral
import QuantFamily.Text.Quoted

/-!
# Circuits

A circuit is a literal, a constant, a negation, or a gate over circuits. Two circuits with
the same structure are the same circuit, so a gate that is used twice is one gate.
-/

namespace QuantFamily

/-- A circuit. Gates outside the four known kinds carry a name; nothing but their text is
known of them. -/
inductive Circuit where
  | lit (n : Int)
  | const (b : Bool)
  | neg (c : Circuit)
  | and (args : List Circuit)
  | or (args : List Circuit)
  | xor (a b : Circuit)
  | ite (c t e : Circuit)
  | other (name : String) (args : List Circuit)

namespace Circuit

mutual

/-- Equality of circuits. A circuit that is stored once is equal to itself at once. -/
def decEq (a b : Circuit) : Decidable (a = b) :=
  withPtrEqDecEq a b fun _ =>
    match a, b with
    | .lit m, .lit n =>
        if h : m = n then isTrue (by rw [h]) else isFalse (by intro e; cases e; exact h rfl)
    | .const p, .const q =>
        if h : p = q then isTrue (by rw [h]) else isFalse (by intro e; cases e; exact h rfl)
    | .neg c, .neg d =>
        match decEq c d with
        | isTrue h => isTrue (by rw [h])
        | isFalse h => isFalse (by intro e; cases e; exact h rfl)
    | .and xs, .and ys =>
        match decEqAll xs ys with
        | isTrue h => isTrue (by rw [h])
        | isFalse h => isFalse (by intro e; cases e; exact h rfl)
    | .or xs, .or ys =>
        match decEqAll xs ys with
        | isTrue h => isTrue (by rw [h])
        | isFalse h => isFalse (by intro e; cases e; exact h rfl)
    | .xor x y, .xor x' y' =>
        match decEq x x' with
        | isFalse h => isFalse (by intro e; cases e; exact h rfl)
        | isTrue h =>
            match decEq y y' with
            | isFalse h => isFalse (by intro e; cases e; exact h rfl)
            | isTrue h' => isTrue (by rw [h, h'])
    | .ite c t e, .ite c' t' e' =>
        match decEq c c' with
        | isFalse h => isFalse (by intro e; cases e; exact h rfl)
        | isTrue h =>
            match decEq t t' with
            | isFalse h => isFalse (by intro e; cases e; exact h rfl)
            | isTrue h' =>
                match decEq e e' with
                | isFalse h => isFalse (by intro e; cases e; exact h rfl)
                | isTrue h'' => isTrue (by rw [h, h', h''])
    | .other m xs, .other n ys =>
        if h : m = n then
          match decEqAll xs ys with
          | isTrue h' => isTrue (by rw [h, h'])
          | isFalse h => isFalse (by intro e; cases e; exact h rfl)
        else isFalse (by intro e; cases e; exact h rfl)
    | .lit _, .const _ | .lit _, .neg _ | .lit _, .and _ | .lit _, .or _ | .lit _, .xor _ _
    | .lit _, .ite _ _ _ | .lit _, .other _ _
    | .const _, .lit _ | .const _, .neg _ | .const _, .and _ | .const _, .or _
    | .const _, .xor _ _ | .const _, .ite _ _ _ | .const _, .other _ _
    | .neg _, .lit _ | .neg _, .const _ | .neg _, .and _ | .neg _, .or _ | .neg _, .xor _ _
    | .neg _, .ite _ _ _ | .neg _, .other _ _
    | .and _, .lit _ | .and _, .const _ | .and _, .neg _ | .and _, .or _ | .and _, .xor _ _
    | .and _, .ite _ _ _ | .and _, .other _ _
    | .or _, .lit _ | .or _, .const _ | .or _, .neg _ | .or _, .and _ | .or _, .xor _ _
    | .or _, .ite _ _ _ | .or _, .other _ _
    | .xor _ _, .lit _ | .xor _ _, .const _ | .xor _ _, .neg _ | .xor _ _, .and _
    | .xor _ _, .or _ | .xor _ _, .ite _ _ _ | .xor _ _, .other _ _
    | .ite _ _ _, .lit _ | .ite _ _ _, .const _ | .ite _ _ _, .neg _ | .ite _ _ _, .and _
    | .ite _ _ _, .or _ | .ite _ _ _, .xor _ _ | .ite _ _ _, .other _ _
    | .other _ _, .lit _ | .other _ _, .const _ | .other _ _, .neg _ | .other _ _, .and _
    | .other _ _, .or _ | .other _ _, .xor _ _ | .other _ _, .ite _ _ _ =>
        isFalse (by intro e; cases e)

/-- Equality of lists of circuits. -/
def decEqAll : (xs ys : List Circuit) -> Decidable (xs = ys)
  | [], [] => isTrue rfl
  | [], _ :: _ => isFalse (by intro e; cases e)
  | _ :: _, [] => isFalse (by intro e; cases e)
  | x :: xs, y :: ys =>
      match decEq x y with
      | isFalse h => isFalse (by intro e; cases e; exact h rfl)
      | isTrue h =>
          match decEqAll xs ys with
          | isFalse h => isFalse (by intro e; cases e; exact h rfl)
          | isTrue h' => isTrue (by rw [h, h'])

end

instance : DecidableEq Circuit := decEq

/-- Whether a circuit is a literal. -/
def isLit : Circuit -> Bool
  | .lit _ => true
  | _ => false

/-- The negation of a circuit; a literal changes its sign and a negation loses its own. -/
def negate : Circuit -> Circuit
  | .lit n => .lit (-n)
  | .neg c => c
  | c => .neg c

/-- The inputs of a circuit. -/
def inputs : Circuit -> List Circuit
  | .lit _ => []
  | .const _ => []
  | .neg c => [c]
  | .and args => args
  | .or args => args
  | .xor a b => [a, b]
  | .ite c t e => [c, t, e]
  | .other _ args => args

/-- The name of the kind of a circuit. -/
def word : Circuit -> String
  | .lit _ => "literal"
  | .const true => "True"
  | .const false => "False"
  | .neg _ => "not"
  | .and _ => "and"
  | .or _ => "or"
  | .xor _ _ => "xor"
  | .ite _ _ _ => "ite"
  | .other name _ => name

/-- The gate of a kind over given inputs. Parity takes two of them and choice three; a
negation is not simplified. -/
def ofWord? (word : String) (args : List Circuit) : Option Circuit :=
  match word, args with
  | "not", [c] => some (.neg c)
  | "and", args => some (.and args)
  | "or", args => some (.or args)
  | "xor", [a, b] => some (.xor a b)
  | "xor", _ => none
  | "ite", [c, t, e] => some (.ite c t e)
  | "ite", _ => none
  | name, args => some (.other name args)

/-- Whether a circuit has no inputs although it is not a literal. -/
def isBare (c : Circuit) : Bool :=
  !c.isLit && c.inputs.isEmpty

mutual

/-- A circuit in round brackets, its kind before its inputs. -/
def text : Circuit -> String
  | .lit n => Text.showInt n
  | .const true => "(True,)"
  | .const false => "(False,)"
  | .neg c => "('not', " ++ text c ++ ")"
  | .and args => bracketed "'and'" (texts args)
  | .or args => bracketed "'or'" (texts args)
  | .xor a b => "('xor', " ++ text a ++ ", " ++ text b ++ ")"
  | .ite c t e => "('ite', " ++ text c ++ ", " ++ text t ++ ", " ++ text e ++ ")"
  | .other name args => bracketed (Text.quote name) (texts args)

/-- The texts of circuits. -/
def texts : List Circuit -> List String
  | [] => []
  | c :: cs => text c :: texts cs

/-- A kind and inputs in round brackets. -/
def bracketed (kind : String) : List String -> String
  | [] => "(" ++ kind ++ ",)"
  | args => "(" ++ ", ".intercalate (kind :: args) ++ ")"

end

mutual

/-- The variables of a circuit, one for each occurrence. -/
def occurrences : Circuit -> List Nat
  | .lit n => [n.natAbs]
  | .const _ => []
  | .neg c => occurrences c
  | .and args => occurrencesAll args
  | .or args => occurrencesAll args
  | .xor a b => occurrences a ++ occurrences b
  | .ite c t e => occurrences c ++ occurrences t ++ occurrences e
  | .other _ args => occurrencesAll args

/-- The variables of circuits. -/
def occurrencesAll : List Circuit -> List Nat
  | [] => []
  | c :: cs => occurrences c ++ occurrencesAll cs

end

/-- The variables of a circuit in ascending order. -/
def vars (c : Circuit) : List Nat :=
  (c.occurrences.mergeSort fun a b => decide (a ≤ b)).eraseDups

mutual

/-- A bound on how deep the simplification of a circuit can go: every level counts once,
and a choice gate counts for the gate it may be turned into as well. -/
def rank : Circuit -> Nat
  | .lit _ => 1
  | .const _ => 1
  | .neg c => rank c + 1
  | .and args => rankAll args + 1
  | .or args => rankAll args + 1
  | .xor a b => max (rank a) (rank b) + 2
  | .ite c t e => max (rank c) (max (rank t) (rank e)) + 3
  | .other _ args => rankAll args + 1

/-- The largest rank of circuits. -/
def rankAll : List Circuit -> Nat
  | [] => 0
  | c :: cs => max (rank c) (rankAll cs)

end

end Circuit

end QuantFamily
