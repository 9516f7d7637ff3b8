import QuantFamily.Text.Numeral

/-!
# Sample families

Families of formulas with one size parameter, written in the definition language. They
cover the three formats and all ways to define blocks.
-/

namespace QuantFamily.Benchmark

/-- A family with one size parameter. -/
structure Sample where
  name : String
  format : String
  /-- The name of the size. -/
  size : String
  /-- The condition on the size. -/
  constraint : String
  vars : List String
  blocks : List String

namespace Sample

/-- Items between braces. -/
def braced (head : String) (items : List String) : String :=
  head ++ " \x7b\n    " ++ "\n    ".intercalate items ++ "\n\x7d"

/-- The text that defines a family. Its output block is always called `Phi`. -/
def definition (sample : Sample) : String :=
  "name: " ++ sample.name ++ ";\n" ++
    "format: " ++ sample.format ++ ";\n\n" ++
    braced "parameters:" [sample.size ++ " : int, `" ++ sample.constraint ++ "`;"] ++ "\n\n" ++
    braced "variables:" sample.vars ++ "\n\n" ++
    braced "blocks:" sample.blocks ++ "\n\n" ++
    "output block: Phi;\n"

/-- The text that gives the size. -/
def values (sample : Sample) (size : Int) : String :=
  "value: " ++ sample.size ++ " = `" ++ Text.showInt size ++ "`;\n"

/-- Definitions that belong to one grouping. -/
def grouped (grouping : String) (definitions : List String) (conditions : String) : String :=
  braced ("define blocks grouped in " ++ grouping) definitions ++ " where " ++ conditions ++ ";"

/-- A definition for all valuations of its indices. -/
def indexed (definition conditions : String) : String :=
  braced "define blocks" [definition] ++ " where " ++ conditions ++ ";"

/-- The KBKF family: clauses over variables whose quantifiers alternate. -/
def alternation : Sample where
  name := "FAST KBKF"
  format := "CNF"
  size := "t"
  constraint := "t >= 1"
  vars := [
    "x(i) where i in 1..t;",
    "y(0);",
    "y(i, j) where i in 1..t, j in 0..1;",
    "y(i) where i in `t+1`..`t+t`;"]
  blocks := [
    grouped "X" ["X(i) := x(i);"] "i in 1..t",
    "define block Y(0) := y(0);",
    grouped "Y" ["Y(i) := y(i, 0), y(i, 1);"] "i in 1..t",
    indexed "YRest := y(j);" "j in `t+1`..`t+t`",
    grouped "Pairs" ["Pair(i) := Y(i), X(i);"] "i in 1..t",
    "define block Q := Y(0), all blocks in Pairs, YRest;",
    "block Y(0) quantified with E;",
    "all blocks in X quantified with A;",
    "all blocks in Y quantified with E;",
    "block YRest quantified with E;",
    "define block CMinus := -y(0);",
    "define block C(0) := y(0), -y(1, 0), -y(1,1);",
    grouped "C1" ["C(i, j) := y(i, j), x(i), -y(s1, 0), -y(s1, 1);"]
      "i in 1..`t-1`, j in 0..1, s1 = `i+1`",
    grouped "C2" ["C(t, j) := y(t, j), x(t), -y(k);"] "j in 0..1, k in `t+1`..`t+t`",
    grouped "C3" ["C(s2, 0) := x(l), y(s2);", "C(s2, 1) := -x(l), y(s2);"]
      "l in 1..t, s2 = `t+l`",
    "define block F := CMinus, C(0), all blocks in C1, all blocks in C2, all blocks in C3;",
    "block C(0) operated with OR;",
    "all blocks in C1 operated with OR;",
    "all blocks in C2 operated with OR;",
    "all blocks in C3 operated with OR;",
    "block F operated with AND;",
    "define block Phi := Q, F;"]

/-- Clauses over pairs of variables with alternating quantifiers. -/
def pairs : Sample where
  name := "Example 2"
  format := "CNF"
  size := "n"
  constraint := "n >= 1"
  vars := ["x(i) where i in 1..n;", "y(i) where i in 1..n;"]
  blocks := [
    grouped "QX" ["QX(i) := x(i);"] "i in 1..n",
    grouped "QY" ["QY(i) := y(i);"] "i in 1..n",
    grouped "QXY" ["QXY(i) := QX(i), QY(i);"] "i in 1..n",
    "define block Q := all blocks in QXY;",
    "all blocks in QX quantified with E;",
    "all blocks in QY quantified with A;",
    indexed "X := -x(i);" "i in 1..n",
    grouped "XY" ["XY(i) := x(i), y(i);"] "i in 1..n",
    "define block F := X, all blocks in XY;",
    "block X operated with OR;",
    "all blocks in XY operated with OR;",
    "block F operated with AND;",
    "define block Phi := Q, F;"]

/-- The parity of the existential variables differs from a universal one. -/
def parity : Sample where
  name := "QParity"
  format := "circuit-prenex"
  size := "n"
  constraint := "n >= 2"
  vars := ["x(i) where i in 1..n;", "z;"]
  blocks := [
    indexed "X := x(i);" "i in 1..n",
    "define block Z := z;",
    "define block Q := X, Z;",
    "block X quantified with E;",
    "block Z quantified with A;",
    grouped "T" ["T(2) := x(1), x(2);", "T(i) := T(s), x(i);"] "i in 3..n, s = `i-1`",
    braced "define blocks grouped in Ro" ["Ro1 := z, T(n);", "Ro2 := -z, -T(n);"] ++ ";",
    "define block F := Ro1, Ro2;",
    "all blocks in T operated with XOR;",
    "all blocks in Ro operated with OR;",
    "block F operated with AND;",
    "define block Phi := Q, F;"]

/-- A chain of parities next to one gate of each other operator. -/
def operators : Sample where
  name := "Operators"
  format := "circuit-prenex"
  size := "n"
  constraint := "n >= 3"
  vars := ["x(i) where i in 1..n;", "z;", "a;", "b;", "c;"]
  blocks := [
    indexed "X := x(i);" "i in 1..n",
    "define block Z := z;",
    "define block W := a, b, c;",
    "define block Q := X, Z, W;",
    "block X quantified with E;",
    "block Z quantified with A;",
    "block W quantified with E;",
    grouped "T" ["T(2) := x(1), x(2);", "T(i) := T(s), x(i);"] "i in 3..n, s = `i-1`",
    "all blocks in T operated with XOR;",
    "define block Rho := T(n), z;",
    "block Rho operated with XOR;",
    "define block I := a, b;",
    "block I operated with =>;",
    "define block D := b, c;",
    "block D operated with <=>;",
    "define block J := a, b, c;",
    "block J operated with ITE;",
    "define block O := a;",
    "block O operated with OR;",
    "define block F := Rho, I, D, J, O;",
    "block F operated with AND;",
    "define block Phi := Q, F;"]

/-- A quantifier below every conjunct. -/
def nested : Sample where
  name := "Nested"
  format := "circuit-nonprenex"
  size := "n"
  constraint := "n >= 1"
  vars := ["x(i) where i in 1..n;", "z;"]
  blocks := [
    grouped "G" ["G(i) := x(i), z;"] "i in 1..n",
    "all blocks in G operated with XOR;",
    grouped "XQ" ["XQ(i) := x(i);"] "i in 1..n",
    "all blocks in XQ quantified with E;",
    "define block ZQ := z;",
    "block ZQ quantified with A;",
    grouped "H" ["H(i) := XQ(i), G(i);"] "i in 1..n",
    "define block F := all blocks in H;",
    "block F operated with AND;",
    "define block Phi := ZQ, F;"]

end Sample

end QuantFamily.Benchmark
