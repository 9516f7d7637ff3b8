import QuantFamily.Benchmark.Value
import QuantFamily.Proofs.Digest.Text
import QuantFamily.Proofs.Text.Numeral

/-!
# The parts of a value

The bytes of a value of nothing, truth values, whole numbers, texts, lists and tuples are the bytes
of a sequence of parts: one part for each scalar, and for each list a part that counts its items, in
front of the parts of the items. The sequence of parts says everything about the value, except
whether it has lists or tuples. Nothing stands between the parts.
-/

namespace QuantFamily.Benchmark

open Digest

/-- A scalar, or the count in front of the items of a list. -/
inductive Part where
  | none
  | truth (b : Bool)
  | count (n : Nat)
  | whole (n : Int)
  | text (s : String)
deriving DecidableEq

namespace Part

/-- How a part is written. -/
def shown : Part → String
  | none => "None"
  | truth b => Value.boolText b
  | count n => "L" ++ Nat.repr n
  | whole n => Text.showInt n
  | text s => "s" ++ s

/-- The number of values that belong to a part and follow it. -/
def arity : Part → Nat
  | count n => n
  | _ => 0

/-- The characters of a sequence of parts. -/
def written (ps : List Part) : List Char :=
  ps.flatMap fun p => p.shown.toList

@[simp] theorem written_nil : written [] = [] := rfl

@[simp] theorem written_cons (p : Part) (ps : List Part) :
    written (p :: ps) = p.shown.toList ++ written ps := rfl

@[simp] theorem written_append (ps qs : List Part) :
    written (ps ++ qs) = written ps ++ written qs :=
  List.flatMap_append

/-- The sequence is made of the parts of the given number of values. -/
def Complete : Nat → List Part → Prop
  | pending, [] => pending = 0
  | 0, _ :: _ => False
  | pending + 1, p :: ps => Complete (pending + p.arity) ps

theorem Complete.exists_of_cons {pending : Nat} {p : Part} {ps : List Part}
    (h : Complete pending (p :: ps)) :
    ∃ rest, pending = rest + 1 ∧ Complete (rest + p.arity) ps := by
  cases pending with
  | zero => exact h.elim
  | succ rest => exact ⟨rest, rfl, h⟩

end Part

namespace Value

/-! ## Values made of parts -/

/-- A value of nothing, truth values, whole numbers, texts, lists and tuples, in which every part
has at most the given number of lists around it, and no list is longer than counts. -/
inductive Plain : Nat → Value → Prop
  | none {room : Nat} : Plain room .none
  | bool {room : Nat} (b : Bool) : Plain room (.bool b)
  | int {room : Nat} (n : Int) : Plain room (.int n)
  | str {room : Nat} (s : String) : Plain room (.str s)
  | list {room : Nat} {items : List Value} (hlength : items.length ≤ lengthLimit)
      (hitems : ∀ item ∈ items, Plain room item) : Plain (room + 1) (.list items)
  | tuple {room : Nat} {items : List Value} (hlength : items.length ≤ lengthLimit)
      (hitems : ∀ item ∈ items, Plain room item) : Plain (room + 1) (.tuple items)

mutual

/-- The parts of a value. -/
def parts : Value → List Part
  | .none => [.none]
  | .bool b => [.truth b]
  | .int n => [.whole n]
  | .str s => [.text s]
  | .list items => .count items.length :: partsAll items
  | .tuple items => .count items.length :: partsAll items
  | _ => []

/-- The parts of several values. -/
def partsAll : List Value → List Part
  | [] => []
  | item :: items => parts item ++ partsAll items

end

mutual

/-- A value with lists in the place of tuples. -/
def asLists : Value → Value
  | .list items => .list (asListsAll items)
  | .tuple items => .list (asListsAll items)
  | v => v

/-- Several values with lists in the place of tuples. -/
def asListsAll : List Value → List Value
  | [] => []
  | item :: items => asLists item :: asListsAll items

end

theorem length_asListsAll (items : List Value) : (asListsAll items).length = items.length := by
  induction items with
  | nil => rfl
  | cons item items ih => rw [asListsAll, List.length_cons, List.length_cons, ih]

theorem length_streams (depth : Nat) (items : List Value) :
    (streams depth items).length = items.length := by
  induction items with
  | nil => rfl
  | cons item items ih => rw [streams, List.length_cons, List.length_cons, ih]

/-! ## The bytes of parts -/

theorem bytesOf_ofList_append (xs ys : List Char) :
    bytesOf (String.ofList (xs ++ ys)) =
      bytesOf (String.ofList xs) ++ bytesOf (String.ofList ys) := by
  rw [String.ofList_append, bytesOf_append]

theorem framedList_streams {depth : Nat} {items : List Value} (hlength : items.length ≤ lengthLimit)
    (hitems : ∀ item ∈ items,
      item.stream depth = bytesOf (String.ofList (Part.written item.parts))) :
    framedList (streams depth items) =
      bytesOf (String.ofList (Part.written (.count items.length :: partsAll items))) := by
  have hflat : (streams depth items).flatten =
      bytesOf (String.ofList (Part.written (partsAll items))) := by
    clear hlength
    induction items with
    | nil => rw [bytesOf_eq_flatMap]; rfl
    | cons item items ih =>
        rw [List.forall_mem_cons] at hitems
        rw [streams, List.flatten_cons, hitems.1, ih hitems.2, partsAll, Part.written_append,
          bytesOf_ofList_append]
  rw [framedList, List.take_of_length_le (by rw [length_streams]; exact hlength), hflat,
    length_streams, Part.written_cons, bytesOf_ofList_append, String.ofList_toList]
  rfl

/-- The bytes of a value at a depth from which all of it counts. -/
theorem Plain.stream_eq {room depth : Nat} {v : Value} (h : Plain room v)
    (hdepth : depth + room ≤ depthLimit) :
    v.stream depth = bytesOf (String.ofList (Part.written v.parts)) := by
  induction h generalizing depth with
  | none | bool | int =>
      rw [stream, if_neg (by omega)]
      simp [parts, Part.shown]
  | str =>
      rw [stream, if_neg (by omega), streamText, if_neg (by omega)]
      simp [parts, Part.shown]
  | list hlength _ ih | tuple hlength _ ih =>
      rw [stream, if_neg (by omega), parts]
      exact framedList_streams hlength fun item hitem => ih item hitem (by omega)

theorem stream_eq_iff {v w : Value} (hv : Plain depthLimit v) (hw : Plain depthLimit w) :
    v.stream 0 = w.stream 0 ↔ Part.written v.parts = Part.written w.parts := by
  rw [hv.stream_eq (Nat.le_of_eq (Nat.zero_add _)), hw.stream_eq (Nat.le_of_eq (Nat.zero_add _))]
  exact ⟨fun h => String.ofList_injective (bytesOf_injective h), fun h => by rw [h]⟩

/-! ## Values from their parts -/

/-- The values that a sequence of parts stands for, from the last part to the first: a count takes
its items off the values behind it. -/
def rebuild : List Part → List Value
  | [] => []
  | .none :: ps => .none :: rebuild ps
  | .truth b :: ps => .bool b :: rebuild ps
  | .whole n :: ps => .int n :: rebuild ps
  | .text s :: ps => .str s :: rebuild ps
  | .count n :: ps => .list ((rebuild ps).take n) :: (rebuild ps).drop n

theorem rebuild_partsAll {items : List Value} (ps : List Part)
    (hitems : ∀ item ∈ items, ∀ ps, rebuild (item.parts ++ ps) = item.asLists :: rebuild ps) :
    rebuild (partsAll items ++ ps) = asListsAll items ++ rebuild ps := by
  induction items with
  | nil => rfl
  | cons item items ih =>
      rw [List.forall_mem_cons] at hitems
      rw [partsAll, List.append_assoc, hitems.1, ih hitems.2, asListsAll, List.cons_append]

theorem rebuild_count_partsAll {items : List Value} (ps : List Part)
    (hitems : ∀ item ∈ items, ∀ ps, rebuild (item.parts ++ ps) = item.asLists :: rebuild ps) :
    rebuild (.count items.length :: partsAll items ++ ps) =
      .list (asListsAll items) :: rebuild ps := by
  rw [List.cons_append, rebuild, rebuild_partsAll ps hitems, ← length_asListsAll items,
    List.take_left, List.drop_left]

theorem Plain.rebuild_parts {room : Nat} {v : Value} (h : Plain room v) (ps : List Part) :
    rebuild (v.parts ++ ps) = v.asLists :: rebuild ps := by
  induction h generalizing ps with
  | none | bool | int | str => simp [parts, rebuild, asLists]
  | list _ _ ih | tuple _ _ ih =>
      rw [parts, asLists]
      exact rebuild_count_partsAll ps ih

theorem partsAll_asListsAll {items : List Value}
    (hitems : ∀ item ∈ items, item.asLists.parts = item.parts) :
    partsAll (asListsAll items) = partsAll items := by
  induction items with
  | nil => rfl
  | cons item items ih =>
      rw [List.forall_mem_cons] at hitems
      rw [asListsAll, partsAll, hitems.1, ih hitems.2, partsAll]

theorem Plain.parts_asLists {room : Nat} {v : Value} (h : Plain room v) :
    v.asLists.parts = v.parts := by
  induction h with
  | none | bool | int | str => simp [asLists]
  | list _ _ ih | tuple _ _ ih =>
      rw [asLists, parts, parts, length_asListsAll, partsAll_asListsAll ih]

/-- Two values have the same parts exactly if they are the same with lists for tuples. -/
theorem Plain.parts_eq_iff {room room' : Nat} {v w : Value} (hv : Plain room v)
    (hw : Plain room' w) : v.parts = w.parts ↔ v.asLists = w.asLists := by
  constructor
  · intro h
    have hbuilt := hv.rebuild_parts []
    rw [h, hw.rebuild_parts []] at hbuilt
    exact (List.cons.inj hbuilt).1.symm
  · intro h
    rw [← hv.parts_asLists, h, hw.parts_asLists]

/-! ## Complete sequences -/

theorem complete_partsAll {items : List Value} {pending : Nat} {ps : List Part}
    (hitems : ∀ item ∈ items, ∀ pending ps, Part.Complete pending ps →
      Part.Complete (pending + 1) (item.parts ++ ps)) (h : Part.Complete pending ps) :
    Part.Complete (pending + items.length) (partsAll items ++ ps) := by
  induction items with
  | nil => exact h
  | cons item items ih =>
      rw [List.forall_mem_cons] at hitems
      rw [partsAll, List.append_assoc]
      exact hitems.1 _ _ (ih hitems.2)

theorem Plain.complete_parts {room : Nat} {v : Value} (h : Plain room v) (pending : Nat)
    (ps : List Part) (hps : Part.Complete pending ps) :
    Part.Complete (pending + 1) (v.parts ++ ps) := by
  induction h generalizing pending ps with
  | none | bool | int | str => exact hps
  | list _ _ ih | tuple _ _ ih =>
      rw [parts]
      exact complete_partsAll ih hps

end Value

end QuantFamily.Benchmark
