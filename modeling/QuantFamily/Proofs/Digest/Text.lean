import QuantFamily.Digest.Sha256
import QuantFamily.Text.Numeral

/-!
# Texts as bytes, digests as texts

A text is the sequence of the bytes of its characters, so texts joined are bytes joined, and no two
texts have the same bytes. A digest is written with eight digits for each of its words, so two
digests that are written alike are the same. What is left to chance are collisions: different bytes
with one digest.
-/

namespace QuantFamily

/-! ## Bytes of texts -/

namespace Digest

theorem toList_loop_eq (bytes : ByteArray) (i : Nat) (front : Bytes) :
    ByteArray.toList.loop bytes i front = front.reverse ++ bytes.data.toList.drop i := by
  fun_induction ByteArray.toList.loop bytes i front with
  | case1 i front h ih =>
      have hi : i < bytes.data.toList.length := by simpa using h
      rw [ih, List.drop_eq_getElem_cons hi]
      simp [ByteArray.get!, h]
  | case2 i front h =>
      rw [List.drop_eq_nil_of_le (by simpa using Nat.le_of_not_lt h)]
      simp

theorem bytesOf_eq_flatMap (text : String) :
    bytesOf text = text.toList.flatMap String.utf8EncodeChar := by
  rw [bytesOf, String.toUTF8_eq_toByteArray, ByteArray.toList, toList_loop_eq,
    ← String.utf8Encode_toList, List.utf8Encode, List.toList_data_toByteArray]
  rfl

theorem bytesOf_append (s t : String) : bytesOf (s ++ t) = bytesOf s ++ bytesOf t := by
  rw [bytesOf_eq_flatMap, bytesOf_eq_flatMap, bytesOf_eq_flatMap, String.toList_append,
    List.flatMap_append]

theorem bytesOf_injective {s t : String} (h : bytesOf s = bytesOf t) : s = t := by
  rw [bytesOf_eq_flatMap, bytesOf_eq_flatMap] at h
  have hencoded : s.toList.utf8Encode = t.toList.utf8Encode := congrArg List.toByteArray h
  rwa [String.utf8Encode_toList, String.utf8Encode_toList, String.toByteArray_inj] at hencoded

end Digest

/-! ## Texts of digests -/

namespace Text

/-- The number that hexadecimal digits stand for. -/
def ofHex (digits : List Char) : Nat :=
  digits.foldl (fun n c => 16 * n + (alphanumValue? c).getD 0) 0

theorem ofHex_append_singleton (digits : List Char) (c : Char) :
    ofHex (digits ++ [c]) = 16 * ofHex digits + (alphanumValue? c).getD 0 := by
  rw [ofHex, List.foldl_append]
  rfl

theorem ofHex_hex (width n : Nat) : ofHex (hex width n) = n := by
  have hdigit : ∀ d < 16, (alphanumValue? d.digitChar).getD 0 = d := by decide
  have hzeros : ∀ k, ofHex (List.replicate k '0') = 0 := by
    intro k
    induction k with
    | zero => rfl
    | succ k ih =>
        rw [List.replicate_succ', ofHex_append_singleton, ih]
        rfl
  have hdigits : ∀ k, ofHex (List.replicate k '0' ++ Nat.toDigits 16 n) = n := by
    intro k
    induction n using Nat.base_induction 16 (by decide) with
    | single m hm =>
        rw [Nat.toDigits_of_lt_base hm, ofHex_append_singleton, hzeros, hdigit m hm]
        omega
    | digit m d hd hm ih =>
        rw [← Nat.toDigits_append_toDigits (by decide) hm hd, Nat.toDigits_of_lt_base hd,
          ← List.append_assoc, ofHex_append_singleton, ih, hdigit d hd]
  exact hdigits _

theorem length_hex (w : UInt32) : (hex 8 w.toNat).length = 8 := by
  have hshort : (Nat.toDigits 16 w.toNat).length ≤ 8 :=
    (Nat.length_toDigits_le_iff (by decide) (by decide)).mpr w.toNat_lt
  rw [hex, List.length_append, List.length_replicate, Nat.sub_add_cancel hshort]

theorem hex_word_injective {v w : UInt32} (h : hex 8 v.toNat = hex 8 w.toNat) : v = w := by
  have hnumbers := congrArg ofHex h
  rw [ofHex_hex, ofHex_hex] at hnumbers
  exact UInt32.toNat_inj.mp hnumbers

/-- Words are written in one width, so a sequence of them can be cut apart again. -/
theorem flatMap_hex_injective {vs ws : List UInt32} (hlength : vs.length = ws.length)
    (h : (vs.flatMap fun w => hex 8 w.toNat) = ws.flatMap fun w => hex 8 w.toNat) : vs = ws := by
  induction vs generalizing ws with
  | nil => exact (List.eq_nil_of_length_eq_zero hlength.symm).symm
  | cons v vs ih =>
      cases ws with
      | nil => cases hlength
      | cons w ws =>
          rw [List.flatMap_cons, List.flatMap_cons] at h
          obtain ⟨hfirst, hrest⟩ := List.append_inj h ((length_hex v).trans (length_hex w).symm)
          rw [hex_word_injective hfirst, ih (Nat.succ.inj hlength) hrest]

end Text

namespace Digest

theorem State.hex_injective {s t : State} (h : s.hex = t.hex) : s = t := by
  have hwords : s.words = t.words := Text.flatMap_hex_injective rfl (String.ofList_injective h)
  cases s
  cases t
  simpa [State.words] using hwords

/-- Different bytes with one digest. -/
def Collide (a b : Bytes) : Prop :=
  a ≠ b ∧ digest a = digest b

theorem eq_or_collide {a b : Bytes} (h : (digest a).hex = (digest b).hex) : a = b ∨ Collide a b :=
  (Classical.em (a = b)).imp_right fun hne => ⟨hne, State.hex_injective h⟩

end Digest

end QuantFamily
