import PathRules.Loading
import PathRules.Proofs.StoredContent

/-!
# The bytes of a text

A text is stored in UTF-8, compressed or not, and is read back from its bytes. Whether bytes are
compressed is told by the two they start with. The second of them only goes on with a character
that an earlier byte began, and the first begins none, so no text starts with the two.
-/

namespace PathRules

/-- The bytes of a text. -/
def utf8Bytes (cs : List Char) : List UInt8 :=
  (String.ofList cs).toUTF8.toList

theorem toList_loop (bytes : ByteArray) (i : Nat) (before : List UInt8) :
    ByteArray.toList.loop bytes i before = before.reverse ++ bytes.data.toList.drop i := by
  fun_induction ByteArray.toList.loop bytes i before with
  | case1 i before h ih =>
      have hi : i < bytes.data.toList.length := by simpa using h
      rw [ih, List.drop_eq_getElem_cons hi]
      simp [ByteArray.get!, h]
  | case2 i before h =>
      rw [List.drop_eq_nil_of_le (by simpa using Nat.le_of_not_lt h), List.append_nil]

theorem toList_eq_toList_data (bytes : ByteArray) : bytes.toList = bytes.data.toList := by
  rw [ByteArray.toList, toList_loop, List.reverse_nil, List.nil_append, List.drop_zero]

theorem utf8Bytes_eq_flatMap (cs : List Char) :
    utf8Bytes cs = cs.flatMap String.utf8EncodeChar := by
  rw [utf8Bytes, toList_eq_toList_data]
  exact List.toList_data_toByteArray

theorem decodeUtf8?_utf8Bytes (cs : List Char) : decodeUtf8? (utf8Bytes cs) = some cs := by
  have hbytes : (⟨(utf8Bytes cs).toArray⟩ : ByteArray) = (String.ofList cs).toByteArray := by
    rw [utf8Bytes, toList_eq_toList_data, Array.toArray_toList]
    rfl
  rw [decodeUtf8?, hbytes, String.fromUTF8?, dif_pos (String.ofList cs).isValidUTF8]
  exact congrArg some String.toList_ofList

/-- A character takes one byte, or its first byte is greater than those that go on with one. -/
theorem utf8EncodeChar_cases (c : Char) :
    (∃ b, String.utf8EncodeChar c = [b] ∧ b.toNat < 128) ∨
      ∃ b bs, String.utf8EncodeChar c = b :: bs ∧ 192 ≤ b.toNat := by
  simp only [String.utf8EncodeChar]
  split_ifs with hone
  · exact Or.inl ⟨_, rfl, by rw [UInt8.toNat_ofNat']; omega⟩
  all_goals exact Or.inr ⟨_, _, rfl, by rw [UInt8.toNat_ofNat']; omega⟩

theorem head_utf8Bytes {cs : List Char} {b : UInt8} (h : (utf8Bytes cs).head? = some b) :
    b.toNat < 128 ∨ 192 ≤ b.toNat := by
  rw [utf8Bytes_eq_flatMap] at h
  cases cs with
  | nil => cases h
  | cons c cs =>
      rw [List.flatMap_cons] at h
      obtain ⟨b', heq, hb⟩ | ⟨b', bs, heq, hb⟩ := utf8EncodeChar_cases c
      · rw [heq] at h
        cases h
        exact Or.inl hb
      · rw [heq] at h
        cases h
        exact Or.inr hb

theorem isPacked_utf8Bytes (cs : List Char) : Gzip.isPacked (utf8Bytes cs) = false := by
  rw [Bool.eq_false_iff]
  intro hpacked
  obtain ⟨rest, hbytes⟩ := List.isPrefixOf_iff_prefix.mp hpacked
  rw [utf8Bytes_eq_flatMap] at hbytes
  cases cs with
  | nil => cases hbytes
  | cons c cs =>
      rw [List.flatMap_cons, ← utf8Bytes_eq_flatMap] at hbytes
      obtain ⟨b, heq, -⟩ | ⟨b, bs, heq, hb⟩ := utf8EncodeChar_cases c
      · rw [heq] at hbytes
        have htail : 0x8B :: rest = utf8Bytes cs := (List.cons.inj hbytes).2
        have hsecond : (utf8Bytes cs).head? = some 0x8B := by rw [← htail, List.head?_cons]
        exact absurd (head_utf8Bytes hsecond) (by decide)
      · rw [heq] at hbytes
        have hfirst : 0x1F = b := (List.cons.inj hbytes).1
        rw [← hfirst] at hb
        exact absurd hb (by decide)

theorem decodeText_utf8Bytes (limit : Nat) (cs : List Char) :
    decodeText limit (utf8Bytes cs) = .ok cs := by
  rw [decodeText, isPacked_utf8Bytes, decodeUtf8?_utf8Bytes]
  rfl

theorem decodeText_pack {limit : Nat} {cs : List Char} (h : (utf8Bytes cs).length ≤ limit) :
    decodeText limit (Gzip.pack (utf8Bytes cs)) = .ok cs := by
  have hpacked : Gzip.isPacked (Gzip.pack (utf8Bytes cs)) := rfl
  have htake : (utf8Bytes cs).take (limit + 1) = utf8Bytes cs := List.take_of_length_le (by omega)
  have hsize : checkSize (utf8Bytes cs).length limit = .ok () := if_neg (Nat.not_lt.mpr h)
  rw [decodeText, if_pos hpacked, unpackText, Gzip.unpack?_pack, htake]
  simp only [decodeUtf8?_utf8Bytes, hsize]
  rfl

end PathRules
