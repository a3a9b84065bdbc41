import RangeTransfer.Text.Utf8
/-!
# The bytes of a text

`Text.encode` puts the bytes of the characters one behind the other (`encode_ofList`), so different
texts have different bytes (`encode_inj`), and a text of ASCII characters has one byte for each
(`encode_of_ascii`).
-/

namespace RangeTransfer.Text

theorem encode_ofList (cs : List Char) :
    encode (String.ofList cs) = cs.flatMap String.utf8EncodeChar := by
  rw [encode, String.toUTF8_eq_toByteArray, String.toByteArray_ofList, List.utf8Encode,
    List.toList_data_toByteArray]

theorem encode_inj {s t : String} (h : encode s = encode t) : s = t :=
  String.toByteArray_inj.mp (ByteArray.ext (Array.toList_inj.mp h))

theorem encode_of_ascii {cs : List Char} (h : ∀ c ∈ cs, c.utf8Size = 1) :
    encode (String.ofList cs) = cs.map fun c => c.val.toUInt8 := by
  rw [encode_ofList]
  induction cs with
  | nil => rfl
  | cons c cs ih =>
    rw [List.flatMap_cons, String.utf8EncodeChar_eq_singleton (h c List.mem_cons_self),
      List.map_cons, List.singleton_append, ih fun d hd => h d (List.mem_cons_of_mem _ hd)]

theorem encode_ne_nil {cs : List Char} (h : cs ≠ []) : encode (String.ofList cs) ≠ [] := by
  rw [encode_ofList]
  obtain ⟨c, cs, rfl⟩ := List.exists_cons_of_ne_nil h
  rw [List.flatMap_cons]
  exact fun hnil => String.utf8EncodeChar_ne_nil (List.append_eq_nil_iff.mp hnil).1

end RangeTransfer.Text
