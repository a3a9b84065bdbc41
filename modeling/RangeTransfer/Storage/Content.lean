/-!
# File contents

The bytes of a file: those `stored`, and zeros from there to the length of the file. What a file
holds is seen through `size` and `byteAt`. A write replaces the bytes it covers and keeps the others
(`byteAt_write`, `size_write`); a new length cuts the file or adds zeros (`byteAt_setSize`).
-/

namespace RangeTransfer

def zeros (n : Nat) : ByteArray := ⟨Array.replicate n 0⟩

@[simp] theorem size_zeros (n : Nat) : (zeros n).size = n := by simp [zeros, ByteArray.size]

structure Content where
  stored : ByteArray
  size : Nat
  stored_le_size : stored.size ≤ size

namespace Content

def empty : Content := ⟨.empty, 0, Nat.le_refl _⟩

instance : Inhabited Content := ⟨empty⟩

def ofBytes (bytes : ByteArray) : Content := ⟨bytes, bytes.size, Nat.le_refl _⟩

/-- The byte at offset `i`; there is none at the end of the file or behind it. -/
def byteAt (c : Content) (i : Nat) : Option UInt8 :=
  if i < c.size then some (c.stored.data[i]?.getD 0) else none

/-- All bytes of the file. -/
def bytes (c : Content) : ByteArray := c.stored ++ zeros (c.size - c.stored.size)

/-- The first `n` bytes of `stored`, filled up with zeros. -/
def storedTo (c : Content) (n : Nat) : ByteArray :=
  c.stored.extract 0 n ++ zeros (n - c.stored.size)

@[simp] theorem size_storedTo (c : Content) (n : Nat) : (c.storedTo n).size = n := by
  simp only [storedTo, ByteArray.size_append, ByteArray.size_extract, size_zeros]; omega

/-- Puts `data` at `offset`; a gap before it is filled with zeros. Writing nothing changes nothing.
-/
def write (c : Content) (offset : Nat) (data : ByteArray) : Content :=
  if data.size = 0 then c
  else
    ⟨c.storedTo offset ++ data ++ c.stored.extract (offset + data.size) c.stored.size,
      max c.size (offset + data.size), by
        have := c.stored_le_size
        simp only [ByteArray.size_append, ByteArray.size_extract, size_storedTo]; omega⟩

/-- Cuts the file at `n`, or extends it with zeros to `n`. -/
def setSize (c : Content) (n : Nat) : Content :=
  ⟨c.stored.extract 0 n, n, by simp only [ByteArray.size_extract]; omega⟩

theorem size_write (c : Content) (offset : Nat) (data : ByteArray) (h : data.size ≠ 0) :
    (c.write offset data).size = max c.size (offset + data.size) := by simp [write, h]

theorem size_write_le {c : Content} {offset bound : Nat} {data : ByteArray} (hc : c.size ≤ bound)
    (hend : data.size ≠ 0 → offset + data.size ≤ bound) : (c.write offset data).size ≤ bound := by
  by_cases hnone : data.size = 0
  · rwa [write, if_pos hnone]
  · rw [size_write c offset data hnone]
    exact Nat.max_le.mpr ⟨hc, hend hnone⟩

@[simp] theorem size_setSize (c : Content) (n : Nat) : (c.setSize n).size = n := rfl

theorem stored_getD_eq_zero (c : Content) {i : Nat} (h : c.stored.size ≤ i) :
    c.stored.data[i]?.getD 0 = 0 := by
  rw [Array.getElem?_eq_none (by simpa [ByteArray.size_data] using h)]; rfl

theorem storedTo_getD (c : Content) {i n : Nat} (h : i < n) :
    (c.storedTo n).data[i]?.getD 0 = c.stored.data[i]?.getD 0 := by
  simp only [storedTo, ByteArray.data_append, ByteArray.data_extract, Array.getElem?_append,
    Array.getElem?_extract, Array.size_extract, zeros, Array.getElem?_replicate]
  by_cases hi : i < c.stored.size
  · have hm : i < min n c.stored.size := by omega
    simp [ByteArray.size_data, hi, hm]
  · rw [if_neg (by simp only [ByteArray.size_data]; omega), stored_getD_eq_zero c (by omega)]
    split <;> rfl

theorem byteAt_write (c : Content) (offset : Nat) (data : ByteArray) (i : Nat) :
    (c.write offset data).byteAt i =
      if offset ≤ i ∧ i < offset + data.size then data.data[i - offset]?
      else if i < max c.size (if data.size = 0 then 0 else offset + data.size) then
        some ((c.byteAt i).getD 0)
      else none := by
  by_cases h : data.size = 0
  · have hout : ¬ (offset ≤ i ∧ i < offset + 0) := by omega
    simp only [write, h, if_true, byteAt, if_neg hout]
    by_cases hi : i < c.size <;> simp [hi]
  · simp only [h, if_false, byteAt, write]
    have hd : (c.storedTo offset).data.size = offset := by simp [ByteArray.size_data]
    have hs : data.data.size = data.size := ByteArray.size_data
    simp only [ByteArray.data_append, Array.getElem?_append, Array.size_append, hd, hs]
    by_cases hlt : i < offset
    · rw [if_pos (by omega : i < offset + data.size), if_pos hlt, storedTo_getD c hlt]
      rw [if_neg (by omega : ¬ (offset ≤ i ∧ i < offset + data.size))]
      have hm : i < max c.size (offset + data.size) := by omega
      rw [if_pos hm, if_pos hm]
      split
      · rfl
      · rename_i hc; have := c.stored_le_size
        simp [stored_getD_eq_zero c (by omega : c.stored.size ≤ i)]
    · by_cases hin : i < offset + data.size
      · have hb : i - offset < data.data.size := by omega
        have hi : offset ≤ i ∧ i < offset + data.size := by omega
        have hm : i < max c.size (offset + data.size) := by omega
        rw [if_pos hi, if_pos hm, if_pos hin, if_neg hlt, Array.getElem?_eq_getElem hb]; rfl
      · rw [if_neg (by omega : ¬ (offset ≤ i ∧ i < offset + data.size))]
        simp only [hin, if_false]
        split
        · rename_i hm
          have hc : i < c.size := by omega
          simp only [hc, if_true, Option.getD_some, ByteArray.data_extract, Array.getElem?_extract,
            ByteArray.size_data]
          by_cases hst : i < c.stored.size
          · rw [if_pos (by omega)]; congr 3; omega
          · rw [if_neg (by omega), stored_getD_eq_zero c (by omega)]; rfl
        · rfl

theorem byteAt_setSize (c : Content) (n i : Nat) :
    (c.setSize n).byteAt i = if i < n then some ((c.byteAt i).getD 0) else none := by
  simp only [byteAt, setSize]
  by_cases h : i < n
  · simp only [h, if_true, ByteArray.data_extract, Array.getElem?_extract, ByteArray.size_data]
    by_cases hi : i < c.stored.size
    · have := c.stored_le_size
      rw [if_pos (by omega), if_pos (by omega)]; simp
    · rw [if_neg (by omega)]
      split <;> simp [stored_getD_eq_zero c (by omega : c.stored.size ≤ i)]
  · simp [h]

end Content

end RangeTransfer
