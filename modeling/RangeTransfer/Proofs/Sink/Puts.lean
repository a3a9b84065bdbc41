import RangeTransfer.Storage.Content
/-!
# Bytes put at absolute offsets

A sink is seen through the byte at each absolute offset of the object. `Puts` is what a write does
to this view, in whatever way the bytes are laid out: the bytes it covers are those of the data,
others stay, and a gap below may be filled with zeros. For a file this is what `Content.write` does
(`puts_write`), for the parts of a split object it is the write of each part that the data reaches
(`PutParts.puts`).
-/

namespace RangeTransfer

/-- `v'` is what putting `data` at `offset` makes of the bytes `v`. -/
def Puts (v v' : Nat → Option UInt8) (offset : Nat) (data : ByteArray) : Prop :=
  ∀ o, if offset ≤ o ∧ o < offset + data.size then v' o = data.data[o - offset]?
    else v' o = v o ∨ (v o = none ∧ v' o = some 0 ∧ o < offset)

theorem Puts.refl_of_empty {v : Nat → Option UInt8} {offset : Nat} {data : ByteArray}
    (h : data.size = 0) : Puts v v offset data := by
  intro o
  rw [if_neg (by omega)]
  exact Or.inl rfl

namespace Content

theorem byteAt_of_le {c : Content} {i : Nat} (h : c.size ≤ i) : c.byteAt i = none :=
  if_neg (Nat.not_lt.mpr h)

theorem byteAt_of_lt {c : Content} {i : Nat} (h : i < c.size) : ∃ b, c.byteAt i = some b :=
  ⟨_, if_pos h⟩

@[simp] theorem byteAt_empty (i : Nat) : empty.byteAt i = none := byteAt_of_le (Nat.zero_le i)

theorem puts_write (c : Content) (offset : Nat) (data : ByteArray) :
    Puts c.byteAt (c.write offset data).byteAt offset data := by
  intro o
  rw [byteAt_write]
  split
  · rfl
  · rename_i hout
    by_cases hc : o < c.size
    · obtain ⟨b, hb⟩ := byteAt_of_lt hc
      rw [if_pos (by omega), hb]
      exact Or.inl rfl
    · rw [byteAt_of_le (Nat.not_lt.mp hc)]
      by_cases hlt : o < max c.size (if data.size = 0 then 0 else offset + data.size)
      · rw [if_pos hlt]
        refine Or.inr ⟨rfl, rfl, ?_⟩
        split at hlt <;> omega
      · rw [if_neg hlt]
        exact Or.inl rfl

theorem byteAt_eq_bytes (c : Content) (i : Nat) : c.byteAt i = c.bytes.data[i]? := by
  have hle := c.stored_le_size
  simp only [byteAt, bytes, ByteArray.data_append, Array.getElem?_append, ByteArray.size_data]
  by_cases hstored : i < c.stored.size
  · have hlt : i < c.stored.data.size := by rwa [ByteArray.size_data]
    rw [if_pos hstored, if_pos (by omega), Array.getElem?_eq_getElem hlt]
    rfl
  · rw [if_neg hstored, stored_getD_eq_zero c (Nat.not_lt.mp hstored)]
    simp only [zeros, Array.getElem?_replicate]
    by_cases hi : i < c.size
    · rw [if_pos hi, if_pos (by omega)]
    · rw [if_neg hi, if_neg (by omega)]

theorem bytes_eq {c : Content} {bytes : ByteArray} (hsize : c.size = bytes.size)
    (hbytes : ∀ i < bytes.size, c.byteAt i = bytes.data[i]?) : c.bytes = bytes := by
  refine ByteArray.ext (Array.ext_getElem? fun i => ?_)
  rw [← byteAt_eq_bytes]
  by_cases hi : i < bytes.size
  · exact hbytes i hi
  · rw [byteAt_of_le (by omega), Array.getElem?_eq_none (by rw [ByteArray.size_data]; omega)]

end Content

/-! ## Parts -/

theorem extract_append_of_le {a b : ByteArray} {i j : Nat} (h : j ≤ a.size) :
    (a ++ b).extract i j = a.extract i j := by
  rw [ByteArray.extract_append, ByteArray.extract_eq_empty_iff.mpr (by omega :
    min (j - a.size) b.size ≤ i - a.size), ByteArray.append_empty]

theorem extract_append_of_ge {a b : ByteArray} {i j : Nat} (h : a.size ≤ i) :
    (a ++ b).extract i j = b.extract (i - a.size) (j - a.size) := by
  rw [ByteArray.extract_append, ByteArray.extract_eq_empty_iff.mpr (by omega :
    min j a.size ≤ i), ByteArray.empty_append]

/-- The byte at an absolute offset of an object in parts of `partSize` bytes. -/
def byteOf (partSize : Nat) (parts : Nat → Option Content) (o : Nat) : Option UInt8 :=
  (parts (o / partSize)).bind fun c => c.byteAt (o % partSize)

theorem byteOf_at {partSize j i : Nat} (hi : i < partSize) (parts : Nat → Option Content) :
    byteOf partSize parts (j * partSize + i) = (parts j).bind (·.byteAt i) := by
  have hpos : 0 < partSize := by omega
  rw [byteOf, Nat.add_comm, Nat.add_mul_div_right _ _ hpos, Nat.div_eq_of_lt hi, Nat.zero_add,
    Nat.add_mul_mod_self_right, Nat.mod_eq_of_lt hi]

/-- `parts'` is what putting `data` at `offset` makes of `parts`: each part that the data reaches is
written where it is reached, and at most empty parts are added. -/
def PutParts (partSize : Nat) (parts parts' : Nat → Option Content) (offset : Nat)
    (data : ByteArray) : Prop :=
  ∀ j, if max offset (j * partSize) < min (offset + data.size) ((j + 1) * partSize) then
      parts' j = some (((parts j).getD .empty).write (max offset (j * partSize) - j * partSize)
        (data.extract (max offset (j * partSize) - offset)
          (min (offset + data.size) ((j + 1) * partSize) - offset)))
    else parts' j = parts j ∨ (parts j = none ∧ parts' j = some .empty)

namespace PutParts

variable {ps offset : Nat} {parts parts₁ parts' : Nat → Option Content} {data data' : ByteArray}

theorem refl_of_empty (h : data.size = 0) : PutParts ps parts parts offset data := by
  intro j
  rw [if_neg (by omega)]
  exact Or.inl rfl

theorem of_created (h : data.size = 0)
    (hparts : ∀ j, parts' j = parts j ∨ (parts j = none ∧ parts' j = some .empty)) :
    PutParts ps parts parts' offset data := by
  intro j
  rw [if_neg (by omega)]
  exact hparts j

theorem of_piece (hpos : 0 < ps) {size : Nat} (hsize : size = data.size) (hne : 0 < size)
    (hfit : offset % ps + size ≤ ps) (hpart : parts' (offset / ps) =
      some (((parts (offset / ps)).getD .empty).write (offset % ps) data))
    (hother : ∀ j, j ≠ offset / ps → parts' j = parts j) :
    PutParts ps parts parts' offset data := by
  have hdiv := Nat.div_add_mod offset ps
  rw [Nat.mul_comm] at hdiv
  intro j
  by_cases hj : j = offset / ps
  · subst hj
    rw [Nat.add_mul, Nat.one_mul]
    rw [if_pos (by omega), hpart, show max offset (offset / ps * ps) = offset by omega,
      show min (offset + data.size) (offset / ps * ps + ps) = offset + data.size by omega,
      show offset - offset / ps * ps = offset % ps by omega, Nat.sub_self, Nat.add_sub_cancel_left,
      ByteArray.extract_zero_size]
  · rw [Nat.add_mul, Nat.one_mul, if_neg]
    · exact Or.inl (hother j hj)
    · rcases Nat.lt_or_gt_of_ne hj with hlt | hgt
      · have := Nat.mul_le_mul_right ps (Nat.succ_le_of_lt hlt)
        rw [Nat.succ_mul] at this
        omega
      · have := Nat.mul_le_mul_right ps (Nat.succ_le_of_lt hgt)
        rw [Nat.succ_mul] at this
        omega

theorem append (hpos : 0 < ps) (h : PutParts ps parts parts₁ offset data)
    (h' : PutParts ps parts₁ parts' (offset + data.size) data')
    (hborder : data'.size = 0 ∨ (offset + data.size) % ps = 0) :
    PutParts ps parts parts' offset (data ++ data') := by
  intro j
  have h₁ := h j
  have h₂ := h' j
  rw [Nat.add_mul, Nat.one_mul] at *
  rw [ByteArray.size_append]
  have hcut : data'.size = 0 ∨ offset + data.size ≤ j * ps ∨ j * ps + ps ≤ offset + data.size := by
    refine hborder.imp_right fun hmod => ?_
    have hdiv := Nat.div_add_mod (offset + data.size) ps
    rw [hmod, Nat.mul_comm, Nat.add_zero] at hdiv
    rcases Nat.lt_or_ge j ((offset + data.size) / ps) with hlt | hge
    · have := Nat.mul_le_mul_right ps (Nat.succ_le_of_lt hlt)
      rw [Nat.succ_mul] at this
      omega
    · have := Nat.mul_le_mul_right ps hge
      omega
  by_cases hfirst : max offset (j * ps) < min (offset + data.size) (j * ps + ps)
  · -- the first piece reaches the part, the second does not
    rw [if_pos hfirst] at h₁
    rw [if_neg (by omega)] at h₂
    have hsame : parts' j = parts₁ j := h₂.resolve_right fun hnone => by
      rw [h₁] at hnone
      cases hnone.1
    have hhigh : min (offset + (data.size + data'.size)) (j * ps + ps) =
        min (offset + data.size) (j * ps + ps) := by omega
    rw [if_pos (by omega), hsame, h₁, hhigh]
    rw [extract_append_of_le (by omega)]
  · rw [if_neg hfirst] at h₁
    have hget : (parts₁ j).getD .empty = (parts j).getD .empty := by
      rcases h₁ with heq | ⟨hnone, hsome⟩
      · rw [heq]
      · rw [hnone, hsome]; rfl
    by_cases hsecond : max (offset + data.size) (j * ps) <
        min (offset + data.size + data'.size) (j * ps + ps)
    · rw [if_pos hsecond] at h₂
      have hlow : max (offset + data.size) (j * ps) - j * ps = max offset (j * ps) - j * ps := by
        omega
      have hskip : max (offset + data.size) (j * ps) - (offset + data.size) =
          max offset (j * ps) - (offset + data.size) := by omega
      rw [if_pos (by omega), h₂, hget, hlow, extract_append_of_ge (by omega), Nat.sub_sub,
        Nat.sub_sub, ← Nat.add_assoc, hskip]
    · rw [if_neg hsecond] at h₂
      rw [if_neg (by omega)]
      rcases h₂ with heq | ⟨hnone, hsome⟩
      · rw [heq]; exact h₁
      · rcases h₁ with heq₁ | ⟨hnone₁, hsome₁⟩
        · exact Or.inr ⟨heq₁ ▸ hnone, hsome⟩
        · rw [hsome₁] at hnone
          cases hnone

theorem puts (hpos : 0 < ps) (h : PutParts ps parts parts' offset data) :
    Puts (byteOf ps parts) (byteOf ps parts') offset data := by
  intro o
  have hdiv := Nat.div_add_mod o ps
  have hmod := Nat.mod_lt o hpos
  rw [Nat.mul_comm] at hdiv
  have hj := h (o / ps)
  rw [Nat.add_mul, Nat.one_mul] at hj
  simp only [byteOf]
  generalize o / ps = j at *
  generalize o % ps = r at *
  by_cases hreach : max offset (j * ps) < min (offset + data.size) (j * ps + ps)
  · rw [if_pos hreach] at hj
    rw [hj]
    simp only [Option.bind_some]
    have hput := Content.puts_write ((parts j).getD .empty) (max offset (j * ps) - j * ps)
      (data.extract (max offset (j * ps) - offset)
        (min (offset + data.size) (j * ps + ps) - offset)) r
    rw [ByteArray.size_extract] at hput
    by_cases hin : offset ≤ o ∧ o < offset + data.size
    · rw [if_pos hin]
      rw [if_pos (by omega)] at hput
      have hplace : max offset (j * ps) - offset + (r - (max offset (j * ps) - j * ps)) =
          o - offset := by omega
      rw [hput, ByteArray.data_extract, Array.getElem?_extract, if_pos]
      · rw [hplace]
      · rw [ByteArray.size_data]
        omega
    · rw [if_neg hin]
      rw [if_neg (by omega)] at hput
      cases hp : parts j with
      | some c =>
        rw [hp] at hput
        simp only [Option.getD_some, Option.bind_some] at hput ⊢
        rcases hput with heq | ⟨hnone, hzero, hlt⟩
        · exact Or.inl heq
        · exact Or.inr ⟨hnone, hzero, by omega⟩
      | none =>
        rw [hp] at hput
        simp only [Option.getD_none, Content.byteAt_empty, Option.bind_none] at hput ⊢
        rcases hput with heq | ⟨-, hzero, hlt⟩
        · exact Or.inl heq
        · exact Or.inr ⟨trivial, hzero, by omega⟩
  · rw [if_neg hreach] at hj
    rw [if_neg (by omega)]
    rcases hj with heq | ⟨hnone, hsome⟩
    · rw [heq]
      exact Or.inl rfl
    · rw [hnone, hsome]
      exact Or.inl (Content.byteAt_empty r)

theorem size_of_reached (h : PutParts ps parts parts' offset data) {j : Nat}
    (hj : max offset (j * ps) < min (offset + data.size) ((j + 1) * ps)) :
    ∃ c, parts' j = some c ∧ c.size = max (((parts j).map Content.size).getD 0)
      (min (offset + data.size) ((j + 1) * ps) - j * ps) := by
  have := h j
  rw [if_pos hj] at this
  refine ⟨_, this, ?_⟩
  rw [Content.size_write _ _ _ (by rw [ByteArray.size_extract]; omega), ByteArray.size_extract]
  have hsize : ((parts j).getD .empty).size = ((parts j).map Content.size).getD 0 := by
    cases parts j <;> rfl
  rw [hsize]
  omega

end PutParts

end RangeTransfer
