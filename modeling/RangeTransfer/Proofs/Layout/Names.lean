import RangeTransfer.Layout.Split
import RangeTransfer.Proofs.Path
import RangeTransfer.Proofs.Text.Encoding
/-!
# Names of parts

The bytes of a part's name are ASCII digits, at least two of them. So a name is one plain segment of
a path, and different parts have different names (`partBytes_inj`).
-/

namespace RangeTransfer.SplitLayout

/-- The name of part `index` as it stands in a path. -/
def partBytes (index : Nat) : Name := Text.encode (partName index)

def digits (index : Nat) : List Char :=
  List.replicate (2 - (Nat.toDigits 10 index).length) '0' ++ Nat.toDigits 10 index

theorem partName_eq (index : Nat) : partName index = String.ofList (digits index) := by
  have hlength : (toString index).length = (Nat.toDigits 10 index).length := by
    rw [Nat.toString_eq_ofList_toDigits, String.length_ofList]
  rw [partName, Text.alignRight, hlength, Nat.toString_eq_ofList_toDigits, digits,
    String.ofList_append]

theorem isDigit_of_mem_digits {index : Nat} {c : Char} (h : c ∈ digits index) :
    c.isDigit = true := by
  rcases List.mem_append.mp h with h | h
  · rw [List.eq_of_mem_replicate h]; rfl
  · exact Nat.isDigit_of_mem_toDigits (by decide) (by decide) h

theorem digits_inj {i j : Nat} (h : digits i = digits j) : i = j := by
  have hvalue : ∀ k, Nat.ofDigitChars 10 (digits k) 0 = k := by
    intro k
    have hzeros : ∀ n (l : List Char), Nat.ofDigitChars 10 (List.replicate n '0' ++ l) 0 =
        Nat.ofDigitChars 10 l 0 := by
      intro n l
      induction n with
      | zero => rfl
      | succ n ih =>
        rw [List.replicate_succ, List.cons_append, Nat.ofDigitChars_cons]
        exact ih
    rw [digits, hzeros, Nat.ofDigitChars_ten_toDigits]
  rw [← hvalue i, h, hvalue j]

theorem utf8Size_of_isDigit {c : Char} (h : c.isDigit = true) : c.utf8Size = 1 := by
  simp only [Char.isDigit, Bool.and_eq_true, decide_eq_true_eq] at h
  rw [Char.utf8Size, if_pos]
  exact Nat.le_trans (UInt32.le_iff_toNat_le.mp h.2) (by decide)

theorem partBytes_eq (index : Nat) : partBytes index = (digits index).map fun c => c.val.toUInt8 := by
  rw [partBytes, partName_eq,
    Text.encode_of_ascii fun c hc => utf8Size_of_isDigit (isDigit_of_mem_digits hc)]

theorem partBytes_ne_nil (index : Nat) : partBytes index ≠ [] := by
  rw [partBytes_eq, digits]
  simp [Nat.toDigits_ne_nil]

theorem lt_of_mem_partBytes {index : Nat} {b : UInt8} (h : b ∈ partBytes index) :
    47 < b.toNat := by
  rw [partBytes_eq] at h
  obtain ⟨c, hc, rfl⟩ := List.mem_map.mp h
  have hd := isDigit_of_mem_digits hc
  simp only [Char.isDigit, Bool.and_eq_true, decide_eq_true_eq] at hd
  have h₁ := UInt32.le_iff_toNat_le.mp hd.1
  have h₂ := UInt32.le_iff_toNat_le.mp hd.2
  have h48 : '0'.val.toNat = 48 := rfl
  have h57 : '9'.val.toNat = 57 := rfl
  rw [UInt32.toNat_toUInt8]
  omega

theorem slash_not_mem_partBytes (index : Nat) : Path.slash ∉ partBytes index := fun h => by
  have := lt_of_mem_partBytes h
  simp [Path.slash] at this

theorem partBytes_ne_dot (index : Nat) :
    partBytes index ≠ Path.dot ∧ partBytes index ≠ Path.dotDot := by
  constructor
  all_goals
    intro h
    have : (46 : UInt8) ∈ partBytes index := by rw [h]; simp [Path.dot, Path.dotDot]
    have := lt_of_mem_partBytes this
    simp at this

theorem partBytes_inj {i j : Nat} (h : partBytes i = partBytes j) : i = j := by
  refine digits_inj (String.ofList_injective ?_)
  rw [← partName_eq, ← partName_eq]
  exact Text.encode_inj h

end RangeTransfer.SplitLayout
