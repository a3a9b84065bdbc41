import RangeTransfer.Offset
/-!
# Byte ranges

An inclusive interval of byte offsets, `first` to `last`. A range is never empty.
-/

namespace RangeTransfer

structure ByteRange where
  first : Nat
  last : Nat
  first_le_last : first ≤ last
  deriving DecidableEq, Repr

namespace ByteRange

/-- The range from `first` to `last`; an empty one aborts. -/
def make (first last : Nat) : Except Abort ByteRange :=
  if h : first ≤ last then .ok ⟨first, last, h⟩ else .error (.emptyRange first last)

/-- Number of bytes. -/
def length (r : ByteRange) : Nat := r.last - r.first + 1

/-- First offset past the range. -/
def pastEnd (r : ByteRange) : Nat := r.last + 1

/-- `length`, where it fits 64 bits. -/
def lengthChecked (r : ByteRange) : Except Abort Nat := Offset.add (r.last - r.first) 1

/-- `pastEnd`, where it fits 64 bits. -/
def pastEndChecked (r : ByteRange) : Except Abort Nat := Offset.add r.last 1

def text (r : ByteRange) : String := toString r.first ++ "-" ++ toString r.last

/-- Value of a `Range` header that asks for `r`. -/
def header (r : ByteRange) : String := "bytes=" ++ r.text

/-- Order by first byte, then by last. -/
def order (r s : ByteRange) : Ordering := (compare r.first s.first).then (compare r.last s.last)

theorem make_eq_ok {first last : Nat} (h : first ≤ last) : make first last = .ok ⟨first, last, h⟩ :=
  dif_pos h

theorem length_pos (r : ByteRange) : 0 < r.length := Nat.succ_pos _

theorem first_add_length (r : ByteRange) : r.first + r.length = r.pastEnd := by
  have := r.first_le_last
  simp only [length, pastEnd]; omega

end ByteRange

end RangeTransfer
