import RangeTransfer.Range.Basic
/-!
# Watermarks

The offset below which every byte has been written. Ranges may be completed in any order: one that
lies above the watermark waits until the gap below it closes.
-/

namespace RangeTransfer

structure Watermark where
  /-- First offset that is not known to be written. -/
  reached : Nat
  /-- First offset and first offset past the end of each waiting range, by first offset. -/
  waiting : List (Nat × Nat)
  deriving DecidableEq, Repr

namespace Watermark

def new (start : Nat) : Watermark := ⟨start, []⟩

/-- Adds a waiting range; one that starts at the same offset is replaced. -/
def wait (first pastEnd : Nat) : List (Nat × Nat) → List (Nat × Nat)
  | [] => [(first, pastEnd)]
  | (k, e) :: rest =>
    if first < k then (first, pastEnd) :: (k, e) :: rest
    else if first = k then (first, pastEnd) :: rest
    else (k, e) :: wait first pastEnd rest

/-- Takes in the waiting ranges that start at or below `reached`. -/
def absorb (reached : Nat) : List (Nat × Nat) → Watermark
  | [] => ⟨reached, []⟩
  | (k, e) :: rest => if reached < k then ⟨reached, (k, e) :: rest⟩ else absorb (max reached e) rest

/-- Marks the bytes of `r` as written. -/
def complete (w : Watermark) (r : ByteRange) : Except Abort Watermark := do
  let pastEnd ← r.pastEndChecked
  if w.reached < r.first then return { w with waiting := wait r.first pastEnd w.waiting }
  else return absorb (max w.reached pastEnd) w.waiting

end Watermark

end RangeTransfer
