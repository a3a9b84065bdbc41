import RangeTransfer.Layout.Split
import RangeTransfer.Storage.Store
/-!
# Parts on disk

What a split directory holds, read off the lengths of its parts alone. `existingSize` is the offset
from which a transfer resumes; `scan` lists the parts up to the first gap.
-/

namespace RangeTransfer

/-- How many of the indices from `index` on, at most `bound`, satisfy `p` before one does not. -/
def countWhile (p : Nat → Bool) : (bound index : Nat) → Nat
  | 0, _ => 0
  | bound + 1, index => if p index then countWhile p bound (index + 1) + 1 else 0

namespace SplitLayout

/-- Whether part `index` is a file of the length it has in a complete object of `total` bytes. -/
def partComplete (l : SplitLayout) (s : Store) (total index : Nat) : Bool :=
  s.fileSize? (l.partPath index) = some (l.expectedLength index total)

/-- Number of leading parts that are complete. -/
def existingPartCount (l : SplitLayout) (s : Store) (total : Nat) : Nat :=
  countWhile (l.partComplete s total) (l.partCount total) 0

/-- Bytes in the complete leading parts. -/
def existingSize (l : SplitLayout) (s : Store) (total : Nat) : Except Abort Nat := do
  return min (← Offset.mul (l.existingPartCount s total) l.partSize) total

/-- Length of each part from `index` on up to the first gap, at most `bound` of them. -/
def scanFrom (l : SplitLayout) (s : Store) : (bound index : Nat) → List (Nat × Nat)
  | 0, _ => []
  | bound + 1, index =>
    match s.fileSize? (l.partPath index) with
    | some size => (index, size) :: l.scanFrom s bound (index + 1)
    | none => []

/-- The parts on disk up to the first gap, with their lengths. Different parts are different
entries, so there are no more of them than entries. -/
def scan (l : SplitLayout) (s : Store) : List (Nat × Nat) := l.scanFrom s s.entries.rows.length 0

end SplitLayout

end RangeTransfer
