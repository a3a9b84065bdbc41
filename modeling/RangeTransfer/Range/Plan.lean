import RangeTransfer.Range.Basic
/-!
# Plans

A plan cuts the bytes from a resume offset to the end of an object into consecutive ranges of at
most `chunk` bytes, and hands them out in increasing order, one at a time.
-/

namespace RangeTransfer

/-- The range that starts at `offset`: `chunk` bytes (at least one), cut at the end of the object.
-/
def rangeAt (offset total chunk : Nat) : Except Abort (Option ByteRange) :=
  if offset < total then
    some <$> ByteRange.make offset (min (Offset.addCapped offset (max chunk 1 - 1)) (total - 1))
  else .ok none

structure Plan where
  next : Nat
  total : Nat
  chunk : Nat
  chunk_pos : 0 < chunk
  deriving DecidableEq, Repr

namespace Plan

/-- The plan for the bytes from `resume` to `total`; a chunk of no bytes counts as one byte. -/
def new (resume total chunk : Nat) : Plan :=
  ⟨resume, total, max chunk 1, Offset.pos_max_one chunk⟩

/-- Bytes not handed out yet. -/
def remaining (p : Plan) : Nat := p.total - p.next

def exhausted (p : Plan) : Bool := decide (p.total ≤ p.next)

/-- The plan with every byte handed out. -/
def exhaust (p : Plan) : Plan := { p with next := max p.next p.total }

/-- The next range, if any is left, and the plan after it. -/
def take (p : Plan) : Except Abort (Option ByteRange × Plan) := do
  match ← rangeAt p.next p.total p.chunk with
  | none => return (none, p)
  | some r => return (some r, { p with next := ← r.pastEndChecked })

/-- Up to `n` further ranges, in order, and the plan after them. -/
def takeMany : Nat → Plan → Except Abort (List ByteRange × Plan)
  | 0, p => .ok ([], p)
  | n + 1, p => do
    match ← p.take with
    | (none, q) => return ([], q)
    | (some r, q) =>
      let (rest, q) ← takeMany n q
      return (r :: rest, q)

end Plan

end RangeTransfer
