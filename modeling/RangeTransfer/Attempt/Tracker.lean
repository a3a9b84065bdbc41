import RangeTransfer.Attempt.Watermark
import RangeTransfer.Error
import RangeTransfer.Progress
import RangeTransfer.Range.Plan
/-!
# Trackers

What one attempt at a transfer knows: the ranges not handed out yet, the first error, the watermark,
and the count of bytes written. Every worker of the attempt shares it. A written range is accounted
for in three steps, `mark`, `count` and the raise of the caller's byte counter, between which other
workers may act; `recordWritten` takes all three at once.
-/

namespace RangeTransfer

structure Tracker where
  url : String
  resume : Nat
  total : Nat
  plan : Plan
  error : Option TransferError
  watermark : Watermark
  /-- Bytes written in this attempt. -/
  completed : Nat
  /-- HTTP status of the last range written. -/
  code : Nat

namespace Tracker

def statusPartial : Nat := 206

def statusWhole : Nat := 200

/-- The tracker of an attempt that covers the bytes from `resume` to `total`. -/
def new (url : String) (resume total chunk : Nat) : Tracker where
  url
  resume
  total
  plan := .new resume total chunk
  error := none
  watermark := .new resume
  completed := 0
  code := 0

/-- The next range to fetch; none once all are handed out or an error is recorded. -/
def claim (t : Tracker) : Except Abort (Option ByteRange × Tracker) :=
  match t.error with
  | some _ => .ok (none, t)
  | none => do
    let (range, plan) ← t.plan.take
    return (range, { t with plan })

/-- Records the error that ends the attempt, unless there is one already. -/
def recordError (t : Tracker) (e : TransferError) : Bool × Tracker :=
  match t.error with
  | some _ => (false, t)
  | none => (true, { t with error := some e })

/-- Whether an error is recorded. -/
def hasError (t : Tracker) : Bool := t.error.isSome

/-- The text of the recorded error. -/
def errorMessage (t : Tracker) : Option String := t.error.map TransferError.message

/-- The recorded error, which is forgotten. -/
def takeError (t : Tracker) : Option TransferError × Tracker :=
  (t.error, { t with error := none })

/-- Moves the watermark over a written range. -/
def mark (t : Tracker) (r : ByteRange) : Except Abort Tracker := do
  return { t with watermark := ← t.watermark.complete r }

/-- Counts the bytes of a written range and keeps its status. -/
def count (t : Tracker) (r : ByteRange) (code : Nat) : Except Abort Tracker := do
  return { t with completed := Offset.addWrapped t.completed (← r.lengthChecked), code }

/-- Accounts for a written range in the tracker and in the byte counter of the caller. -/
def recordWritten (t : Tracker) (p : Progress) (r : ByteRange) (code : Nat) :
    Except Abort (Tracker × Progress) := do
  let t ← t.mark r
  let reached := t.watermark.reached
  return (← t.count r code, p.advanceTo reached)

/-- The watermark over everything that is left. -/
def markRest (t : Tracker) : Except Abort Tracker :=
  if t.resume < t.total then do t.mark (← ByteRange.make t.resume (t.total - 1)) else .ok t

/-- Accounts for the whole object, written at its start, which ends the plan. -/
def recordWhole (t : Tracker) (p : Progress) (code : Nat) : Except Abort (Tracker × Progress) := do
  let t ← { t with plan := t.plan.exhaust }.markRest
  return ({ t with completed := t.total - t.resume, code }, p.advanceTo t.total)

/-- The first offset that is not known to be on disk. -/
def persisted (t : Tracker) : Nat := t.watermark.reached

/-- The end of the bytes written, if they all stood in one run after the resumed ones. -/
def writtenEnd (t : Tracker) : Except Abort Nat := Offset.add t.resume t.completed

/-- Whether as many bytes were written as were missing. -/
def isComplete (t : Tracker) : Except Abort Bool := do
  return decide (t.total ≤ (← t.writtenEnd))

end Tracker

end RangeTransfer
