import RangeTransfer.Attempt.Tracker
import RangeTransfer.Fetch
import RangeTransfer.Retry
import RangeTransfer.Sink.Basic
/-!
# Workers

A worker claims a range, asks for it until it gets a good answer or may not ask again, stores the
bytes, accounts for them, and starts over. `Stage` is where it stands, `Stage.advance` the next
single step it takes on what all workers share. A poll of the stop flag and the action it guards are
one step.
-/

namespace RangeTransfer

/-- What the workers of an attempt have in common. -/
structure Shared (ρ σ : Type) where
  session : Session ρ
  sink : σ
  tracker : Tracker

structure WorkerRules where
  policy : RetryPolicy
  /-- Whether a response with the whole object completes the transfer. -/
  acceptWhole : Bool

inductive Stage where
  /-- About to claim a range. -/
  | seeking
  | claimed (range : ByteRange)
  /-- About to make request number `attempt` for the range. -/
  | asking (range : ByteRange) (attempt : Nat)
  /-- Waiting after request number `attempt` failed. -/
  | pausing (range : ByteRange) (attempt : Nat)
  /-- About to record an error. -/
  | failing (range : ByteRange) (error : TransferError)
  /-- About to store a body. -/
  | holding (range : ByteRange) (body : Accepted)
  /-- About to move the watermark over a stored range. -/
  | written (range : ByteRange)
  /-- About to count a range over which the watermark, now at `reached`, has moved. -/
  | marked (range : ByteRange) (reached : Nat)
  /-- About to raise the byte counter to `reached`. -/
  | counted (range : ByteRange) (reached : Nat)
  /-- About to account for the whole object. -/
  | writtenWhole (range : ByteRange)
  | stopped
  | died (abort : Abort)

namespace Stage

def finished : Stage → Bool
  | stopped | died _ => true
  | _ => false

/-- The range that a worker has claimed and not accounted for. -/
def range? : Stage → Option ByteRange
  | claimed r | asking r _ | pausing r _ | failing r _ | holding r _ | written r | marked r _
  | counted r _ | writtenWhole r => some r
  | seeking | stopped | died _ => none

/-- After request number `attempt` failed with `e`: wait for another one, or give up. -/
def afterError (policy : RetryPolicy) (r : ByteRange) (attempt : Nat) (e : TransferError) : Stage :=
  if e.retryable && (policy.rangeDelay attempt).isSome then pausing r attempt else failing r e

/-- After the answer to request number `attempt`. -/
def afterAnswer (rules : WorkerRules) (url : String) (total : Nat) (r : ByteRange) (attempt : Nat) :
    Answer → Stage
  | .crashed reason => died (.crash reason)
  | .failed e => afterError rules.policy r attempt e
  | .response response =>
    match classify url r total response rules.acceptWhole with
    | .ok body => holding r body
    | .error (.failed e) => afterError rules.policy r attempt e
    | .error (.aborted abort) => died abort

/-- After a write that was to lead to `next`. -/
def afterWrite (r : ByteRange) (next : Stage) : Except Halt Unit → Stage
  | .ok () => next
  | .error (.failed e) => failing r e
  | .error (.aborted abort) => died abort

variable {ρ σ : Type} [Remote ρ] [RangeSink σ]

/-- The next step of the worker over connection `connection`. -/
def advance (rules : WorkerRules) (connection : Nat) (stage : Stage) (x : Shared ρ σ) :
    Stage × Shared ρ σ :=
  match stage with
  | seeking =>
    match x.tracker.claim with
    | .error abort => (died abort, x)
    | .ok (none, tracker) => (stopped, { x with tracker })
    | .ok (some r, tracker) => (claimed r, { x with tracker })
  | claimed r => (if x.session.cancelled then failing r .cancelled else asking r 1, x)
  | asking r attempt =>
    if x.session.cancelled then (failing r .cancelled, x)
    else
      let (answer, session) := x.session.ask ⟨connection, x.tracker.url, some r⟩
      (afterAnswer rules x.tracker.url x.tracker.total r attempt answer, { x with session })
  | pausing r attempt =>
    (if x.session.cancelled then failing r .cancelled else asking r (attempt + 1), x)
  | failing _ e => (stopped, { x with tracker := (x.tracker.recordError e).2 })
  | holding r (.part body) =>
    let (result, sink) := RangeSink.write x.sink r.first body
    (afterWrite r (written r) result, { x with sink })
  | holding r (.whole body) =>
    let (result, sink) := RangeSink.write x.sink 0 body
    (afterWrite r (writtenWhole r) result, { x with sink })
  | written r =>
    match x.tracker.mark r with
    | .error abort => (died abort, x)
    | .ok tracker => (marked r tracker.watermark.reached, { x with tracker })
  | marked r reached =>
    match x.tracker.count r Tracker.statusPartial with
    | .error abort => (died abort, x)
    | .ok tracker => (counted r reached, { x with tracker })
  | counted _ reached => (seeking, { x with session := x.session.advanceTo reached })
  | writtenWhole _ =>
    match x.tracker.recordWhole x.session.progress Tracker.statusWhole with
    | .error abort => (died abort, x)
    | .ok (tracker, progress) =>
      (stopped, { x with tracker, session := { x.session with progress } })
  | stopped => (stopped, x)
  | died abort => (died abort, x)

/-- The worker has handed the first `stored` bytes of its body to the sink. -/
def storePart (stage : Stage) (stored : Nat) (x : Shared ρ σ) : Shared ρ σ :=
  match stage with
  | holding r (.part body) =>
    { x with sink := (RangeSink.write x.sink r.first (body.extract 0 stored)).2 }
  | holding _ (.whole body) =>
    { x with sink := (RangeSink.write x.sink 0 (body.extract 0 stored)).2 }
  | _ => x

/-- The worker dies in the call of its connection or of the sink that it is in; a write has stored
the first `stored` bytes. Between calls nothing kills a worker. -/
def lose (stage : Stage) (stored : Nat) (x : Shared ρ σ) : Stage × Shared ρ σ :=
  match stage with
  | asking _ _ | holding _ _ => (died (.crash "worker lost"), stage.storePart stored x)
  | stage => (stage, x)

/-- The write that the worker is in fails with `error` after its first `stored` bytes. -/
def refuse (stage : Stage) (stored : Nat) (error : TransferError) (x : Shared ρ σ) :
    Stage × Shared ρ σ :=
  match stage with
  | holding r _ => (failing r error, stage.storePart stored x)
  | stage => (stage, x)

end Stage

end RangeTransfer
