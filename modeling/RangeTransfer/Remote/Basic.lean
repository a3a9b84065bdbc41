import RangeTransfer.Duration
import RangeTransfer.Error
import RangeTransfer.Progress
import RangeTransfer.Range.ContentRange
/-!
# Remotes

A remote serves objects: it may know the size of one, it opens connections, and it answers requests
made over them. A session is a remote together with the progress that its transfer reports and the
journal of what was done.
-/

namespace RangeTransfer

structure Response where
  status : Nat
  body : ByteArray
  /-- The `Content-Range` header, if there is one that can be read. -/
  contentRange : Option ContentRange

def Response.isSuccess (r : Response) : Bool := 200 ≤ r.status && r.status < 300

/-- A GET for `range`, or for the whole object, over one of the open connections. -/
structure Query where
  connection : Nat
  url : String
  range : Option ByteRange

/-- How a request ends. A crash ends the thread that made it. -/
inductive Answer where
  | response (r : Response)
  | failed (error : TransferError)
  | crashed (reason : String)

/-- An answer, and whether the stop flag was raised while it was on its way. -/
structure Reply where
  answer : Answer
  raisesFlag : Bool

class Remote (ρ : Type) where
  /-- The size of the object at a URL, if it is known. -/
  objectSize : ρ → (url : String) → Option Nat × ρ
  connect : ρ → Except TransferError Unit × ρ
  get : ρ → Query → Reply × ρ

/-- What a transfer does that can be seen from outside. -/
inductive Event where
  /-- The phase that the caller sees from here on. -/
  | phase (phase : Phase)
  | connect
  /-- A request, and the byte counter when it was made. -/
  | request (range : Option ByteRange) (counter : Nat)
  /-- A wait before the whole transfer is run again. -/
  | wait (delay : Duration)
  /-- The announcement of a complete split directory. -/
  | splitCompleted (directory : Path)
  deriving DecidableEq, Repr

structure Session (ρ : Type) where
  remote : ρ
  progress : Progress
  /-- The latest event comes first. -/
  journal : List Event

namespace Session

variable {ρ : Type}

def note (x : Session ρ) (e : Event) : Session ρ := { x with journal := e :: x.journal }

def cancelled (x : Session ρ) : Bool := x.progress.cancelled

/-- Raises the flag if `raise` holds. -/
def cancelIf (x : Session ρ) (raise : Bool) : Session ρ :=
  if raise then { x with progress := x.progress.cancel } else x

def advanceTo (x : Session ρ) (bytes : Nat) : Session ρ :=
  { x with progress := x.progress.advanceTo bytes }

def setTotal (x : Session ρ) (total : Nat) : Session ρ :=
  { x with progress := x.progress.setTotal total }

/-- Stores the phase, and notes what is stored then. -/
def enter (x : Session ρ) (phase : Phase) : Session ρ :=
  let progress := x.progress.setPhase phase
  { x with progress, journal := .phase progress.phase :: x.journal }

variable [Remote ρ]

def objectSize (x : Session ρ) (url : String) : Option Nat × Session ρ :=
  let (size, remote) := Remote.objectSize x.remote url
  (size, { x with remote })

def connect (x : Session ρ) : Except TransferError Unit × Session ρ :=
  let (result, remote) := Remote.connect x.remote
  (result, { x with remote, journal := .connect :: x.journal })

def ask (x : Session ρ) (q : Query) : Answer × Session ρ :=
  let (reply, remote) := Remote.get x.remote q
  let journal := .request q.range x.progress.bytes :: x.journal
  (reply.answer, { x with remote, journal }.cancelIf reply.raisesFlag)

/-- Opens up to `n` further connections, until one is refused; the number opened. -/
def connectMore : Nat → Session ρ → Nat × Session ρ
  | 0, x => (0, x)
  | n + 1, x =>
    match x.connect with
    | (.error _, x) => (0, x)
    | (.ok (), x) =>
      let (opened, x) := connectMore n x
      (opened + 1, x)

end Session

end RangeTransfer
