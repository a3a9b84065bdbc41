import RangeTransfer.Attempt.Strategy
import RangeTransfer.Transfer.Placement
/-!
# Attempts

One attempt at a transfer: find out the size, choose the layout and the place, fetch the missing
ranges, and settle what is on disk. A failed attempt trims what it wrote to the run of bytes from
the start that are all there, and reports its length. An object of unknown size is fetched by a
single request instead.
-/

namespace RangeTransfer

/-- What the surroundings do during one attempt. -/
structure Conditions where
  /-- How the workers move, before they take turns. -/
  moves : List Move
  /-- How many threads the system starts; as many as are asked for, if there is no number. -/
  granted : Option Nat
  /-- Whether the caller raises the stop flag before ranges are fetched. -/
  stopsEarly : Bool
  /-- Whether the caller raises the stop flag while the transfer waits after the attempt. -/
  stopsInWait : Bool
  /-- How the device fails when the bytes are to be made durable, if it does. -/
  syncFault : Option StorageError

/-- Nothing interferes. -/
def Conditions.calm : Conditions := ⟨[], none, false, false, none⟩

structure Outcome where
  /-- The file or the split directory. -/
  path : Path
  layout : LayoutKind
  strategy : StrategyKind
  total : Nat
  resumedFrom : Nat
  attempts : Nat
  parts : Option Nat
  chunk : Nat
  workers : Nat
  deriving DecidableEq, Repr

/-- Bytes fetched by the last attempt. -/
def Outcome.fetched (o : Outcome) : Nat := o.total - o.resumedFrom

/-- How an attempt ends early; a failed one leaves `persisted` bytes on disk. -/
inductive AttemptHalt where
  | failed (error : TransferError) (persisted : Nat)
  | aborted (abort : Abort)
  deriving DecidableEq, Repr

def Halt.leaving (persisted : Nat) : Halt → AttemptHalt
  | .failed e => .failed e persisted
  | .aborted abort => .aborted abort

/-- A request and the settings under which it is carried out. -/
structure Job where
  request : TransferRequest
  settings : TransferSettings
  deriving DecidableEq, Repr

/-- A transfer in progress. -/
structure Transfer (ρ : Type) where
  session : Session ρ
  store : Store

/-- An attempt that is ready to fetch ranges. -/
structure Run (ρ : Type) where
  strategy : Strategy
  workers : Nat
  chunk : Nat
  shared : Shared ρ Sink

/-- The outcome for an object of `size` bytes at `placement`. -/
def Placement.outcome (p : Placement) (strategy : StrategyKind) (size chunk workers : Nat) :
    Outcome where
  path := p.path
  layout := p.kind
  strategy
  total := size
  resumedFrom := if strategy = .alreadyComplete then size else p.resume
  attempts := 1
  parts := p.partCount? size
  chunk
  workers

/-- Opens the sink at a placement. A file is extended to its full size before a pool writes to it.
-/
def Placement.openSink (p : Placement) (s : Store) (kind : StrategyKind) (size : Nat) :
    Except Halt Sink × Store :=
  match p with
  | direct path resume =>
    match DirectSink.openAt s path resume (if kind = .parallel then some size else none) with
    | (.error e, s) => (.error (.failed e), s)
    | (.ok sink, s) => (.ok ⟨.direct sink, s⟩, s)
  | split layout resume =>
    match SplitSink.openAt s layout resume with
    | (.error halt, s) => (.error halt, s)
    | (.ok sink, s) => (.ok ⟨.split sink, s⟩, s)

namespace Transfer

variable {ρ : Type}

def enter (x : Transfer ρ) (phase : Phase) : Transfer ρ := { x with session := x.session.enter phase }

def cancelled (x : Transfer ρ) : Bool := x.session.cancelled

variable [Remote ρ]

/-- The size of the requested object: as the request says, else as the remote says. -/
def findSize (x : Transfer ρ) (request : TransferRequest) : Option Nat × Transfer ρ :=
  match request.knownSize? with
  | some size => (some size, x)
  | none =>
    let (size, session) := x.session.objectSize request.url
    (size.filter (0 < ·), { x with session })

/-- Chooses between one worker and a pool, which takes a probe if a pool would pay. -/
def findStrategy (x : Transfer ρ) (job : Job) (workers remaining chunk : Nat) :
    Except Abort StrategyKind × Transfer ρ :=
  if poolPays workers remaining chunk then
    match x.session.probe job.request.url with
    | (.error abort, session) => (.error abort, { x with session })
    | (.ok honoured, session) =>
      (.ok (chooseKind workers remaining chunk honoured), { x with session })
  else (.ok .sequential, x)

/-- Opens the sink for the ranges of an object of `size` bytes. -/
def openRun (x : Transfer ρ) (job : Job) (placement : Placement) (size workers chunk : Nat)
    (kind : StrategyKind) : Except AttemptHalt (Run ρ) × Transfer ρ :=
  let resume := placement.resume
  let workers := if kind = .parallel then workers else 1
  let strategy : Strategy := if kind = .parallel then
      .pool workers job.settings.retry job.settings.spawn
    else .sequential job.settings.retry
  match placement.openSink x.store kind size with
  | (.error halt, store) => (.error (halt.leaving resume), { x with store })
  | (.ok sink, store) =>
    (.ok ⟨strategy, workers, chunk, ⟨x.session, sink, .new job.request.url resume size chunk⟩⟩,
      { x with store })

/-- Connects, chooses the strategy and opens the sink. -/
def prepareRun (x : Transfer ρ) (job : Job) (placement : Placement) (size : Nat) :
    Except AttemptHalt (Run ρ) × Transfer ρ :=
  let resume := placement.resume
  let x := { x with session := x.session.advanceTo resume }
  let x := x.enter (if 0 < resume then .resuming else .downloading)
  let workers := TransferSettings.clampWorkers job.request.workers placement.kind
  let chunk := job.settings.effectiveChunk job.request.chunk workers
  match x.session.connect with
  | (.error e, session) => (.error (.failed e resume), { x with session })
  | (.ok (), session) =>
    let x := { x with session }
    match Offset.sub size resume with
    | .error abort => (.error (.aborted abort), x)
    | .ok remaining =>
      match x.findStrategy job workers remaining chunk with
      | (.error abort, x) => (.error (.aborted abort), x)
      | (.ok kind, x) => x.openRun job placement size workers chunk kind

/-- The error of an attempt that did not write every byte. -/
def shortfall (t : Tracker) (executed : Except Halt Unit) : Except Abort TransferError :=
  match executed with
  | .error (.failed e) => .ok e
  | .error (.aborted abort) => .error abort
  | .ok () => do return .protocol t.url (.incomplete (← t.writtenEnd) t.total)

/-- Trims what a failed attempt wrote to the bytes below the watermark, and makes it durable. It is
passed over if either fails. -/
def trim (sink : Sink) (persisted : Nat) (fault : Option StorageError) : Except Abort Sink :=
  match sink.truncate persisted with
  | (.error (.aborted abort), _) => .error abort
  | (_, sink) => .ok (sink.tryFlush fault).2

/-- Settles an attempt whose workers have finished: it has succeeded if every byte was written,
whatever error a worker recorded, and can be made durable. -/
def settleRun (run : Run ρ) (placement : Placement) (size : Nat) (fault : Option StorageError)
    (executed : Except Halt Unit) (x : Shared ρ Sink) : Except AttemptHalt Outcome × Transfer ρ :=
  let after (sink : Sink) : Transfer ρ := ⟨x.session, sink.store⟩
  match executed, x.tracker.isComplete with
  | .error (.aborted abort), _ => (.error (.aborted abort), after x.sink)
  | _, .error abort => (.error (.aborted abort), after x.sink)
  | _, .ok true =>
    match x.sink.tryFlush fault with
    | (.error e, sink) => (.error (.failed e x.tracker.persisted), after sink)
    | (.ok (), sink) =>
      (.ok (placement.outcome run.strategy.kind size run.chunk run.workers), after sink)
  | executed, .ok false =>
    match shortfall x.tracker executed with
    | .error abort => (.error (.aborted abort), after x.sink)
    | .ok e =>
      let persisted := x.tracker.persisted
      match trim x.sink persisted fault with
      | .error abort => (.error (.aborted abort), after x.sink)
      | .ok sink => (.error (.failed e persisted), after sink)

/-- Fetches the missing ranges of an object of `size` bytes. -/
def runRanged (x : Transfer ρ) (job : Job) (conditions : Conditions) (placement : Placement)
    (size : Nat) : Except AttemptHalt Outcome × Transfer ρ :=
  match x.prepareRun job placement size with
  | (.error halt, x) => (.error halt, x)
  | (.ok run, _) =>
    let (executed, shared) := run.strategy.execute conditions.moves conditions.granted run.shared
    settleRun run placement size conditions.syncFault executed shared

/-- An attempt at an object of `size` bytes. -/
def attemptSized (x : Transfer ρ) (job : Job) (conditions : Conditions) (size : Nat) :
    Except AttemptHalt Outcome × Transfer ρ :=
  let x := { x with session := x.session.setTotal size }.enter .sizeResolved
  let layout := job.request.layout.resolve size job.settings.singleFileLimit job.settings.forceSplit
  match x.store.place job.settings job.request.target layout size with
  | (.error halt, store) => (.error (halt.leaving 0), { x with store })
  | (.ok placement, store) =>
    let x := { x with store }.enter .layoutChosen
    let x := { x with session := x.session.cancelIf conditions.stopsEarly }
    if x.cancelled then (.error (.failed .cancelled placement.resume), x)
    else if size ≤ placement.resume then
      (.ok (placement.outcome .alreadyComplete size 0 0),
        { x with session := x.session.advanceTo size })
    else x.runRanged job conditions placement size

/-- Stores a whole object in the file `path`, whatever was there, and makes it durable. -/
def storeWhole (s : Store) (path : Path) (body : ByteArray) (fault : Option StorageError) :
    Except TransferError Unit × Store :=
  match DirectSink.create s path with
  | (.error e, s) => (.error e, s)
  | (.ok sink, s) =>
    match sink.write s 0 body with
    | .error e => (.error e, s)
    | .ok s =>
      match sink.flush s fault with
      | .error e => (.error e, s)
      | .ok s => (.ok (), s)

/-- Fetches the object by a request without a range, and stores it in the file `path`. -/
def fetchTo (x : Transfer ρ) (url : String) (path : Path) (fault : Option StorageError) :
    Except AttemptHalt Outcome × Transfer ρ :=
  match x.session.connect with
  | (.error e, session) => (.error (.failed e 0), { x with session })
  | (.ok (), session) =>
    match session.fetchWhole url with
    | (.error halt, session) => (.error (halt.leaving 0), { x with session })
    | (.ok body, session) =>
      match storeWhole x.store path body fault with
      | (.error e, store) => (.error (.failed e 0), ⟨session, store⟩)
      | (.ok (), store) =>
        let size := body.size
        (.ok ⟨path, .direct, .singleShot, size, 0, 1, none, size, 1⟩,
          ⟨(session.setTotal size).advanceTo size, store⟩)

/-- An attempt at an object of unknown size. -/
def attemptUnsized (x : Transfer ρ) (job : Job) (conditions : Conditions) :
    Except AttemptHalt Outcome × Transfer ρ :=
  let url := job.request.url
  if job.request.layout.requiresSplit job.settings.forceSplit then
    (.error (.failed (.configuration (.unknownSize url)) 0), x)
  else
    let x := { x with session := x.session.cancelIf conditions.stopsEarly }
    if x.cancelled then (.error (.failed .cancelled 0), x)
    else match x.store.place job.settings job.request.target .direct Offset.last with
      | (.error halt, store) => (.error (halt.leaving 0), { x with store })
      | (.ok placement, store) =>
        ({ x with store }.enter .downloading).fetchTo url placement.path conditions.syncFault

def attempt (job : Job) (conditions : Conditions) (x : Transfer ρ) :
    Except AttemptHalt Outcome × Transfer ρ :=
  match (x.enter .sizeUnknown).findSize job.request with
  | (some size, x) => x.attemptSized job conditions size
  | (none, x) => x.attemptUnsized job conditions

end Transfer

end RangeTransfer
