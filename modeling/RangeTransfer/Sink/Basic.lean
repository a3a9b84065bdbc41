import RangeTransfer.Sink.Direct
import RangeTransfer.Sink.Split
/-!
# Sinks

Where the workers of a transfer put the bytes of their ranges. A `Sink` is a single file or a split
directory together with the store that it lies in; a `Recorder` only notes what it is given.
-/

namespace RangeTransfer

/-- Anything that takes bytes at absolute offsets. A write that fails may have changed it. -/
class RangeSink (σ : Type) where
  write : σ → (offset : Nat) → ByteArray → Except Halt Unit × σ

inductive Output where
  | direct (sink : DirectSink)
  | split (sink : SplitSink)
  deriving DecidableEq, Repr

structure Sink where
  output : Output
  store : Store

namespace Sink

def write (k : Sink) (offset : Nat) (bytes : ByteArray) : Except Halt Unit × Sink :=
  match k.output with
  | .direct d =>
    match d.write k.store offset bytes with
    | .error e => (.error (.failed e), k)
    | .ok store => (.ok (), { k with store })
  | .split p =>
    let (result, p, store) := p.write k.store offset bytes
    (result, ⟨.split p, store⟩)

/-- Discards every byte from `size` on. -/
def truncate (k : Sink) (size : Nat) : Except Halt Unit × Sink :=
  match k.output with
  | .direct d =>
    match d.truncate k.store size with
    | .error e => (.error (.failed e), k)
    | .ok store => (.ok (), { k with store })
  | .split p =>
    let (result, p, store) := p.truncate k.store size
    (result, ⟨.split p, store⟩)

/-- Makes what is open durable. If the device fails with `fault`, the error comes back and the sink is
as it was. -/
def tryFlush (k : Sink) (fault : Option StorageError) : Except TransferError Unit × Sink :=
  let flushed := match k.output with
    | .direct d => d.flush k.store fault
    | .split p => p.flush k.store fault
  match flushed with
  | .error e => (.error e, k)
  | .ok store => (.ok (), { k with store })

/-- The sink after a flush that the device carries out. -/
def flush (k : Sink) : Sink := (k.tryFlush none).2

/-- The file or directory that the sink writes to. -/
def location (k : Sink) : Path :=
  match k.output with
  | .direct d => d.path
  | .split p => p.layout.directory

instance : RangeSink Sink := ⟨write⟩

end Sink

/-- The writes so far, the latest first. The write with number `refused` fails. -/
structure Recorder where
  writes : List (Nat × ByteArray)
  attempts : Nat
  refused : Option Nat

namespace Recorder

def write (k : Recorder) (offset : Nat) (bytes : ByteArray) : Except Halt Unit × Recorder :=
  let next := { k with attempts := k.attempts + 1 }
  if k.refused = some k.attempts then
    (.error (.failed (.storage (.ofString "mem") (.other "disk full"))), next)
  else (.ok (), { next with writes := (offset, bytes) :: k.writes })

instance : RangeSink Recorder := ⟨write⟩

end Recorder

end RangeTransfer
