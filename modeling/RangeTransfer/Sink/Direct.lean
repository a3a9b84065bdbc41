import RangeTransfer.Error
import RangeTransfer.Storage.Store
/-!
# Single-file sinks

A file that takes every range at its absolute offset.
-/

namespace RangeTransfer

/-- The transfer error for a storage error at `path`. -/
def atPath {α : Type} (path : Path) (result : Except StorageError α) : Except TransferError α :=
  result.mapError (.storage path)

structure DirectSink where
  path : Path
  handle : Handle
  deriving DecidableEq, Repr

namespace DirectSink

/-- Sets the length of the open file to `resume`, then to `presize` if that is more. -/
def prepare (d : DirectSink) (s : Store) (resume : Nat) (presize : Option Nat) :
    Except TransferError DirectSink × Store :=
  match s.setSize d.handle resume with
  | .error e => (.error (.storage d.path e), s)
  | .ok s =>
    match presize.filter (resume < ·) with
    | none => (.ok d, s)
    | some size =>
      match s.setSize d.handle size with
      | .error e => (.error (.storage d.path e), s)
      | .ok s => (.ok d, s)

/-- Opens `path` for a transfer that resumes at `resume`: the directories above it are created,
bytes from `resume` on are discarded, and the file is extended to `presize` if that is given. -/
def openAt (s : Store) (path : Path) (resume : Nat) (presize : Option Nat) :
    Except TransferError DirectSink × Store :=
  let parent := path.parentDirectory?.getD ⟨[]⟩
  match s.createDirectories parent with
  | (.error e, s) => (.error (.storage parent e), s)
  | (.ok (), s) =>
    match s.openFile path true with
    | .error e => (.error (.storage path e), s)
    | .ok (handle, s) => prepare ⟨path, handle⟩ s resume presize

/-- Opens `path` as an empty file. -/
def create (s : Store) (path : Path) : Except TransferError DirectSink × Store :=
  openAt s path 0 none

def write (d : DirectSink) (s : Store) (offset : Nat) (bytes : ByteArray) :
    Except TransferError Store :=
  atPath d.path (s.writeAt d.handle offset bytes)

def truncate (d : DirectSink) (s : Store) (size : Nat) : Except TransferError Store :=
  atPath d.path (s.setSize d.handle size)

/-- Makes the file durable, unless the device fails with `fault`. -/
def flush (d : DirectSink) (s : Store) (fault : Option StorageError) : Except TransferError Store :=
  atPath d.path (s.sync d.handle fault)

end DirectSink

end RangeTransfer
