import RangeTransfer.Error
import RangeTransfer.Layout.Split
import RangeTransfer.Storage.Store
/-!
# Split sinks

A directory of parts that takes each range at its absolute offset: a write is cut at the part
borders, and a part is created when the first byte for it arrives. At most one part is open at a
time.
-/

namespace RangeTransfer

structure OpenPart where
  index : Nat
  handle : Handle
  deriving DecidableEq, Repr

structure SplitSink where
  layout : SplitLayout
  current : Option OpenPart
  deriving DecidableEq, Repr

namespace SplitLayout

/-- Removes the parts from `index` on up to the first that is missing, at most `bound` of them. -/
def removeFrom (l : SplitLayout) : (bound index : Nat) → Store → Except Halt Unit × Store
  | 0, _, s => (.ok (), s)
  | bound + 1, index, s =>
    match s.removeFile (l.partPath index) with
    | .error .notFound => (.ok (), s)
    | .error e => (.error (.failed (.storage (l.partPath index) e)), s)
    | .ok s =>
      match Offset.add index 1 with
      | .error abort => (.error (.aborted abort), s)
      | .ok next => l.removeFrom bound next s

/-- Removes the parts behind part `index`, up to the first that is missing. -/
def removeAfter (l : SplitLayout) (s : Store) (index : Nat) : Except Halt Unit × Store :=
  match Offset.add index 1 with
  | .error abort => (.error (.aborted abort), s)
  | .ok next => l.removeFrom (s.entries.rows.length + 1) next s

/-- Cuts the part that holds `offset` there, and removes the parts behind it. -/
def discardFrom (l : SplitLayout) (s : Store) (offset : Nat) : Except Halt Unit × Store :=
  let (index, within) := l.locate offset
  match s.openFile (l.partPath index) false with
  | .error .notFound => l.removeAfter s index
  | .error e => (.error (.failed (.storage (l.partPath index) e)), s)
  | .ok (handle, s) =>
    match s.setSize handle within with
    | .error e => (.error (.failed (.storage (l.partPath index) e)), s)
    | .ok s => l.removeAfter s index

/-- Makes the directory of the layout, in place of a plain file of that name. -/
def claimDirectory (l : SplitLayout) (s : Store) : Except TransferError Unit × Store :=
  let removed := if s.isFile l.directory then s.removeFile l.directory else .ok s
  match removed with
  | .error e => (.error (.storage l.directory e), s)
  | .ok s =>
    match s.createDirectories l.directory with
    | (.error e, s) => (.error (.storage l.directory e), s)
    | (.ok (), s) => (.ok (), s)

end SplitLayout

namespace SplitSink

/-- Opens the directory of `layout` for a transfer that resumes at `resume`. -/
def openAt (s : Store) (layout : SplitLayout) (resume : Nat) : Except Halt SplitSink × Store :=
  match layout.claimDirectory s with
  | (.error e, s) => (.error (.failed e), s)
  | (.ok (), s) =>
    match layout.discardFrom s resume with
    | (.error halt, s) => (.error halt, s)
    | (.ok (), s) => (.ok ⟨layout, none⟩, s)

/-- The open part `index`: the current one if it is that part, else one opened or created. -/
def partAt (k : SplitSink) (s : Store) (index : Nat) : Except StorageError (OpenPart × Store) :=
  match k.current with
  | some part => if part.index = index then .ok (part, s) else openAnew
  | none => openAnew
where
  openAnew : Except StorageError (OpenPart × Store) := do
    let (handle, s) ← s.openFile (k.layout.partPath index) true
    return (⟨index, handle⟩, s)

/-- Writes the bytes of `bytes` from position `done` on, at `offset`, in at most `pieces` pieces. -/
def writeFrom (bytes : ByteArray) : (pieces done offset : Nat) → SplitSink → Store →
    Except Halt Unit × SplitSink × Store
  | 0, _, _, k, s => (.ok (), k, s)
  | pieces + 1, done, offset, k, s =>
    if bytes.size ≤ done then (.ok (), k, s)
    else
      let (index, within) := k.layout.locate offset
      let size := min (bytes.size - done) (k.layout.partSize - within)
      let path := k.layout.partPath index
      match k.partAt s index with
      | .error e => (.error (.failed (.storage path e)), { k with current := none }, s)
      | .ok (part, s) =>
        let k := { k with current := some part }
        match s.writeAt part.handle within (bytes.extract done (done + size)) with
        | .error e => (.error (.failed (.storage path e)), k, s)
        | .ok s =>
          match Offset.add offset size with
          | .error abort => (.error (.aborted abort), k, s)
          | .ok offset => writeFrom bytes pieces (done + size) offset k s

/-- Writes `bytes` at the absolute offset `offset`; every piece has at least one byte. -/
def write (k : SplitSink) (s : Store) (offset : Nat) (bytes : ByteArray) :
    Except Halt Unit × SplitSink × Store :=
  writeFrom bytes bytes.size 0 offset k s

/-- Closes the open part and discards everything from `offset` on. -/
def truncate (k : SplitSink) (s : Store) (offset : Nat) : Except Halt Unit × SplitSink × Store :=
  let (result, s) := k.layout.discardFrom s offset
  (result, { k with current := none }, s)

/-- Makes the open part durable, unless the device fails with `fault`; without an open part there is
nothing to do. -/
def flush (k : SplitSink) (s : Store) (fault : Option StorageError) : Except TransferError Store :=
  match k.current with
  | some part =>
    match s.sync part.handle fault with
    | .error e => .error (.storage (k.layout.partPath part.index) e)
    | .ok s => .ok s
  | none => .ok s

end SplitSink

end RangeTransfer
