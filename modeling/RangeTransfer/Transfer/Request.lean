import RangeTransfer.Settings.Transfer
/-!
# Requests

One remote object to be fetched to one local target, and the choice of its layout.
-/

namespace RangeTransfer

inductive LayoutHint where
  | direct
  | split
  /-- Split only what is too large for one file, or everything if the settings force it. -/
  | auto
  deriving DecidableEq, Repr

namespace LayoutHint

def resolve (hint : LayoutHint) (size singleFileLimit : Nat) (forceSplit : Bool) : LayoutKind :=
  match hint with
  | direct => .direct
  | split => .split
  | auto => if forceSplit || singleFileLimit < size then .split else .direct

/-- Whether only the split layout will do, whatever the size. -/
def requiresSplit (hint : LayoutHint) (forceSplit : Bool) : Bool :=
  match hint with
  | direct => false
  | split => true
  | auto => forceSplit

end LayoutHint

structure TransferRequest where
  url : String
  target : Path
  /-- Size of the object; zero if it is not known. -/
  size : Nat
  chunk : Nat
  workers : Nat
  layout : LayoutHint
  deriving DecidableEq, Repr

namespace TransferRequest

def ofSettings (url : String) (target : Path) (settings : TransferSettings) : TransferRequest :=
  ⟨url, target, 0, settings.chunkBytes, settings.connections, .auto⟩

def knownSize? (r : TransferRequest) : Option Nat := if r.size = 0 then none else some r.size

end TransferRequest

end RangeTransfer
