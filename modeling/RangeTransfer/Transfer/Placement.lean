import RangeTransfer.Error
import RangeTransfer.Layout.Parts
import RangeTransfer.Transfer.Request
/-!
# Placements

Where an attempt writes, and how much of the object is already there. A single file counts by its
length, unless that reaches the size of the object; a split directory by its complete leading parts.
-/

namespace RangeTransfer

inductive Placement where
  | direct (path : Path) (resume : Nat)
  | split (layout : SplitLayout) (resume : Nat)
  deriving DecidableEq, Repr

namespace Placement

def resume : Placement → Nat
  | direct _ resume | split _ resume => resume

def kind : Placement → LayoutKind
  | direct _ _ => .direct
  | split _ _ => .split

def path : Placement → Path
  | direct path _ => path
  | split layout _ => layout.directory

/-- Number of parts of an object of `size` bytes, in a split directory. -/
def partCount? (p : Placement) (size : Nat) : Option Nat :=
  match p with
  | direct _ _ => none
  | split layout _ => some (layout.partCount size)

end Placement

namespace Store

/-- Makes the directory above `path`. If that fails, makes the fallback directory, which is then the
answer; without one, the failure stands. -/
def usableParent (s : Store) (fallback : Option Path) (path : Path) :
    Except TransferError (Option Path) × Store :=
  match path.parentDirectory? with
  | none => (.ok none, s)
  | some parent =>
    match s.createDirectories parent, fallback with
    | (.ok (), s), _ => (.ok none, s)
    | (.error e, s), none => (.error (.storage parent e), s)
    | (.error _, s), some fallback =>
      match s.createDirectories fallback with
      | (.ok (), s) => (.ok (some fallback), s)
      | (.error e, s) => (.error (.storage fallback e), s)

/-- How much of an object of `size` bytes the single file `path` holds. -/
def directResume (s : Store) (path : Path) (size : Nat) : Nat :=
  let existing := (s.reportedSize? path).getD 0
  if existing < size then existing else 0

def placeDirect (s : Store) (fallback : Option Path) (target : Path) (size : Nat) :
    Except TransferError Placement × Store :=
  match s.usableParent fallback target with
  | (.error e, s) => (.error e, s)
  | (.ok moved, s) =>
    let path := match moved with
      | some parent => parent.join ⟨target.fileName?.getD []⟩
      | none => target
    (.ok (.direct path (s.directResume path size)), s)

def placeSplit (s : Store) (fallback : Option Path) (target : Path) (partSize size : Nat) :
    Except Halt Placement × Store :=
  let layout := SplitLayout.forTarget target partSize
  match s.usableParent fallback layout.directory with
  | (.error e, s) => (.error (.failed e), s)
  | (.ok moved, s) =>
    let layout := match moved with
      | some parent => layout.relocated parent
      | none => layout
    match layout.existingSize s size with
    | .error abort => (.error (.aborted abort), s)
    | .ok resume => (.ok (.split layout resume), s)

/-- The place for an object of `size` bytes in the given layout. -/
def place (s : Store) (settings : TransferSettings) (target : Path) (layout : LayoutKind)
    (size : Nat) : Except Halt Placement × Store :=
  match layout with
  | .direct =>
    match s.placeDirect settings.fallbackDirectory target size with
    | (.error e, s) => (.error (.failed e), s)
    | (.ok placement, s) => (.ok placement, s)
  | .split => s.placeSplit settings.fallbackDirectory target settings.partSize size

end Store

end RangeTransfer
