import RangeTransfer.Layout.Name
import RangeTransfer.Path
import RangeTransfer.Offset
import RangeTransfer.Text.Decimal
/-!
# Split layouts

A split object is a directory of parts `00`, `01`, … . Every part but the last has `partSize` bytes,
and the parts in order make up the object: offset `o` lies in part `o / partSize` at
`o % partSize`.
-/

namespace RangeTransfer

@[ext] structure SplitLayout where
  directory : Path
  partSize : Nat
  partSize_pos : 0 < partSize
  deriving Repr

namespace SplitLayout

instance : DecidableEq SplitLayout := fun l l' =>
  decidable_of_iff (l.directory = l'.directory ∧ l.partSize = l'.partSize) SplitLayout.ext_iff.symm

/-- Part size of the standard settings, below the largest file of a FAT32 volume. -/
def standardPartSize : Nat := 4294901760

/-- A part size of zero counts as one byte. -/
def new (directory : Path) (partSize : Nat) : SplitLayout :=
  ⟨directory, max partSize 1, Offset.pos_max_one partSize⟩

/-- Name of the directory for the target path `target`. -/
def directoryName (target : Path) : String :=
  Layout.safeName (Text.decodeLossy (target.fileName?.getD []))

/-- The layout beside `target`, named after it. -/
def forTarget (target : Path) (partSize : Nat) : SplitLayout :=
  new ((target.parent?.getD ⟨[]⟩).join (.ofString (directoryName target))) partSize

/-- The same layout under the directory `parent`. -/
def relocated (l : SplitLayout) (parent : Path) : SplitLayout :=
  new (parent.join ⟨l.directory.fileName?.getD []⟩) l.partSize

/-- Name of part `index`, with at least two digits. -/
def partName (index : Nat) : String := Text.alignRight '0' 2 (toString index)

def partPath (l : SplitLayout) (index : Nat) : Path := l.directory.join (.ofString (partName index))

/-- The part that holds `offset`, and the place of the offset within it. -/
def locate (l : SplitLayout) (offset : Nat) : Nat × Nat := (offset / l.partSize, offset % l.partSize)

/-- Number of parts of an object of `total` bytes. -/
def partCount (l : SplitLayout) (total : Nat) : Nat := (total + (l.partSize - 1)) / l.partSize

/-- Length of part `index` of a complete object of `total` bytes. -/
def expectedLength (l : SplitLayout) (index total : Nat) : Nat :=
  min (total - Offset.mulCapped index l.partSize) l.partSize

end SplitLayout

end RangeTransfer
