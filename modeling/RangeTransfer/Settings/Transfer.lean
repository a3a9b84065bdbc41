import RangeTransfer.Attempt.Pool
import RangeTransfer.Layout.Split
import RangeTransfer.Retry
/-!
# Transfer settings

The tuning of a transfer. Values out of range are kept as they are given and brought into range
where they are used: `clampWorkers` bounds the workers by the layout, and `effectiveChunk` lowers
the chunk so that the ranges of all workers together fit the window.
-/

namespace RangeTransfer

/-- How an object is stored: in one file, or in a directory of parts. -/
inductive LayoutKind where
  | direct
  | split
  deriving DecidableEq, Repr

def mebibyte : Nat := 1024 * 1024

structure TransferSettings where
  chunkMebibytes : Nat
  connections : Nat
  forceSplit : Bool
  /-- Most bytes that are asked for and not yet written. -/
  windowBytes : Nat
  partSize : Nat
  /-- Largest object that is stored in one file. -/
  singleFileLimit : Nat
  retry : RetryPolicy
  spawn : SpawnSettings
  /-- Directory to use in place of a parent that cannot be created. -/
  fallbackDirectory : Option Path
  deriving DecidableEq, Repr

/-- The largest chunk, if `chunk` is too large, for which `workers` chunks fit `cap`; at least one
byte. -/
def capWindow (chunk workers cap : Nat) : Nat :=
  let workers := max workers 1
  if Offset.mulCapped chunk workers ≤ cap then chunk else max (cap / workers) 1

namespace TransferSettings

def chunkLimit : Nat := 32

def standard : TransferSettings where
  chunkMebibytes := 8
  connections := 4
  forceSplit := false
  windowBytes := 256 * mebibyte
  partSize := SplitLayout.standardPartSize
  singleFileLimit := 0xffffffff
  retry := .standard
  spawn := .standard
  fallbackDirectory := none

def chunkBytes (c : TransferSettings) : Nat := max 1 (min c.chunkMebibytes chunkLimit) * mebibyte

def windowCap (c : TransferSettings) : Nat := max c.windowBytes mebibyte

def maxWorkers : LayoutKind → Nat
  | .direct => 32
  | .split => 16

def clampWorkers (requested : Nat) (layout : LayoutKind) : Nat :=
  max 1 (min requested (maxWorkers layout))

def effectiveChunk (c : TransferSettings) (chunk workers : Nat) : Nat :=
  capWindow (max chunk 1) workers c.windowCap

end TransferSettings

end RangeTransfer
