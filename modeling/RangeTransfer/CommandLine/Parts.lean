import RangeTransfer.CommandLine.Ending
import RangeTransfer.Layout.Parts
/-!
# The command `parts`

Lists the parts of a split directory and, if the size of the object is given, tells how much of it a
transfer would not have to fetch again.
-/

namespace RangeTransfer.CommandLine

/-- How complete the parts are for an object of `total` bytes. -/
def completeness (l : SplitLayout) (s : Store) (total : Nat) : Except Abort String := do
  let usable ← l.existingSize s total
  let expected := toString (l.partCount total)
  return if total ≤ usable then "Complete: " ++ expected ++ " of " ++ expected ++ " parts"
    else "Incomplete: resume would start at byte " ++ toString usable ++ " of " ++ toString total ++
      " (" ++ toString (l.existingPartCount s total) ++ " of " ++ expected ++ " parts usable)"

/-- The line for part `index` of `size` bytes. -/
def partLine (index size : Nat) : String :=
  "  " ++ SplitLayout.partName index ++ "  " ++ Text.alignRight ' ' 14 (toString size) ++ " bytes"

/-- A line per part, their sum, and how complete they are if `size` is known. -/
def partsReport (l : SplitLayout) (s : Store) (size : Option Nat) : Except Abort (List String) := do
  let parts := l.scan s
  let sum ← parts.foldlM (fun sum part => Offset.add sum part.2) 0
  let judged ← (size.filter (0 < ·)).toList.mapM (completeness l s)
  return parts.map (fun (index, size) => partLine index size) ++
    [toString parts.length ++ " part(s), " ++ toString sum ++ " bytes on disk"] ++ judged

def runParts (settings : FileSettings) (directory : Path) (size : Option Nat) (s : Store) : Ending :=
  if !s.isDirectory directory then .failed (.notSplitDirectory directory)
  else match partsReport (.new directory settings.transfer.partSize) s size with
    | .ok lines => .success (directory.text :: lines)
    | .error _ => .aborted [directory.text]

end RangeTransfer.CommandLine
