import RangeTransfer.CommandLine.Run
import RangeTransfer.Http.Remote
/-!
# The executable

Runs a command line on what is on disk: loads the paths that the command can touch into a store,
runs the command there, and carries the changes over. There is no network, so no server answers.
-/

namespace RangeTransfer.CommandLine

/-- Puts what is at `p` on disk into the store, with the files of a directory. -/
def loadEntry (s : Store) (p : Path) : IO Store := do
  let place := (← IO.currentDir) / p.text
  let put (s : Store) (p : Path) (bytes : ByteArray) : Store := (s.putFile p bytes).toOption.getD s
  if ← place.isDir then
    let mut s := (s.createDirectories p).2
    for entry in ← place.readDir do
      if !(← entry.path.isDir) then
        s := put s (p.join (.ofString entry.fileName)) (← IO.FS.readBinFile entry.path)
    return s
  else if ← place.pathExists then return put s p (← IO.FS.readBinFile place)
  else return s

/-- `loadEntry` for `p` and the paths above it, from the outermost one on. -/
def loadPath (s : Store) (p : Path) : IO Store :=
  ((p.upward p.bytes.length).filter (·.bytes ≠ [])).foldlM loadEntry s

/-- The store that a command line runs on. -/
def loadStore (workingDirectory : Location) (home : Option Path) (words : List String) : IO Store := do
  let s := Store.fresh workingDirectory
  match Invocation.parse words with
  | .error _ => return s
  | .ok invocation =>
    let file := invocation.settings.or (home.map FileSettings.defaultPath)
    let s ← file.toList.foldlM loadPath s
    match loadSettings invocation.settings home s with
    | .error _ => return s
    | .ok settings => (invocation.command.paths settings).foldlM loadPath s

def placeText (place : Location) : String :=
  (Path.ofSegments [Path.slash] place.reverse).text

/-- Carries out on disk what turned the store `before` into `after`. -/
def saveStore (before after : Store) : IO Unit := do
  for (place, _) in before.entries.rows do
    if (after.entries.get? place).isNone then IO.FS.removeFile (placeText place)
  for (place, entry) in after.entries.rows.reverse do
    match entry with
    | .directory =>
      if (before.entries.get? place).isNone then IO.FS.createDirAll (placeText place)
    | .file number =>
      let bytes := (after.content ⟨number⟩).bytes
      let same := before.entries.get? place = some entry &&
        (before.content ⟨number⟩).bytes.data = bytes.data
      if !same then IO.FS.writeBinFile (placeText place) bytes

end RangeTransfer.CommandLine

open RangeTransfer RangeTransfer.CommandLine in
/-- Runs the command line `words`; the answer is the exit code. -/
def main (words : List String) : IO UInt32 := do
  let here := Path.ofString (← IO.currentDir).toString
  let home := ((← IO.getEnv "HOME").filter (· ≠ "")).map Path.ofString
  let before ← loadStore here.segments.reverse home words
  let remote (settings : TransportSettings) : HttpRemote := ⟨settings, fun _ => none⟩
  let (ending, after) := run remote home words before
  saveStore before after
  (← IO.getStdout).putStr ending.output
  (← IO.getStderr).putStr (ending.error.getD "")
  return UInt32.ofNat ending.exitCode
