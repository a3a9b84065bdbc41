import RangeTransfer.Settings.File
/-!
# How a command ends

The exit code, what was printed, and the error text of a command that failed. A command that aborts
ends with a code of its own and without a text.
-/

namespace RangeTransfer.CommandLine

inductive CommandError where
  | settings (error : SettingsError)
  | logFile (path : Path) (cause : StorageError)
  | notSplitDirectory (path : Path)
  | transfer (failure : Failure)
  deriving DecidableEq, Repr

namespace CommandError

def message : CommandError → String
  | settings error => "Configuration error: " ++ error.message
  | logFile path cause =>
    "Logging error: cannot open log file " ++ path.text ++ ": " ++ cause.message
  | notSplitDirectory path => path.text ++ " is not a split download directory"
  | transfer failure =>
    "Download failed: " ++ failure.error.message ++
      if failure.bytes = 0 then ""
      else "\n" ++ toString failure.bytes ++
        " bytes are kept locally; run the same command again to resume"

def exitCode : CommandError → Nat
  | settings _ | notSplitDirectory _ => 2
  | logFile _ _ => 1
  | transfer failure => if failure.error.isCancelled then 130 else 1

end CommandError

structure Ending where
  exitCode : Nat
  output : String
  error : Option String
  deriving DecidableEq, Repr

/-- `lines`, each with a line end. -/
def unlines (lines : List String) : String := String.join (lines.map (· ++ "\n"))

namespace Ending

def success (lines : List String) : Ending := ⟨0, unlines lines, none⟩

def failed (e : CommandError) : Ending := ⟨e.exitCode, "", some (unlines ["Error: " ++ e.message])⟩

/-- An abort after `lines` were printed. -/
def aborted (lines : List String) : Ending := ⟨101, unlines lines, none⟩

/-- A command line that makes no sense. -/
def malformed : Ending := ⟨2, "", none⟩

end Ending

end RangeTransfer.CommandLine
