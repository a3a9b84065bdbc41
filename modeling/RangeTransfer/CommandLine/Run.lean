import RangeTransfer.CommandLine.Get
import RangeTransfer.CommandLine.Parts
/-!
# The program

Carries out a command line on a store: reads it, loads the settings, and runs the command.
-/

namespace RangeTransfer.CommandLine

/-- The settings in the file that the command line names, which must be there, or else those in the
home directory, if there are any. -/
def loadSettings (named home : Option Path) (s : Store) : Except SettingsError FileSettings :=
  match named, home with
  | some path, _ => FileSettings.load s path
  | none, some home => FileSettings.loadOrStandard s (FileSettings.defaultPath home)
  | none, none => .ok .standard

def usage : List String :=
  ["Usage: davfetch [-c FILE] get URL OUTPUT [OPTIONS]",
   "       davfetch [-c FILE] parts DIR [--size N]"]

def Notice.ending : Notice → Ending
  | .help => .success usage
  | .version => .success ["davfetch " ++ RangeTransfer.version]

/-- The paths that a command reads or writes, besides the settings file. -/
def Command.paths (settings : FileSettings) : Command → List Path
  | .parts directory _ => [directory]
  | .get a =>
    let job := a.job settings.transfer
    let split := SplitLayout.forTarget a.output job.settings.partSize
    let name : Path := ⟨a.output.fileName?.getD []⟩
    let beside (directory : Path) := [directory.join name, (split.relocated directory).directory]
    [a.output, split.directory] ++ job.settings.fallbackDirectory.toList.flatMap beside ++
      settings.logging.file.toList

variable {ρ : Type} [Remote ρ]

/-- Carries out the command line `words` for a user whose home directory is `home`. -/
def run (remote : TransportSettings → ρ) (home : Option Path) (words : List String) (s : Store) :
    Ending × Store :=
  match Invocation.parse words with
  | .error (.notice notice) => (notice.ending, s)
  | .error .malformed => (.malformed, s)
  | .ok invocation =>
    match loadSettings invocation.settings home s with
    | .error e => (.failed (.settings e), s)
    | .ok settings =>
      match invocation.command with
      | .get arguments => runGet settings arguments remote s
      | .parts directory size => (runParts settings directory size s, s)

end RangeTransfer.CommandLine
