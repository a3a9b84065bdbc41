import RangeTransfer.CommandLine.Arguments
import RangeTransfer.CommandLine.Ending
import RangeTransfer.Transfer.Download
/-!
# The command `get`

Fetches one object. What the command line says goes before the settings file; a log file is made
ready before anything is fetched.
-/

namespace RangeTransfer.CommandLine

namespace GetArguments

def transferSettings (a : GetArguments) (base : TransferSettings) : TransferSettings :=
  { base with
    connections := a.connections.getD base.connections
    chunkMebibytes := a.chunkMebibytes.getD base.chunkMebibytes
    forceSplit := a.forceSplit || base.forceSplit
    fallbackDirectory := a.fallbackDirectory.or base.fallbackDirectory
    retry := if a.noAutoRetry then base.retry.withTransfer 1 .zero else base.retry }

/-- A password counts only beside a user. -/
def transportSettings (a : GetArguments) (base : TransportSettings) : TransportSettings :=
  let credentials := a.user.map fun user => (⟨user, a.password.getD ""⟩ : Credentials)
  { base with
    credentials := credentials.or base.credentials
    timeout := (a.timeout.map fun n => .ofSeconds (max n 1)).getD base.timeout }

def job (a : GetArguments) (base : TransferSettings) : Job :=
  let settings := a.transferSettings base
  let request := TransferRequest.ofSettings a.url a.output settings
  ⟨{ request with size := a.size.getD 0, layout := a.layout }, settings⟩

end GetArguments

/-- How the log ends a command before it has begun. -/
inductive LogHalt where
  | failed (error : CommandError)
  | aborted

/-- Makes the log file and the directories above it. -/
def openLog (path : Path) (s : Store) : Except LogHalt Unit × Store :=
  let directory := path.parentDirectory?.getD ⟨Path.dot⟩
  match s.createDirectories directory, path.fileName? with
  | (.error e, s), _ => (.error (.failed (.logFile path e)), s)
  | (.ok (), s), none => (.error (.failed (.logFile path .noFileName)), s)
  | (.ok (), s), some name =>
    match s.openFile (directory.join ⟨name⟩) true with
    | .error _ => (.error .aborted, s)
    | .ok (_, s) => (.ok (), s)

/-- Makes the log ready, first its file and then its filter. -/
def beginLog (settings : LoggingSettings) (s : Store) : Except LogHalt Unit × Store :=
  let (opened, s) := settings.file.elim (.ok (), s) (openLog · s)
  let filtered := (LogFilter.forLevel settings.level).mapError fun _ => LogHalt.aborted
  (opened.bind fun _ => filtered.map fun _ => (), s)

/-- The lines that tell of a transfer that succeeded. -/
def summary (o : Outcome) : List String :=
  ["",
   "Saved:    " ++ o.path.text,
   "Size:     " ++ toString o.total ++ " bytes",
   "Strategy: " ++ o.strategy.name ++ " (" ++ toString (max o.workers 1) ++ " worker(s))"] ++
  (if o.resumedFrom = 0 then [] else ["Resumed:  from byte " ++ toString o.resumedFrom]) ++
  (o.parts.map fun n => "Parts:    " ++ toString n).toList ++
  (if o.attempts ≤ 1 then [] else ["Attempts: " ++ toString o.attempts])

def endingOf : Except DownloadHalt Outcome → Ending
  | .ok outcome => .success (summary outcome)
  | .error (.failed failure) => .failed (.transfer failure)
  | .error (.aborted _) => .aborted []

variable {ρ : Type} [Remote ρ]

def fetch (settings : FileSettings) (a : GetArguments) (remote : TransportSettings → ρ)
    (s : Store) : Ending × Store :=
  let session : Session ρ := ⟨remote (a.transportSettings settings.transport), .fresh, []⟩
  let (result, x) := Transfer.download (a.job settings.transfer) (fun _ => .calm) ⟨session, s⟩
  (endingOf result, x.store)

def runGet (settings : FileSettings) (a : GetArguments) (remote : TransportSettings → ρ)
    (s : Store) : Ending × Store :=
  match beginLog settings.logging s with
  | (.error (.failed e), s) => (.failed e, s)
  | (.error .aborted, s) => (.aborted [], s)
  | (.ok (), s) => fetch settings a remote s

end RangeTransfer.CommandLine
