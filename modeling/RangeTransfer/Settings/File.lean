import RangeTransfer.Settings.Ini
import RangeTransfer.Settings.Logging
import RangeTransfer.Settings.Transfer
import RangeTransfer.Settings.Transport
import RangeTransfer.Storage.Store
/-!
# Settings files

The settings in an INI document. A key that is absent or blank leaves the standard value, a number
out of range is brought into it, and a value that does not read ends the reading with an error that
names the first such key.
-/

namespace RangeTransfer

inductive SettingsError where
  | unreadable (path : Path) (cause : StorageError)
  | malformed (error : Ini.ParseError)
  | invalidValue (group key value : String)
  deriving DecidableEq, Repr

def SettingsError.message : SettingsError → String
  | unreadable path cause => "cannot read " ++ path.text ++ ": " ++ cause.message
  | malformed error => "malformed config: " ++ error.message
  | invalidValue group key value =>
    "invalid value " ++ Text.quote value ++ " for [" ++ group ++ "] " ++ key

structure FileSettings where
  transfer : TransferSettings
  transport : TransportSettings
  logging : LoggingSettings
  deriving DecidableEq, Repr

namespace FileSettings

def standard : FileSettings := ⟨.standard, .standard, .standard⟩

/-- The values of a settings document, by section and key. -/
abbrev Values := (group key : String) → Option String

/-- The value of a key without blanks at both ends, unless nothing is left. -/
def Values.text (values : Values) (group key : String) : Option String :=
  ((values group key).map fun value => String.ofList (Text.trim value.toList)).filter (· ≠ "")

/-- The value of a key as `read` understands it. -/
def Values.read {α : Type} (values : Values) (read : String → Option α) (group key : String) :
    Except SettingsError (Option α) :=
  match values.text group key with
  | none => .ok none
  | some value =>
    match read value with
    | some a => .ok (some a)
    | none => .error (.invalidValue group key value)

/-- A number of 64 bits. -/
def Values.number (values : Values) (group key : String) : Except SettingsError (Option Nat) :=
  values.read (Text.readCount Offset.limit) group key

/-- A number of 32 bits. -/
def Values.smallNumber (values : Values) (group key : String) : Except SettingsError (Option Nat) :=
  values.read (Text.readCount (1 <<< 32)) group key

def readFlag (value : String) : Option Bool :=
  let word := value.map Char.toLower
  if ["1", "true", "yes", "on"].contains word then some true
  else if ["0", "false", "no", "off"].contains word then some false
  else none

def Values.flag (values : Values) (group key : String) : Except SettingsError (Option Bool) :=
  values.read readFlag group key

def readTransport (values : Values) : Except SettingsError TransportSettings := do
  let base := TransportSettings.standard
  let credentials := (values.text "webdav" "username").map fun username =>
    ⟨username, (values.text "webdav" "password").getD ""⟩
  let timeout ← values.number "webdav" "timeout_secs"
  return { base with
    credentials
    timeout := (timeout.map fun n => .ofSeconds (max n 1)).getD base.timeout }

/-- The retry policy; a key of a pair that is absent leaves its half of the pair. -/
def readRetry (values : Values) (base : RetryPolicy) : Except SettingsError RetryPolicy := do
  let rangeAttempts ← values.smallNumber "transfer" "range_attempts"
  let backoff ← values.number "transfer" "range_backoff_secs"
  let policy := if rangeAttempts.isSome || backoff.isSome then
      base.withRange (rangeAttempts.getD base.rangeAttempts)
        ((backoff.map Duration.ofSeconds).getD base.backoff)
    else base
  let attempts ← values.smallNumber "transfer" "auto_retry_attempts"
  let budget ← values.number "transfer" "auto_retry_wait_secs"
  return if attempts.isSome || budget.isSome then
      policy.withTransfer (attempts.getD policy.transferAttempts)
        ((budget.map Duration.ofSeconds).getD policy.waitBudget)
    else policy

def readTransfer (values : Values) : Except SettingsError TransferSettings := do
  let base := TransferSettings.standard
  let chunk ← values.number "transfer" "chunk_size_mb"
  let connections ← values.number "transfer" "parallel_connections"
  let forceSplit ← values.flag "transfer" "force_fat32"
  let window ← values.number "transfer" "max_window_mb"
  let retry ← readRetry values base.retry
  let fallback := values.text "transfer" "fallback_dir"
  return { base with
    chunkMebibytes :=
      (chunk.map fun n => max 1 (min n TransferSettings.chunkLimit)).getD base.chunkMebibytes
    connections :=
      (connections.map fun n => TransferSettings.clampWorkers n .direct).getD base.connections
    forceSplit := forceSplit.getD base.forceSplit
    windowBytes := (window.map fun n => Offset.mulCapped (max n 1) mebibyte).getD base.windowBytes
    retry
    fallbackDirectory := fallback.map Path.ofString }

def readLogging (values : Values) : LoggingSettings :=
  let base := LoggingSettings.standard
  { level := (values.text "logging" "level").getD base.level
    file := (values.text "logging" "file").map Path.ofString }

/-- The settings that `values` give. -/
def ofValues (values : Values) : Except SettingsError FileSettings := do
  let transport ← readTransport values
  let transfer ← readTransfer values
  return ⟨transfer, transport, readLogging values⟩

/-- The settings in a text that `read` takes for a document. -/
def parseWith (read : String → Except Ini.ParseError Ini.Document) (text : String) :
    Except SettingsError FileSettings :=
  match read text with
  | .ok document => ofValues document.get?
  | .error e => .error (.malformed e)

def parse (text : String) : Except SettingsError FileSettings := parseWith Ini.parse text

/-- The settings in the file `path`. -/
def load (s : Store) (path : Path) : Except SettingsError FileSettings :=
  match s.readText path with
  | .ok text => parse text
  | .error cause => .error (.unreadable path cause)

/-- The settings in the file `path`, or the standard ones if there is nothing of that name. -/
def loadOrStandard (s : Store) (path : Path) : Except SettingsError FileSettings :=
  if s.pathExists path then load s path else .ok standard

/-- The settings file in the home directory `home`. -/
def defaultPath (home : Path) : Path :=
  (home.join (.ofString ".davfetch")).join (.ofString "config.ini")

end FileSettings

end RangeTransfer
