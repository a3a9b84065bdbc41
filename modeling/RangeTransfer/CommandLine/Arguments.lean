import RangeTransfer.CommandLine.Grammar
import RangeTransfer.Settings.File
import RangeTransfer.Transfer.Request
/-!
# Commands

The two commands and their arguments: `get` fetches an object, `parts` reports on a split directory.
The settings file may be named before or after the command; the later place wins.
-/

namespace RangeTransfer.CommandLine

structure GetArguments where
  url : String
  output : Path
  connections : Option Nat
  chunkMebibytes : Option Nat
  size : Option Nat
  layout : LayoutHint
  forceSplit : Bool
  user : Option String
  password : Option String
  timeout : Option Nat
  fallbackDirectory : Option Path
  noAutoRetry : Bool
  deriving DecidableEq, Repr

inductive Command where
  | get (arguments : GetArguments)
  | parts (directory : Path) (size : Option Nat)
  deriving DecidableEq, Repr

/-- A command, and the settings file that the command line names. -/
structure Invocation where
  settings : Option Path
  command : Command
  deriving DecidableEq, Repr

def settingsRule : OptionRule := ⟨"config", some 'c', .takes .path⟩

def helpRule : OptionRule := ⟨"help", some 'h', .shows .help⟩

/-- What may stand before the command. -/
def rootGrammar : Grammar where
  options := [settingsRule, helpRule, ⟨"version", some 'V', .shows .version⟩]
  places := []

def getGrammar : Grammar where
  options :=
    [⟨"connections", some 'j', .takes .number⟩,
     ⟨"chunk-mb", none, .takes .number⟩,
     ⟨"size", none, .takes .number⟩,
     ⟨"layout", none, .takes (.oneOf ["auto", "direct", "split"])⟩,
     ⟨"force-fat32", none, .switch⟩,
     ⟨"user", some 'u', .takes .text⟩,
     ⟨"password", some 'p', .takes .text⟩,
     ⟨"timeout", none, .takes .number⟩,
     ⟨"fallback-dir", none, .takes .path⟩,
     ⟨"no-auto-retry", none, .switch⟩,
     ⟨"quiet", some 'q', .switch⟩,
     settingsRule, helpRule]
  places := [.text, .path]

def partsGrammar : Grammar where
  options := [⟨"size", none, .takes .number⟩, settingsRule, helpRule]
  places := [.path]

def layoutOf : Option String → LayoutHint
  | some "direct" => .direct
  | some "split" => .split
  | _ => .auto

def getCommand (w : Words) : Option Command :=
  match w.placed with
  | [url, output] => some (.get {
      url
      output := .ofString output
      connections := w.number? "connections"
      chunkMebibytes := w.number? "chunk-mb"
      size := w.number? "size"
      layout := layoutOf (w.get? "layout")
      forceSplit := w.has "force-fat32"
      user := w.get? "user"
      password := w.get? "password"
      timeout := w.number? "timeout"
      fallbackDirectory := (w.get? "fallback-dir").map Path.ofString
      noAutoRetry := w.has "no-auto-retry" })
  | _ => none

def partsCommand (w : Words) : Option Command :=
  match w.placed with
  | [directory] => some (.parts (.ofString directory) (w.number? "size"))
  | _ => none

/-- Reads the words of one command, after what stood before it. -/
def readCommand (before : Words) (g : Grammar) (command : Words → Option Command)
    (words : List String) : Except Stop Invocation := do
  let (w, _) ← g.read .none words
  let settings := (w.get? settingsRule.name).or (before.get? settingsRule.name)
  match command w with
  | some command => return ⟨settings.map Path.ofString, command⟩
  | none => throw .malformed

/-- What the command `help` leads to. -/
def readHelp (words : List String) : Stop :=
  if [[], ["get"], ["parts"], ["help"]].contains words then .notice .help else .malformed

/-- The command that the words of a command line ask for. -/
def Invocation.parse (words : List String) : Except Stop Invocation := do
  match ← rootGrammar.read .none words with
  | (before, "get" :: words) => readCommand before getGrammar getCommand words
  | (before, "parts" :: words) => readCommand before partsGrammar partsCommand words
  | (_, "help" :: words) => throw (readHelp words)
  | _ => throw .malformed

end RangeTransfer.CommandLine
