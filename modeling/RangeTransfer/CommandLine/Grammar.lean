import RangeTransfer.Offset
import RangeTransfer.Text.Decimal
/-!
# Words on a command line

A grammar lists the options of a command and the places for its other words. Options are long
(`--size 9`, `--size=9`) or letters (`-j 9`, `-j9`, `-qj9`), each at most once, and two dashes end
them. Words are checked in order, so the first one that is wrong, or that asks for help, decides.
-/

namespace RangeTransfer.CommandLine

/-- What a command line asks for in place of a command. -/
inductive Notice where
  | help
  | version
  deriving DecidableEq, Repr

/-- Why the words are not carried out. -/
inductive Stop where
  | notice (notice : Notice)
  | malformed
  deriving DecidableEq, Repr

/-- The values that fit an option or a place. -/
inductive Form where
  | text
  /-- A text that is not empty. -/
  | path
  /-- A number of 64 bits. -/
  | number
  | oneOf (words : List String)
  deriving DecidableEq, Repr

def Form.accepts (value : String) : Form → Bool
  | text => true
  | path => value ≠ ""
  | number => (Text.readCount Offset.limit value).isSome
  | oneOf words => words.contains value

/-- What an option does. -/
inductive Action where
  | switch
  | takes (form : Form)
  | shows (notice : Notice)
  deriving DecidableEq, Repr

structure OptionRule where
  name : String
  letter : Option Char
  action : Action
  deriving DecidableEq, Repr

structure Grammar where
  options : List OptionRule
  places : List Form
  deriving DecidableEq, Repr

/-- The options and the other words that were read, in order. A switch has an empty value. -/
structure Words where
  options : List (String × String)
  placed : List String
  deriving DecidableEq, Repr

namespace Words

def none : Words := ⟨[], []⟩

def get? (w : Words) (name : String) : Option String := (w.options.find? (·.1 = name)).map (·.2)

def has (w : Words) (name : String) : Bool := (w.get? name).isSome

/-- The number that an option gives. -/
def number? (w : Words) (name : String) : Option Nat :=
  (w.get? name).bind (Text.readCount Offset.limit)

/-- Adds an option, which must be new. -/
def give (w : Words) (name value : String) : Except Stop Words :=
  if w.has name then .error .malformed
  else .ok { w with options := w.options ++ [(name, value)] }

/-- `give`, if the value fits. -/
def giveValue (w : Words) (name : String) (form : Form) (value : String) : Except Stop Words :=
  if form.accepts value then w.give name value else .error .malformed

end Words

/-- What one word leads to: words read, or an option that takes its value from the next word. -/
inductive Step where
  | read (words : Words)
  | awaits (name : String) (form : Form) (words : Words)

namespace Grammar

/-- The option `rule` with the value attached to it, if there is one. -/
def readOption (w : Words) (rule : OptionRule) (attached : Option String) : Except Stop Step :=
  match rule.action, attached with
  | .takes form, some value => .read <$> w.giveValue rule.name form value
  | .takes form, none => .ok (.awaits rule.name form w)
  | .switch, none => .read <$> w.give rule.name ""
  | .shows notice, none => .error (.notice notice)
  | _, some _ => .error .malformed

/-- An option after its two dashes. -/
def readLong (g : Grammar) (w : Words) (cs : List Char) : Except Stop Step :=
  let name := cs.takeWhile (· ≠ '=')
  let attached := match cs.drop name.length with
    | [] => none
    | _ :: value => some (String.ofList value)
  match g.options.find? (·.name = String.ofList name) with
  | some rule => readOption w rule attached
  | none => .error .malformed

/-- Letters after one dash; the first that takes a value takes the rest of the word. -/
def readLetters (g : Grammar) : Words → List Char → Except Stop Step
  | w, [] => .ok (.read w)
  | w, c :: cs =>
    match g.options.find? (·.letter = some c) with
    | none => .error .malformed
    | some rule =>
      match rule.action, cs with
      | .takes _, [] => readOption w rule none
      | .takes _, '=' :: value => readOption w rule (some (String.ofList value))
      | .takes _, value => readOption w rule (some (String.ofList value))
      | .switch, cs => do readLetters g (← w.give rule.name "") cs
      | .shows notice, _ => .error (.notice notice)

/-- A word for the next free place; there must be one that it fits. -/
def readPlaced (g : Grammar) (w : Words) (word : String) : Except Stop Words :=
  match g.places[w.placed.length]? with
  | some form =>
    if form.accepts word then .ok { w with placed := w.placed ++ [word] } else .error .malformed
  | none => .error .malformed

/-- Whether a word starts with a dash and goes on. -/
def isOptionLike (word : String) : Bool :=
  match word.toList with
  | '-' :: _ :: _ => true
  | _ => false

/-- A word that looks like an option. -/
def readOptions (g : Grammar) (w : Words) (word : String) : Except Stop Step :=
  match word.toList with
  | _ :: '-' :: cs => g.readLong w cs
  | _ :: cs => g.readLetters w cs
  | [] => .error .malformed

/-- The words, if every place is taken. -/
def complete (g : Grammar) (w : Words) : Except Stop Words :=
  if w.placed.length = g.places.length then .ok w else .error .malformed

/-- Reads the options and the places of the grammar. A grammar without places leaves the first word
that is no option, and what follows it, to others. -/
def read (g : Grammar) (w : Words) : List String → Except Stop (Words × List String)
  | [] => do return (← g.complete w, [])
  | word :: words =>
    if word = "--" then do return (← g.complete (← words.foldlM g.readPlaced w), [])
    else if isOptionLike word then
      match g.readOptions w word, words with
      | .error stop, _ => .error stop
      | .ok (.read w), words => g.read w words
      | .ok (.awaits _ _ _), [] => .error .malformed
      | .ok (.awaits name form w), value :: words =>
        if isOptionLike value then .error .malformed
        else match w.giveValue name form value with
          | .error stop => .error stop
          | .ok w => g.read w words
    else if g.places = [] then .ok (w, word :: words)
    else match g.readPlaced w word with
      | .error stop => .error stop
      | .ok w => g.read w words

end Grammar

end RangeTransfer.CommandLine
