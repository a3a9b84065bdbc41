import RangeTransfer.Text.Blank
import RangeTransfer.Text.Hexadecimal
import RangeTransfer.Text.Letter
/-!
# Elements of patterns

A pattern is a regular expression that stands in one field of a directive, so it holds no comma, no
equals sign and no closing brace; nothing that needs one of them is read here. This module has the
switches that a pattern can turn and the elements that are neither groups nor sets.
-/

namespace RangeTransfer.Pattern

/-- The switches that bear on what is a pattern. -/
structure Mode where
  /-- Whether the pattern is about characters and not about the bytes of UTF-8. -/
  unicode : Bool
  /-- Whether blanks and comments mean nothing. -/
  spaced : Bool
  deriving DecidableEq, Repr

def Mode.standard : Mode := ⟨true, false⟩

def switchLetters : List Char := ['i', 'm', 's', 'U', 'u', 'R', 'x']

/-- Whether `cs` names switches: each once, those behind one minus sign to be turned off. -/
def areSwitches (cs : List Char) : Bool :=
  cs.all (fun c => c = '-' || switchLetters.contains c) && decide cs.Nodup && cs.getLast? ≠ some '-'

/-- Turns the switches that `cs` names. -/
def Mode.turn (mode : Mode) (cs : List Char) : Mode :=
  let on := cs.takeWhile (· ≠ '-')
  let turned (letter : Char) (now : Bool) := if cs.contains letter then on.contains letter else now
  ⟨turned 'u' mode.unicode, turned 'x' mode.spaced⟩

/-- `cs` without the blanks and comments at its front; `inside` a comment at first. -/
def dropRemarks (inside : Bool) : List Char → List Char
  | [] => []
  | c :: cs =>
    if inside then dropRemarks (c ≠ '\n') cs
    else if Text.isBlank c then dropRemarks false cs
    else if c = '#' then dropRemarks true cs
    else c :: cs

def Mode.skip (mode : Mode) (cs : List Char) : List Char :=
  if mode.spaced then dropRemarks false cs else cs

inductive Element where
  /-- A character; `asByte` if it is written as two hexadecimal digits. -/
  | char (c : Char) (asByte : Bool)
  /-- The digits, the blanks or the word characters, or all others. -/
  | kind (others : Bool)
  /-- The characters of the general category `letter`, or all others. -/
  | category (letter : Char)
  /-- An end of the text or of a line. -/
  | edge
  | wordEdge
  | any
  deriving DecidableEq, Repr

/-- The letters of the general categories, in small letters. -/
def categoryLetters : List Char := ['c', 'l', 'm', 'n', 'p', 's', 'z']

/-- Whether an element may stand for itself: without characters in the sense of Unicode, it must not
match half of a character, and the edges of words are known by bytes alone. -/
def Element.isSupported (mode : Mode) : Element → Bool
  | char c asByte => mode.unicode || !asByte || c.toNat < 0x80
  | kind others => mode.unicode || !others
  | category letter => mode.unicode && categoryLetters.contains letter.toLower
  | edge => true
  | wordEdge => !mode.unicode
  | any => mode.unicode

/-- Whether an element may stand in a set. -/
def Element.isSupportedInSet (mode : Mode) : Element → Bool
  | char c _ => mode.unicode || c.toNat < 0x80
  | kind others => mode.unicode || !others
  | category letter => mode.unicode && categoryLetters.contains letter.toLower
  | edge | wordEdge | any => false

/-- `count` hexadecimal digits, and what follows them. -/
def readHex (mode : Mode) : (count : Nat) → List Char → Option (List Char × List Char)
  | 0, cs => some ([], cs)
  | count + 1, cs => do
    let c ← cs.head?
    guard (Text.hexValue? c).isSome
    let (digits, rest) ← readHex mode count (mode.skip cs.tail)
    return (c :: digits, rest)

/-- The character whose number is written in `count` hexadecimal digits. -/
def readNumbered (mode : Mode) (count : Nat) (cs : List Char) : Option (Element × List Char) := do
  let (digits, rest) ← readHex mode count (mode.skip cs)
  return (.char (← Text.hexChar? digits) (count = 2), rest)

/-- The control character that a letter behind a backslash stands for. -/
def control? : Char → Option Char
  | 'a' => some '\x07'
  | 't' => some '\t'
  | 'n' => some '\n'
  | 'v' => some '\x0b'
  | 'f' => some '\x0c'
  | 'r' => some '\r'
  | _ => none

/-- The element that a backslash makes of the characters behind it. -/
def readEscape (mode : Mode) : List Char → Option (Element × List Char)
  | [] => none
  | c :: cs =>
    match c with
    | 'x' => readNumbered mode 2 cs
    | 'u' => readNumbered mode 4 cs
    | 'U' => readNumbered mode 8 cs
    | 'p' | 'P' =>
      match mode.skip cs with
      | [] => none
      | letter :: cs => some (.category letter, mode.skip cs)
    | 'd' | 's' | 'w' => some (.kind false, cs)
    | 'D' | 'S' | 'W' => some (.kind true, cs)
    | 'A' | 'z' => some (.edge, cs)
    | 'b' | 'B' | '<' | '>' => some (.wordEdge, cs)
    | _ =>
      if c.isAlphanum then (control? c).map (.char · false, cs)
      else if c.toNat < 0x80 then some (.char c false, cs)
      else none

end RangeTransfer.Pattern
