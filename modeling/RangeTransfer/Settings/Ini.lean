import RangeTransfer.Text.Blank
import RangeTransfer.Text.Hexadecimal
import RangeTransfer.Text.Record
/-!
# INI documents

Sections of keys and values. A key ends at an equals sign or a colon, a value at the end of its
line; backslashes escape, quotation marks keep blanks, and a comment takes a whole line. A section
that is named again starts anew, and only the first of a name is looked up (`Document.get?`).
-/

namespace RangeTransfer.Ini

/-- A place in the text: the characters from there on, and line and column of the first. -/
structure Cursor where
  rest : List Char
  line : Nat
  column : Nat
  deriving DecidableEq, Repr

namespace Cursor

/-- The cursor that stands on the first of `rest`, coming from `line` and `column`. -/
def onto (rest : List Char) (line column : Nat) : Cursor :=
  match rest with
  | [] => ⟨rest, line, column⟩
  | '\n' :: _ => ⟨rest, line + 1, 0⟩
  | _ :: _ => ⟨rest, line, column + 1⟩

def start (text : String) : Cursor := onto text.toList 0 0

def next (c : Cursor) : Cursor := onto c.rest.tail c.line c.column

def head? (c : Cursor) : Option Char := c.rest.head?

/-- Steps over the characters that satisfy `p`. -/
def skipWhile (p : Char → Bool) : (bound : Nat) → Cursor → Cursor
  | 0, c => c
  | bound + 1, c => if c.head?.any p then skipWhile p bound c.next else c

def skip (p : Char → Bool) (c : Cursor) : Cursor := skipWhile p c.rest.length c

end Cursor

/-- Why a text is no document. -/
inductive Fault where
  | inlineComment
  | missingKey
  /-- The text ended before one of the marks, where `none` is the end itself. -/
  | unexpectedEnd (marks : List (Option Char))
  | brokenContinuation (found : Option Char)
  | unknownCharacter
  deriving DecidableEq, Repr

structure ParseError where
  line : Nat
  column : Nat
  fault : Fault
  deriving DecidableEq, Repr

def showMark (mark : Option Char) : String := Text.option (mark.map Text.quoteSingle)

def Fault.message : Fault → String
  | inlineComment => "doesn\x27t support inline comment"
  | missingKey => "missing key"
  | unexpectedEnd marks =>
    "expecting \"[" ++ String.intercalate ", " (marks.map showMark) ++ "]\" but found EOF."
  | brokenContinuation found => "expecting \"\\\\n\" but found \"" ++ showMark found ++ "\"."
  | unknownCharacter => "unknown character in \\xHH form"

def ParseError.message (e : ParseError) : String :=
  toString (e.line + 1) ++ ":" ++ toString (e.column + 1) ++ " " ++ e.fault.message

def Cursor.fail {α : Type} (c : Cursor) (fault : Fault) : Except (ParseError × Cursor) α :=
  .error (⟨c.line, c.column, fault⟩, c)

/-- The character with the hexadecimal number `digits`, which may have a plus sign. -/
def numbered? (digits : List Char) : Option Char :=
  match digits with
  | '+' :: digits => Text.hexChar? digits
  | digits => Text.hexChar? digits

/-- The character that a backslash before `c` stands for. -/
def unescape (c : Char) : Char :=
  match c with
  | '0' => '\x00'
  | 'a' => '\x07'
  | 'b' => '\x08'
  | 't' => '\t'
  | 'r' => '\r'
  | 'n' => '\n'
  | c => c

/-- The next `count` characters of a character number, each after a step, and the cursor on the last
of them. A backslash takes the line end behind it with it. -/
def readCode (marks : List (Option Char)) : (count : Nat) → Cursor →
    Except (ParseError × Cursor) (List Char × Cursor)
  | 0, c => .ok ([], c)
  | count + 1, c => do
    let c := c.next
    let c ← match c.head? with
      | none => c.fail (.unexpectedEnd marks)
      | some '\\' =>
        if c.next.head? = some '\n' then pure c.next else c.next.fail (.brokenContinuation c.next.head?)
      | some _ => pure c
    let (code, last) ← readCode marks count c
    return (c.head?.toList ++ code, last)

/-- What the backslash before `c` makes of the character there, and the cursor on the last character
that belongs to it. -/
def readEscape (marks : List (Option Char)) (c : Cursor) :
    Except (ParseError × Cursor) (List Char × Cursor) :=
  match c.head? with
  | none => .ok (['\\'], c)
  | some '\n' => .ok ([], c)
  | some 'x' => do
    let (digits, c) ← readCode marks 4 c
    match numbered? digits with
    | some char => return ([char], c)
    | none => c.fail .unknownCharacter
  | some char => .ok ([unescape char], c)

/-- The text up to one of `marks`, and the cursor on it; at most `bound` characters. -/
def readTextWithin (marks : List (Option Char)) : (bound : Nat) → Cursor →
    Except (ParseError × Cursor) (List Char × Cursor)
  | 0, c => .ok ([], c)
  | bound + 1, c =>
    if marks.contains c.head? then .ok ([], c)
    else match c.head? with
      | none => c.fail (.unexpectedEnd marks)
      | some '\\' => do
        let (chars, c) ← readEscape marks c.next
        let (text, c) ← readTextWithin marks bound c.next
        return (chars ++ text, c)
      | some char => do
        let (text, c) ← readTextWithin marks bound c.next
        return (char :: text, c)

def readText (marks : List (Option Char)) (c : Cursor) :
    Except (ParseError × Cursor) (List Char × Cursor) :=
  readTextWithin marks (c.rest.length + 1) c

def keyEnds : List (Option Char) := [some '=', some ':']

def lineEnds : List (Option Char) := [some '\n', some '\r', none]

def isLineEnd (c : Char) : Bool := c = '\n' || c = '\r'

def isIndent (c : Char) : Bool := c = ' ' || c = '\t'

/-- The single quotation mark. -/
def apostrophe : Char := Char.ofNat 39

/-- The parts of a value from the cursor on, at most `bound` of them: quoted texts one after the
other, and then the rest of the line. `value` is what was read so far. -/
def readParts (value : List Char) (first : Bool) : (bound : Nat) → Cursor →
    Except (ParseError × Cursor) (List Char × Cursor)
  | 0, c => .ok (value, c)
  | bound + 1, c =>
    match c.head? with
    | none => .ok (value, c)
    | some char =>
      if char = '"' || char = apostrophe then do
        let (text, c) ← readText [some char] c.next
        readParts (value ++ text) false bound c.next
      else do
        let (text, c) ← readText lineEnds c
        let text := if first then Text.trim text else Text.dropEndWhile Text.isBlank text
        return (value ++ text, c)

/-- The value behind the equals sign on which the cursor stands. -/
def readValue (c : Cursor) : Except (ParseError × Cursor) (String × Cursor) := do
  let c := c.next.skip fun char => Text.isBlank char && !isLineEnd char
  let (value, c) ← readParts [] true (c.rest.length + 1) c
  return (String.ofList value, c)

/-- A section, or what stands before the first one, with its keys and values in order. -/
structure Section where
  name : Option String
  pairs : List (String × String)
  deriving DecidableEq, Repr

structure Document where
  sections : List Section
  deriving DecidableEq, Repr

def Section.get? (s : Section) (key : String) : Option String :=
  (s.pairs.find? (·.1 = key)).map (·.2)

/-- The first value of `key` in the first section `name`. -/
def Document.get? (d : Document) (name key : String) : Option String :=
  (d.sections.find? (·.name = some name)).bind (·.get? key)

/-- What was read so far. The current section is the latest. -/
structure Reader where
  cursor : Cursor
  key : String
  current : Section
  earlier : List Section

namespace Reader

def new (text : String) : Reader := ⟨.start text, "", ⟨none, []⟩, []⟩

def document (r : Reader) : Document := ⟨(r.current :: r.earlier).reverse⟩

/-- Starts the section whose name follows the bracket on which the cursor stands. -/
def beginSection (r : Reader) : Except (ParseError × Cursor) Reader := do
  let (name, cursor) ← readText [some ']'] r.cursor.next
  let name := String.ofList (Text.trim name)
  return { r with cursor := cursor.next, current := ⟨some name, []⟩, earlier := r.current :: r.earlier }

def readKey (r : Reader) : Except (ParseError × Cursor) Reader := do
  let (key, cursor) ← readText keyEnds r.cursor
  return { r with cursor, key := String.ofList (Text.trim key) }

/-- Adds the value on which the cursor stands to the current section, under the key read before. -/
def addValue (r : Reader) : Except (ParseError × Cursor) Reader := do
  if r.key = "" then r.cursor.fail .missingKey
  let (value, cursor) ← readValue r.cursor
  let current := { r.current with pairs := r.current.pairs ++ [(r.key, value)] }
  return { r with cursor, current, key := "" }

/-- Steps over a comment and the end of its line. -/
def skipComment (r : Reader) : Except (ParseError × Cursor) Reader :=
  if 1 < r.cursor.column then r.cursor.fail .inlineComment
  else .ok { r with cursor := (r.cursor.skip (· ≠ '\n')).next }

/-- Steps over blanks, but not over those that indent a line. -/
def skipBlanks : (bound : Nat) → Cursor → Cursor
  | 0, c => c
  | bound + 1, c =>
    match c.head? with
    | none => c
    | some char =>
      if !Text.isBlank char then c
      else if isLineEnd char && c.next.head?.any isIndent then c.next
      else skipBlanks bound c.next

def afterItem (r : Reader) : Reader :=
  { r with cursor := skipBlanks (r.cursor.rest.length) r.cursor }

/-- An indented line: a section, nothing, or a key. A key that cannot be read is passed over. -/
def readIndented (r : Reader) : Except (ParseError × Cursor) Reader :=
  let r := { r with cursor := r.cursor.skip isIndent }
  match r.cursor.head? with
  | some '[' => return (← r.beginSection).afterItem
  | some '\n' | some '\r' => return { r with cursor := r.cursor.next }
  | _ =>
    match r.readKey with
    | .ok r => return r.afterItem
    | .error (_, cursor) => return { r with cursor }.afterItem

/-- The next item of the text, which starts with `char`. -/
def step (r : Reader) (char : Char) : Except (ParseError × Cursor) Reader :=
  if isIndent char then r.readIndented
  else afterItem <$>
    if char = ';' || char = '#' then r.skipComment
    else if char = '[' then r.beginSection
    else if char = '=' || char = ':' then r.addValue
    else if isLineEnd char then .ok { r with cursor := r.cursor.next }
    else r.readKey

/-- Reads to the end of the text; every item takes at least one character. -/
def run : (bound : Nat) → Reader → Except (ParseError × Cursor) Reader
  | 0, r => .ok r
  | bound + 1, r =>
    match r.cursor.head? with
    | none => .ok r
    | some char => do run bound (← r.step char)

end Reader

def parse (text : String) : Except ParseError Document :=
  match (Reader.new text).run (2 * text.length + 1) with
  | .ok r => .ok r.document
  | .error (e, _) => .error e

end RangeTransfer.Ini
