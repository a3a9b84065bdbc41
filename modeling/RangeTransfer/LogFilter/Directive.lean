import RangeTransfer.LogFilter.Field
import RangeTransfer.LogFilter.Level
import RangeTransfer.Text.Slice
/-!
# Directives

A directive gives a level to what it is about: a target, a span, the fields of a span, or
everything. Its written form is `target[span{field=value}]=level`, with any of the parts left out.
-/

namespace RangeTransfer.LogFilter

/-- Why a text gives no directive. -/
inductive Refusal where
  | malformed
  | aborted (abort : Abort)
  deriving DecidableEq, Repr

structure Directive where
  target : Option String
  span : Option String
  /-- One at most, for a comma ends a directive. -/
  field : Option Field
  level : Level
  deriving DecidableEq, Repr

/-- A text being read. The marks between the parts are looked for in `rest`, behind the blanks at
the front of the text, but the parts are cut from the text with these blanks. -/
structure Scan where
  whole : List Char
  rest : List Char
  /-- The bytes of the text that were scanned, without the blanks. -/
  position : Nat
  deriving DecidableEq, Repr

namespace Scan

def new (text : String) : Scan := ⟨text.toList, Text.trim text.toList, 0⟩

def skip (s : Scan) (cs : List Char) : Scan :=
  { s with rest := s.rest.drop cs.length, position := s.position + Text.byteCount cs }

/-- Steps over the mark at the front. -/
def skipMark (s : Scan) : Scan := s.skip (s.rest.take 1)

def cut (s : Scan) (last : Nat) : Except Refusal (List Char) :=
  (Text.slice s.whole s.position last).mapError .aborted

/-- The part up to the first of `marks`, and the scan that stands on it. -/
def partBefore (s : Scan) (marks : List Char) : Except Refusal (List Char × Scan) := do
  let scanned := s.skip (s.rest.takeWhile fun c => !marks.contains c)
  if scanned.rest = [] then .error .malformed
  else return (← s.cut scanned.position, scanned)

/-- All that is left of the text, with the blanks at its end. -/
def remainder (s : Scan) : Except Refusal String :=
  String.ofList <$> s.cut (Text.byteCount s.whole)

end Scan

namespace Directive

/-- The directive for a text without marks: a level, or a target that is open to every level. -/
def ofWord (text : String) : Directive :=
  match Level.read? text with
  | some level => ⟨none, none, none, level⟩
  | none => ⟨some text, none, none, .trace⟩

/-- The level behind the scope of a directive: every level if none is given. -/
def readLevel (s : Scan) : Except Refusal Level :=
  match s.rest with
  | [] => .ok .trace
  | '=' :: _ => do
    let text ← s.skipMark.remainder
    if text = "" then return .trace
    else match Level.read? text with
      | some level => return level
      | none => .error .malformed
  | _ => .error .malformed

/-- The field of a span, behind its opening brace, and the scan behind the closing bracket. -/
def readField (s : Scan) : Except Refusal (Field × Scan) := do
  let (text, s) ← s.partBefore ['\x7d']
  if text = [] then .error .malformed
  match Field.read? text, s.skipMark.rest with
  | some field, ']' :: _ => return (field, s.skipMark.skipMark)
  | _, _ => .error .malformed

/-- The directive for `target` whose span stands behind the opening bracket. A span without a name
but with a field is any span. -/
def readSpan (target : Option String) (s : Scan) : Except Refusal Directive := do
  let (name, s) ← s.partBefore [']', '\x7b']
  let span := String.ofList name
  match s.rest with
  | ']' :: _ => return ⟨target, some span, none, ← readLevel s.skipMark⟩
  | _ =>
    let (field, s) ← readField s.skipMark
    return ⟨target, if span = "" then none else some span, some field, ← readLevel s⟩

def mayStart (c : Char) : Bool := c = '-' || c = ':' || c = '_' || Text.isLetterOrNumeral c

/-- Reads a text that holds no comma. -/
def parse (text : String) : Except Refusal Directive :=
  let s := Scan.new text
  match s.rest with
  | [] => .error .malformed
  | '[' :: _ => readSpan none s.skipMark
  | c :: _ =>
    if !mayStart c then .error .malformed
    else if s.rest.all fun c => c ≠ '=' && c ≠ '[' then return ofWord (← s.remainder)
    else do
      let (target, s) ← s.partBefore ['=', '[']
      let target := some (String.ofList target)
      match s.rest with
      | '[' :: _ => readSpan target s.skipMark
      | _ => return ⟨target, none, none, ← readLevel s⟩

/-- What a directive is about, in its written form. -/
def scope (d : Directive) : String :=
  let field := d.field.elim "" fun f => "\x7b" ++ f.text ++ "\x7d"
  let span := if d.span = none ∧ d.field = none then "" else "[" ++ d.span.getD "" ++ field ++ "]"
  d.target.getD "" ++ span

def text (d : Directive) : String :=
  if d.target = none ∧ d.span = none ∧ d.field = none then d.level.name
  else d.scope ++ "=" ++ d.level.name

/-- Whether a directive is decided by what a record is about, whatever is in it. -/
def isStatic (d : Directive) : Bool := d.span.isNone && d.field.all (·.value.isNone)

/-- Whether a directive is about spans. -/
def isDynamic (d : Directive) : Bool := d.span.isSome || d.field.isSome

/-- The order in which directives are kept: the more one says of its scope, the further in front it
is. Two directives are equal in it if they have the same scope. -/
def order (d e : Directive) : Ordering :=
  let size (d : Directive) := d.target.map String.utf8ByteSize
  Ordering.swap <|
    (orderOptions compare (size d) (size e)).then <|
    (compare d.span.isSome e.span.isSome).then <|
    (compare d.field.isSome e.field.isSome).then <|
    (orderOptions compare d.target e.target).then <|
    (orderOptions compare d.span e.span).then <|
    orderOptions Field.order d.field e.field

end Directive

end RangeTransfer.LogFilter
