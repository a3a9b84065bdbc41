import RangeTransfer.Text.Utf8
/-!
# Paths

A path is a sequence of bytes cut by slashes. Empty segments and dots count for nothing, except a
dot that starts a relative path. `fileName?`, `parent?` and `join` keep the separators inside a path
as they are written.
-/

namespace RangeTransfer

/-- A segment of a path, or the name of a directory entry. -/
abbrev Name := List UInt8

structure Path where
  bytes : List UInt8
  deriving DecidableEq, Repr, Inhabited

namespace Path

def slash : UInt8 := 47

/-- The name that stands for the directory itself. -/
def dot : Name := [46]

/-- The name that stands for the directory above. -/
def dotDot : Name := [46, 46]

def ofString (text : String) : Path := ⟨Text.encode text⟩

/-- The path as text; ill-formed bytes are replaced. -/
def text (p : Path) : String := Text.decodeLossy p.bytes

def isAbsolute (p : Path) : Bool := p.bytes.head? = some slash

/-- Whether the path starts with a dot of its own. -/
def startsWithDot (p : Path) : Bool :=
  match p.bytes with
  | [46] => true
  | 46 :: 47 :: _ => true
  | _ => false

/-- The runs between the slashes of `bytes`; there is always at least one. -/
def cut : List UInt8 → List Name
  | [] => [[]]
  | b :: bytes =>
    if b = slash then [] :: cut bytes
    else match cut bytes with
      | [] => [[b]]
      | run :: runs => (b :: run) :: runs

/-- The root or the leading dot. -/
def lead (p : Path) : List UInt8 :=
  if p.isAbsolute || p.startsWithDot then p.bytes.take 1 else []

def countsForNothing (segment : Name) : Bool := segment = [] || segment = dot

/-- `segments` without the last ones that count for nothing. -/
def trimSegments (segments : List Name) : List Name :=
  (segments.reverse.dropWhile countsForNothing).reverse

/-- The segments after `lead`, up to the last one that counts. -/
def segments (p : Path) : List Name := trimSegments (cut (p.bytes.drop p.lead.length))

/-- The path with the given lead and segments. -/
def ofSegments (lead : List UInt8) (segments : List Name) : Path :=
  ⟨lead ++ List.intercalate [slash] segments⟩

/-- The last segment, unless it leads upwards. -/
def fileName? (p : Path) : Option Name := p.segments.getLast?.filter (· ≠ dotDot)

/-- The path without its last segment; the empty path and the root have none. -/
def parent? (p : Path) : Option Path :=
  match p.segments with
  | [] => if p.startsWithDot then some ⟨[]⟩ else none
  | segments => some (ofSegments p.lead (trimSegments segments.dropLast))

/-- `p` with `q` behind it, separated by one slash; an absolute `q` replaces `p`. -/
def join (p q : Path) : Path :=
  if q.isAbsolute then q
  else match p.bytes.getLast? with
    | none => q
    | some b => if b = slash then ⟨p.bytes ++ q.bytes⟩ else ⟨p.bytes ++ slash :: q.bytes⟩

/-- `p` and the paths above it, the innermost last, at most `bound` of them above `p`. -/
def upward : (bound : Nat) → Path → List Path
  | 0, p => [p]
  | bound + 1, p => (p.parent?.toList.flatMap (upward bound)) ++ [p]

/-- The parent, unless it is missing or empty. -/
def parentDirectory? (p : Path) : Option Path := p.parent?.filter (·.bytes ≠ [])

end Path

end RangeTransfer
