import RangeTransfer.Text.Utf8
import RangeTransfer.Text.Blank
import RangeTransfer.Text.Decimal
import RangeTransfer.Text.Quoted
/-!
# URLs

The parts of an `http` or `https` URL that a request needs: who is asked, and the target, which is
the path and the query with everything percent-encoded that may not stand there as it is. Segments
of dots are carried out, and a fragment is left away.
-/

namespace RangeTransfer.Http

structure Url where
  authority : String
  target : String
  deriving DecidableEq, Repr

namespace Url

/-- A byte as two hexadecimal digits after a percent sign. -/
def percent (b : UInt8) : List Char :=
  '%' :: (Text.alignRight '0' 2 ((Text.hexDigits b.toNat).map Char.toUpper)).toList

def isPlainAscii (c : Char) : Bool := 0x20 < c.toNat && c.toNat < 0x7f

/-- `cs` with the characters encoded that are not plain ASCII or are listed in `unsafeChars`. -/
def encode (unsafeChars : List Char) (cs : List Char) : List Char :=
  cs.flatMap fun c =>
    if isPlainAscii c && !unsafeChars.contains c then [c]
    else (Text.encode c.toString).flatMap percent

def encodedInPath : List Char := ['"', '#', '<', '>', '?', Char.ofNat 0x60, '\x7b', '\x7d']

def encodedInQuery : List Char := ['"', '#', '<', '>', Char.ofNat 39]

def isSlash (c : Char) : Bool := c = '/' || c = '\\'

/-- The number of dots that a segment of dots has; a dot may be encoded. -/
def dots? : List Char → Option Nat
  | [] => some 0
  | '.' :: cs => (dots? cs).map (· + 1)
  | '%' :: '2' :: c :: cs => if c = 'e' || c = 'E' then (dots? cs).map (· + 1) else none
  | _ => none

/-- The runs between the slashes of `cs`; there is always at least one. -/
def cutPath : List Char → List (List Char)
  | [] => [[]]
  | c :: cs =>
    if isSlash c then [] :: cutPath cs
    else match cutPath cs with
      | [] => [[c]]
      | run :: runs => (c :: run) :: runs

/-- `segments` with the segments of dots carried out, after `done`, whose last segment comes first.
-/
def resolveDots (done : List (List Char)) : List (List Char) → List (List Char)
  | [] => done.reverse
  | segment :: rest =>
    let last := if rest = [] then [[]] else []
    match dots? segment with
    | some 1 => resolveDots (last ++ done) rest
    | some 2 => resolveDots (last ++ done.tail) rest
    | _ => resolveDots (segment :: done) rest

/-- The path of a request, from what follows the authority. -/
def path (cs : List Char) : List Char :=
  let cs := match cs with
    | c :: rest => if isSlash c then rest else cs
    | [] => []
  (resolveDots [] (cutPath cs)).flatMap fun segment => '/' :: encode encodedInPath segment

/-- The target of a request, from what follows the authority. -/
def targetOf (cs : List Char) : List Char :=
  let cs := cs.takeWhile (· ≠ '#')
  let file := cs.takeWhile (· ≠ '?')
  path file ++ match cs.drop file.length with
    | [] => []
    | _ :: query => '?' :: encode encodedInQuery query

/-- The scheme of a URL, in small letters, and what follows its colon. -/
def scheme? (cs : List Char) : Option (String × List Char) :=
  let name := cs.takeWhile (· ≠ ':')
  let named := name.head?.any Char.isAlpha &&
    name.all fun c => c.isAlphanum || c = '+' || c = '-' || c = '.'
  match cs.drop name.length with
  | _ :: rest => if named then some (String.ofList (name.map Char.toLower), rest) else none
  | [] => none

/-- `text` without what a URL does not hold: controls and spaces at its ends, tabs and line ends. -/
def clean (text : String) : List Char :=
  (Text.trimWhile (fun c => c.toNat ≤ 0x20) text.toList).filter fun c =>
    c ≠ '\t' && c ≠ '\n' && c ≠ '\r'

/-- A host name, perhaps with a colon and a number behind it. -/
def isAuthority (cs : List Char) : Bool :=
  let host := cs.takeWhile (· ≠ ':')
  host ≠ [] && host.all (fun c => isPlainAscii c && c ≠ '@' && c ≠ '%') &&
    (cs.drop (host.length + 1)).all Char.isDigit

def parse? (text : String) : Option Url := do
  let (scheme, cs) ← scheme? (clean text)
  guard (scheme = "http" || scheme = "https")
  let cs := cs.dropWhile isSlash
  let authority := cs.takeWhile fun c => !isSlash c && c ≠ '?' && c ≠ '#'
  guard (isAuthority authority)
  return ⟨String.ofList authority, String.ofList (targetOf (cs.drop authority.length))⟩

end Url

end RangeTransfer.Http
