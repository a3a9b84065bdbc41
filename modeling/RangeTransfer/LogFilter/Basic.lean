import RangeTransfer.LogFilter.Directive
/-!
# Log filters

A filter is a list of directives, the most telling first, and of each scope only the latest. A text
is refused as a whole if one of its directives is malformed; `forLevel` then takes the standard
level.
-/

namespace RangeTransfer

structure LogFilter where
  /-- The directives that what a record is about decides. -/
  static : List LogFilter.Directive
  /-- The directives about spans. -/
  dynamic : List LogFilter.Directive
  deriving DecidableEq, Repr

namespace LogFilter

def standardLevel : Level := .info

/-- Puts `d` at its place, instead of a directive with the same scope. -/
def insert (d : Directive) : List Directive → List Directive
  | [] => [d]
  | e :: rest =>
    match d.order e with
    | .lt => d :: e :: rest
    | .eq => d :: rest
    | .gt => e :: insert d rest

/-- The directives in their order. -/
def arrange (directives : List Directive) : List Directive :=
  directives.foldl (fun kept d => insert d kept) []

/-- The filter of `directives`, the latest last. Those about fields alone go into both lists. -/
def ofDirectives (directives : List Directive) : LogFilter :=
  let (dynamic, plain) := directives.partition Directive.isDynamic
  ⟨arrange (plain ++ dynamic.filter Directive.isStatic), arrange dynamic⟩

/-- Reads directives between commas; nothing between two of them is none. -/
def parse (text : String) : Except Refusal LogFilter :=
  ofDirectives <$> ((text.splitOn ",").filter (· ≠ "")).mapM Directive.parse

def text (f : LogFilter) : String :=
  String.intercalate "," ((f.static ++ f.dynamic).map Directive.text)

/-- The filter for a level setting, or the standard one if that is malformed. -/
def forLevel (level : String) : Except Abort LogFilter :=
  match parse level with
  | .ok filter => .ok filter
  | .error .malformed => .ok (ofDirectives [⟨none, none, none, standardLevel⟩])
  | .error (.aborted abort) => .error abort

end LogFilter

end RangeTransfer
