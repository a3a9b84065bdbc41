import RangeTransfer.Path
import RangeTransfer.Storage.Content
import RangeTransfer.Storage.Error
import RangeTransfer.Storage.Table
/-!
# The file system

A store has directories and files under one root, and a working directory from which relative paths
start. A file keeps its number when its name goes away, so whoever has it open still reads and
writes it. `resolve` walks a path name by name; the operations say what they need of the place it
leads to, and refuse with the cause the system gives.
-/

namespace RangeTransfer

/-- A place in the tree: the names that lead to it, innermost first. -/
abbrev Location := List Name

inductive Entry where
  | directory
  | file (number : Nat)
  deriving DecidableEq, Repr

/-- A file; `durable` holds when its bytes have reached stable storage since they last changed. -/
structure FileData where
  content : Content
  durable : Bool
  deriving Inhabited

structure Store where
  workingDirectory : Location
  entries : Table Location Entry
  files : Table Nat FileData
  /-- Number of the next new file. -/
  nextFile : Nat

/-- An open file. -/
structure Handle where
  number : Nat
  deriving DecidableEq, Repr

/-- Where a path leads: a directory, or a name in a directory. -/
inductive Destination where
  | directory (place : Location)
  | name (parent : Location) (name : Name) (asDirectory : Bool)

namespace Store

/-- Longest name of an entry. -/
def nameLimit : Nat := 255

/-- Shortest path that is refused for its length. -/
def pathLimit : Nat := 4096

/-- The length that a directory itself is reported with. -/
def directoryLength : Nat := 4096

/-- The first length that a file cannot have. -/
def lengthLimit : Nat := 1 <<< 63

/-- A place and the directories above it, without the root. -/
def placesTo : Location → List Location
  | [] => []
  | name :: parent => (name :: parent) :: placesTo parent

/-- The store with nothing but the working directory and the directories above it. -/
def fresh (workingDirectory : Location) : Store where
  workingDirectory
  entries := ⟨(placesTo workingDirectory).map fun place => (place, .directory)⟩
  files := .empty
  nextFile := 0

def entryAt (s : Store) (place : Location) : Option Entry :=
  if place = [] then some .directory else s.entries.get? place

def fileData (s : Store) (h : Handle) : FileData := (s.files.get? h.number).getD default

def content (s : Store) (h : Handle) : Content := (s.fileData h).content

/-- The directory that `names` lead to from the directory `place`. -/
def walk (s : Store) : Location → List Name → Except StorageError Location
  | place, [] => .ok place
  | place, name :: names =>
    if name = Path.dot then s.walk place names
    else if name = Path.dotDot then s.walk place.tail names
    else if nameLimit < name.length then .error .nameTooLong
    else match s.entryAt (name :: place) with
      | none => .error .notFound
      | some (.file _) => .error .notDirectory
      | some .directory => s.walk (name :: place) names

/-- Where `p` leads. Only the last name may be missing. -/
def resolve (s : Store) (p : Path) : Except StorageError Destination :=
  if p.bytes.contains 0 then .error .nulInPath
  else if p.bytes = [] then .error .notFound
  else if pathLimit ≤ p.bytes.length then .error .nameTooLong
  else
    let start := if p.isAbsolute then [] else s.workingDirectory
    let names := (Path.cut p.bytes).filter (· ≠ [])
    match names.getLast? with
    | none => .ok (.directory start)
    | some last => do
      let parent ← s.walk start names.dropLast
      if last = Path.dot then return .directory parent
      else if last = Path.dotDot then return .directory parent.tail
      else return .name parent last (p.bytes.getLast? = some Path.slash)

/-- The entry that a path names, and its place. -/
def find (s : Store) (p : Path) : Except StorageError (Location × Entry) := do
  match ← s.resolve p with
  | .directory place => return (place, .directory)
  | .name parent name asDirectory =>
    if nameLimit < name.length then throw .nameTooLong
    match s.entryAt (name :: parent), asDirectory with
    | none, _ => throw .notFound
    | some (.file _), true => throw .notDirectory
    | some entry, _ => return (name :: parent, entry)

def pathExists (s : Store) (p : Path) : Bool := (s.find p).isOk

def isDirectory (s : Store) (p : Path) : Bool :=
  match s.find p with
  | .ok (_, .directory) => true
  | _ => false

/-- The length of the file that `p` names; `none` if `p` names no file. -/
def fileSize? (s : Store) (p : Path) : Option Nat :=
  match s.find p with
  | .ok (_, .file number) => some (s.content ⟨number⟩).size
  | _ => none

def isFile (s : Store) (p : Path) : Bool := (s.fileSize? p).isSome

/-- The length that the system reports for what `p` names, a directory included. -/
def reportedSize? (s : Store) (p : Path) : Option Nat :=
  match s.find p with
  | .ok (_, .file number) => some (s.content ⟨number⟩).size
  | .ok (_, .directory) => some directoryLength
  | .error _ => none

/-- Creates the directory `p`, whose parent must exist. -/
def createDirectory (s : Store) (p : Path) : Except StorageError Store := do
  match ← s.resolve p with
  | .directory _ => throw .alreadyExists
  | .name parent name _ =>
    if nameLimit < name.length then throw .nameTooLong
    match s.entryAt (name :: parent) with
    | some _ => throw .alreadyExists
    | none => return { s with entries := s.entries.set (name :: parent) .directory }

/-- `createDirectory`, content with a directory that is there already. -/
def ensureDirectory (s : Store) (p : Path) : Except StorageError Unit × Store :=
  match s.createDirectory p with
  | .ok s => (.ok (), s)
  | .error e => (if s.isDirectory p then .ok () else .error e, s)

/-- Creates the directories along `p` that are missing, at most `depth` of them above `p`. -/
def createDirectoriesWithin : Nat → Store → Path → Except StorageError Unit × Store
  | 0, s, p => s.ensureDirectory p
  | depth + 1, s, p =>
    match s.createDirectory p, p.parent? with
    | .error .notFound, some parent =>
      if parent.bytes = [] then s.ensureDirectory p
      else match createDirectoriesWithin depth s parent with
        | (.ok (), s) => s.ensureDirectory p
        | (.error e, s) => (.error e, s)
    | _, _ => s.ensureDirectory p

/-- Creates `p` and every missing directory above it; the empty path needs nothing. -/
def createDirectories (s : Store) (p : Path) : Except StorageError Unit × Store :=
  if p.bytes = [] then (.ok (), s) else createDirectoriesWithin p.bytes.length s p

/-- Opens the file that `p` names for writing; with `create`, a missing file is created empty. -/
def openFile (s : Store) (p : Path) (create : Bool) : Except StorageError (Handle × Store) := do
  match ← s.resolve p with
  | .directory _ => throw .isDirectory
  | .name parent name asDirectory =>
    if create && asDirectory then throw .isDirectory
    if nameLimit < name.length then throw .nameTooLong
    match s.entryAt (name :: parent) with
    | some .directory => throw .isDirectory
    | some (.file number) =>
      if asDirectory then throw .notDirectory
      return (⟨number⟩, s)
    | none =>
      if !create then throw .notFound
      return (⟨s.nextFile⟩,
        { s with
          entries := s.entries.set (name :: parent) (.file s.nextFile)
          files := s.files.set s.nextFile ⟨.empty, true⟩
          nextFile := s.nextFile + 1 })

/-- Gives an open file new content, which is not durable yet. -/
def setContent (s : Store) (h : Handle) (c : Content) : Store :=
  { s with files := s.files.set h.number ⟨c, false⟩ }

/-- Writes `data` at `offset`. -/
def writeAt (s : Store) (h : Handle) (offset : Nat) (data : ByteArray) : Except StorageError Store :=
  if lengthLimit ≤ offset then .error .invalidArgument
  else if data.size = 0 then .ok s
  else if lengthLimit ≤ offset + data.size then .error .fileTooLarge
  else .ok (s.setContent h ((s.content h).write offset data))

/-- Cuts or extends an open file to `size` bytes. -/
def setSize (s : Store) (h : Handle) (size : Nat) : Except StorageError Store :=
  if lengthLimit ≤ size then .error .lengthTooLarge
  else .ok (s.setContent h ((s.content h).setSize size))

/-- Makes the bytes of an open file durable, unless the device fails with `fault`. -/
def sync (s : Store) (h : Handle) (fault : Option StorageError) : Except StorageError Store :=
  match fault with
  | some e => .error e
  | none => .ok { s with files := s.files.set h.number ⟨s.content h, true⟩ }

/-- Removes the file that `p` names. -/
def removeFile (s : Store) (p : Path) : Except StorageError Store := do
  match ← s.resolve p with
  | .directory _ => throw .isDirectory
  | .name parent name asDirectory =>
    if nameLimit < name.length then throw .nameTooLong
    match s.entryAt (name :: parent) with
    | none => throw .notFound
    | some .directory => throw .isDirectory
    | some (.file _) =>
      if asDirectory then throw .notDirectory
      return { s with entries := s.entries.erase (name :: parent) }

/-- The file that `p` names, as text. -/
def readText (s : Store) (p : Path) : Except StorageError String := do
  match ← s.find p with
  | (_, .directory) => throw .isDirectory
  | (_, .file number) =>
    match Text.decode? (s.content ⟨number⟩).bytes.data.toList with
    | some text => return text
    | none => throw .malformedText

/-- Makes `data` the content of the file `p`, which is created if it is missing, together with the
directories above it. -/
def putFile (s : Store) (p : Path) (data : ByteArray) : Except StorageError Store := do
  let (made, s) := match p.parentDirectory? with
    | some parent => s.createDirectories parent
    | none => (.ok (), s)
  made
  let (h, s) ← s.openFile p true
  return s.setContent h (.ofBytes data)

/-- Removes what `p` names, with everything below it. -/
def removeTree (s : Store) (p : Path) : Store :=
  match s.find p with
  | .ok (place, _) => { s with entries := s.entries.eraseWhere fun other => place.isSuffixOf other }
  | .error _ => s

/-- The path of `place` from the working directory; `none` outside it. -/
def relativePath? (s : Store) (place : Location) : Option Path :=
  if s.workingDirectory.isSuffixOf place && place ≠ s.workingDirectory then
    let names := (place.take (place.length - s.workingDirectory.length)).reverse
    some ⟨List.intercalate [Path.slash] names⟩
  else none

/-- Whether the bytes of `p` come before those of `q`, or are the same. -/
def pathOrder (p q : Path) : Bool := !(decide (q.bytes < p.bytes))

/-- Everything below the working directory, in the order of the path bytes; a directory has no
content. -/
def listing (s : Store) : List (Path × Option Content) :=
  let rows := s.entries.rows.filterMap fun (place, entry) =>
    (s.relativePath? place).map fun p => (p, match entry with
      | .directory => none
      | .file number => some (s.content ⟨number⟩))
  rows.mergeSort fun a b => pathOrder a.1 b.1

end Store

end RangeTransfer
