import RangeTransfer.Remote.Basic
/-!
# Scripted remotes

A remote that serves one object from memory, byte `i` of which is `i % 251`, and misbehaves as told:
a script answers the first requests, and faults answer requests for chosen offsets.
-/

namespace RangeTransfer

/-- The bytes of the served object from `start` on, `count` of them. -/
def patternBytes (start count : Nat) : ByteArray :=
  count.fold (fun i _ bytes => bytes.push (UInt8.ofNat ((start + i) % 251)))
    (ByteArray.emptyWithCapacity count)

inductive ScriptedBody where
  | none
  /-- The bytes asked for. -/
  | slice
  /-- The first half of the bytes asked for. -/
  | half
  /-- The bytes asked for and one more. -/
  | extra
  | full
  /-- The object without its last byte. -/
  | shortFull
  | data (bytes : ByteArray)

inductive ScriptedContentRange where
  | absent
  /-- The range asked for, with the true size. -/
  | auto
  | header (value : String)

inductive ScriptedAnswer where
  | default
  | fail (reason : String)
  | crash
  | respond (status : Nat) (body : ScriptedBody) (contentRange : ScriptedContentRange)

structure Act where
  answer : ScriptedAnswer
  /-- Whether the stop flag is raised before the answer. -/
  cancels : Bool

/-- The requests that a fault answers. -/
inductive FaultSite where
  | offset (first : Nat)
  | probe
  | whole
  | anyButProbe
  deriving DecidableEq

structure Fault where
  site : FaultSite
  /-- How many times it still applies; always, if there is no number. -/
  times : Option Nat
  act : Act

structure ScriptedRemote where
  length : Nat
  size : Option Nat
  honoursRanges : Bool
  /-- Connections from this number on are refused. -/
  maxConnections : Option Nat
  refused : List Nat
  /-- The flag is raised with every default ranged response from this number on. -/
  cancelAfter : Option Nat
  script : List Act
  faults : List Fault
  connected : Nat
  served : Nat

namespace ScriptedRemote

def new (length : Nat) : ScriptedRemote :=
  ⟨length, some length, true, none, [], none, [], [], 0, 0⟩

def full (m : ScriptedRemote) : ByteArray := patternBytes 0 m.length

/-- The bytes of `range` that exist; the whole object without a range. -/
def slice (m : ScriptedRemote) : Option ByteRange → ByteArray
  | none => m.full
  | some r => patternBytes r.first (min r.pastEnd m.length - r.first)

def body (m : ScriptedRemote) (range : Option ByteRange) : ScriptedBody → ByteArray
  | .none => .empty
  | .slice => m.slice range
  | .half => let bytes := m.slice range; bytes.extract 0 (bytes.size / 2)
  | .extra => (m.slice range).push 0xee
  | .full => m.full
  | .shortFull => patternBytes 0 (m.length - 1)
  | .data bytes => bytes

def contentRange (m : ScriptedRemote) (range : Option ByteRange) :
    ScriptedContentRange → Option ContentRange
  | .absent => none
  | .auto => range.map fun r => ⟨r, some m.length⟩
  | .header value => ContentRange.parse value

/-- Whether the request asks only whether ranges are honoured. -/
def isProbe (m : ScriptedRemote) (range : Option ByteRange) : Bool :=
  1 < m.length && range.any fun r => r.first = 0 && r.last = 0

def matchesSite (m : ScriptedRemote) (range : Option ByteRange) : FaultSite → Bool
  | .probe => m.isProbe range
  | .whole => range.isNone
  | .anyButProbe => !m.isProbe range
  | .offset first => !m.isProbe range && range.any (·.first = first)

/-- The first fault that still applies to the request, and the faults with one use less of it. -/
def useFault (m : ScriptedRemote) (range : Option ByteRange) : List Fault → Option (Act × List Fault)
  | [] => none
  | f :: faults =>
    if m.matchesSite range f.site && f.times ≠ some 0 then
      some (f.act, { f with times := f.times.map (· - 1) } :: faults)
    else (useFault m range faults).map fun (act, faults) => (act, f :: faults)

/-- What answers the request: the script first, then a fault, else the default. -/
def nextAct (m : ScriptedRemote) (range : Option ByteRange) : Act × ScriptedRemote :=
  match m.script with
  | act :: script => (act, { m with script })
  | [] =>
    match m.useFault range m.faults with
    | some (act, faults) => (act, { m with faults })
    | none => (⟨.default, false⟩, m)

def defaultReply (m : ScriptedRemote) (range : Option ByteRange) : Reply × ScriptedRemote :=
  match range, m.honoursRanges with
  | some r, true =>
    let reply : Response := ⟨206, m.slice range, some ⟨r, some m.length⟩⟩
    if m.isProbe range then (⟨.response reply, false⟩, m)
    else
      let served := m.served + 1
      (⟨.response reply, m.cancelAfter.any (· ≤ served)⟩, { m with served })
  | _, _ => (⟨.response ⟨200, m.full, none⟩, false⟩, m)

def get (m : ScriptedRemote) (q : Query) : Reply × ScriptedRemote :=
  let (act, m) := m.nextAct q.range
  match act.answer with
  | .default =>
    let (reply, m) := m.defaultReply q.range
    ({ reply with raisesFlag := reply.raisesFlag || act.cancels }, m)
  | .fail reason => (⟨.failed (.transport q.url reason), act.cancels⟩, m)
  | .crash => (⟨.crashed "scripted panic", act.cancels⟩, m)
  | .respond status body contentRange =>
    (⟨.response ⟨status, m.body q.range body, m.contentRange q.range contentRange⟩, act.cancels⟩, m)

def connect (m : ScriptedRemote) : Except TransferError Unit × ScriptedRemote :=
  let number := m.connected
  let refuses := m.maxConnections.any (· ≤ number) || m.refused.contains number
  let result := if refuses then
      .error (.transport "remote" ("connect " ++ toString number ++ " refused"))
    else .ok ()
  (result, { m with connected := number + 1 })

instance : Remote ScriptedRemote where
  objectSize m _ := (m.size, m)
  connect := connect
  get := get

end ScriptedRemote

end RangeTransfer
