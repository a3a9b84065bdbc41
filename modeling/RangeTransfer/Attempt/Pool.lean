import RangeTransfer.Error
import RangeTransfer.Text.Record
/-!
# Thread pools

Threads are started one after the other and named by their number; what a thread does is its own
affair, and one that dies is passed over. A pool that cannot start a single thread is an error.
-/

namespace RangeTransfer

structure SpawnSettings where
  /-- Stack of each thread in bytes; the system chooses if there is no number. -/
  stackSize : Option Nat
  namePrefix : String
  deriving DecidableEq, Repr

namespace SpawnSettings

def standard : SpawnSettings := ⟨none, "davfetch-worker"⟩

/-- The first stack size that no address space can hold. -/
def stackLimit : Nat := 1 <<< 47

def threadName (p : SpawnSettings) (index : Nat) : String := p.namePrefix ++ "-" ++ toString index

/-- How many of `requested` threads start, if the system grants `granted` of them. -/
def started (p : SpawnSettings) (requested : Nat) (granted : Option Nat) : Nat :=
  if p.stackSize.all (· < stackLimit) then granted.elim requested (min requested) else 0

/-- `started`, unless threads were asked for and none starts. -/
def startThreads (p : SpawnSettings) (requested : Nat) (granted : Option Nat) :
    Except TransferError Nat :=
  let n := p.started requested granted
  if n = 0 ∧ requested ≠ 0 then .error (.configuration .noWorkers) else .ok n

/-- Runs `work` on each element of `inputs` in a thread of its own: the number of threads, and
index, name and result of each thread that did not die. -/
def runEach {α β : Type} (p : SpawnSettings) (inputs : List α) (work : Nat → α → Except Abort β) :
    Except TransferError (Nat × List (Nat × String × β)) := do
  let n ← p.startThreads inputs.length none
  let results := (inputs.take n).zipIdx.filterMap fun (input, index) =>
    match work index input with
    | .ok result => some (index, p.threadName index, result)
    | .error _ => none
  return (n, results)

def text (p : SpawnSettings) : String :=
  Text.record "WorkerSpawnConfig"
    [("stack_size", Text.option (p.stackSize.map toString)),
     ("name_prefix", Text.quote p.namePrefix)]

end SpawnSettings

end RangeTransfer
