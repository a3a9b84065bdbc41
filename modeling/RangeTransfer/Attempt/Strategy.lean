import RangeTransfer.Attempt.Crew
import RangeTransfer.Attempt.Pool
/-!
# Strategies

How the ranges of an attempt are fetched: by one worker in order, which also takes the whole object
if the server sends it, or by a pool of workers with a connection each. `chooseKind` decides, and
asks whether the server honours ranges only if a pool would pay.
-/

namespace RangeTransfer

inductive StrategyKind where
  | alreadyComplete
  | singleShot
  | sequential
  | parallel
  deriving DecidableEq, Repr

def StrategyKind.name : StrategyKind → String
  | alreadyComplete => "already-complete"
  | singleShot => "single-shot"
  | sequential => "sequential"
  | parallel => "parallel"

/-- Whether several workers can be used and there is more than one range to fetch. -/
def poolPays (workers remaining chunk : Nat) : Bool := 1 < workers && chunk < remaining

def chooseKind (workers remaining chunk : Nat) (rangesHonoured : Bool) : StrategyKind :=
  if poolPays workers remaining chunk && rangesHonoured then .parallel else .sequential

inductive Strategy where
  | sequential (policy : RetryPolicy)
  | parallel (workers : Nat) (policy : RetryPolicy) (spawn : SpawnSettings)
  deriving DecidableEq, Repr

namespace Strategy

/-- A pool has at least one worker. -/
def pool (workers : Nat) (policy : RetryPolicy) (spawn : SpawnSettings) : Strategy :=
  .parallel (max workers 1) policy spawn

def kind : Strategy → StrategyKind
  | sequential _ => .sequential
  | parallel _ _ _ => .parallel

def text : Strategy → String
  | sequential policy => Text.record "SequentialStrategy" [("policy", policy.text)]
  | parallel workers policy spawn =>
    Text.record "ParallelStrategy"
      [("workers", toString workers), ("policy", policy.text),
       ("pool", Text.record "WorkerPool" [("spawn", spawn.text)])]

variable {ρ σ : Type} [Remote ρ] [RangeSink σ]

/-- The recorded error of an attempt whose workers have finished. -/
def settle (x : Shared ρ σ) : Except Halt Unit × Shared ρ σ :=
  let (error, tracker) := x.tracker.takeError
  (match error with
    | some e => .error (.failed e)
    | none => .ok (), { x with tracker })

/-- Fetches the ranges of the attempt, over one connection that is already open. The workers move
as `moves` says and then in turn; the system grants `granted` threads to a pool. A single worker
runs in the thread of the caller, who ends with it if it dies. -/
def execute (strategy : Strategy) (moves : List Move) (granted : Option Nat) (x : Shared ρ σ) :
    Except Halt Unit × Shared ρ σ :=
  match strategy with
  | sequential policy =>
    let c := (Crew.new x 1).run ⟨policy, true⟩ moves
    match c.abort? with
    | some abort => (.error (.aborted abort), c.shared)
    | none => settle c.shared
  | parallel workers policy spawn =>
    let (opened, session) := x.session.connectMore (workers - 1)
    let x := { x with session }
    match spawn.startThreads (opened + 1) granted with
    | .error e => (.error (.failed e), x)
    | .ok n => settle ((Crew.new x n).run ⟨policy, false⟩ moves).shared

end Strategy

end RangeTransfer
