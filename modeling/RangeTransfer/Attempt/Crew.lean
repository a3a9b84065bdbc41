import RangeTransfer.Attempt.Worker
/-!
# Crews

The workers of an attempt and what they share. A crew moves by single steps of its workers in any
order, and meanwhile the caller may raise the stop flag, the storage may refuse a write, and a
worker may die: `run` takes any list of moves and then lets the workers that are left step in turn
until all have finished.
-/

namespace RangeTransfer

structure Crew (ρ σ : Type) where
  shared : Shared ρ σ
  workers : List Stage

inductive Move where
  /-- A worker takes its next step. -/
  | advance (worker : Nat)
  /-- The caller raises the stop flag. -/
  | cancel
  /-- A worker dies in a call, after `stored` bytes of a write it may be in. -/
  | lose (worker stored : Nat)
  /-- The storage refuses the write of a worker, after `stored` bytes. -/
  | refuse (worker stored : Nat) (path : Path) (cause : StorageError)
  deriving DecidableEq, Repr

namespace Crew

variable {ρ σ : Type}

/-- A crew of `n` workers that have not started yet. -/
def new (shared : Shared ρ σ) (n : Nat) : Crew ρ σ := ⟨shared, List.replicate n .seeking⟩

def finished (c : Crew ρ σ) : Bool := c.workers.all Stage.finished

/-- The abort that ended the first worker that died, if one did. -/
def abort? (c : Crew ρ σ) : Option Abort :=
  c.workers.findSome? fun
    | .died abort => some abort
    | _ => none

variable [Remote ρ] [RangeSink σ]

/-- Replaces the stage of one worker, and what is shared, by the outcome of `step`. -/
def update (c : Crew ρ σ) (worker : Nat) (step : Stage → Shared ρ σ → Stage × Shared ρ σ) :
    Crew ρ σ :=
  match c.workers[worker]? with
  | none => c
  | some stage =>
    let (stage, shared) := step stage c.shared
    ⟨shared, c.workers.set worker stage⟩

def apply (rules : WorkerRules) (c : Crew ρ σ) : Move → Crew ρ σ
  | .advance worker => c.update worker (Stage.advance rules worker)
  | .cancel =>
    { c with shared := { c.shared with session := c.shared.session.cancelIf true } }
  | .lose worker stored => c.update worker fun stage => Stage.lose stage stored
  | .refuse worker stored path cause =>
    c.update worker fun stage => Stage.refuse stage stored (.storage path cause)

/-- Every worker takes one step, in order. -/
def round (rules : WorkerRules) (c : Crew ρ σ) : Crew ρ σ :=
  (List.range c.workers.length).foldl (fun c worker => c.apply rules (.advance worker)) c

/-- Rounds until all workers have finished, at most `bound` of them. -/
def finish (rules : WorkerRules) : (bound : Nat) → Crew ρ σ → Crew ρ σ
  | 0, c => c
  | bound + 1, c => if c.finished then c else finish rules bound (c.round rules)

/-- Rounds that are enough: a worker takes two steps per request for a range and six more, and then
finds nothing left. -/
def roundsNeeded (rules : WorkerRules) (t : Tracker) : Nat :=
  let ranges := (t.plan.remaining + (t.plan.chunk - 1)) / t.plan.chunk
  (ranges + 2) * (2 * max rules.policy.rangeAttempts 1 + 8)

def run (rules : WorkerRules) (moves : List Move) (c : Crew ρ σ) : Crew ρ σ :=
  (moves.foldl (apply rules) c).finish rules (roundsNeeded rules c.shared.tracker)

end Crew

end RangeTransfer
