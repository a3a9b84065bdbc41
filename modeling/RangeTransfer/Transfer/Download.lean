import RangeTransfer.Transfer.Attempt
/-!
# Downloads

A whole transfer: attempts, each of which starts from what is on disk, until one succeeds, fails for
good, or was the last that the policy allows.
-/

namespace RangeTransfer

/-- How a transfer ends without its object. -/
inductive DownloadHalt where
  | failed (failure : Failure)
  | aborted (abort : Abort)
  deriving DecidableEq, Repr

namespace Transfer

variable {ρ : Type}

/-- Enters the last phase of a successful transfer; a split directory is announced. -/
def complete (outcome : Outcome) (x : Transfer ρ) : Transfer ρ :=
  let x := x.enter .completed
  match outcome.layout with
  | .direct => x
  | .split => { x with session := x.session.note (.splitCompleted outcome.path) }

def giveUp (error : TransferError) (persisted attempts : Nat) (x : Transfer ρ) :
    Except DownloadHalt Outcome × Transfer ρ :=
  (.error (.failed ⟨error, persisted, attempts⟩), x.enter .failed)

/-- The wait after failed attempt `number`, unless the error or the policy ends the transfer. -/
def waitAfter (policy : RetryPolicy) (error : TransferError) (number : Nat) :
    Except Abort (Option Duration) :=
  if error.retryable then policy.transferDelay number else .ok none

/-- Waits, unless the caller asks to stop. -/
def pause (delay : Duration) (stops : Bool) (x : Transfer ρ) : Transfer ρ :=
  { x with session := ((x.session.enter .autoRetrying).note (.wait delay)).cancelIf stops }

/-- Runs attempt `number` of a transfer, and further ones, at most `left` of them, while `policy`
allows. `stops` tells after which attempts the caller raises the stop flag. -/
def retry (policy : RetryPolicy) (attempt : Nat → Transfer ρ → Except AttemptHalt Outcome × Transfer ρ)
    (stops : Nat → Bool) : (left number : Nat) → Transfer ρ →
    Except DownloadHalt Outcome × Transfer ρ :=
  fun left number x =>
    match attempt number x with
    | (.ok outcome, x) =>
      let outcome := { outcome with attempts := number }
      (.ok outcome, x.complete outcome)
    | (.error (.aborted abort), x) => (.error (.aborted abort), x)
    | (.error (.failed error persisted), x) =>
      match waitAfter policy error number, left with
      | .error abort, _ => (.error (.aborted abort), x)
      | .ok (some delay), left + 1 =>
        let x := x.pause delay (stops number)
        if x.session.cancelled then x.giveUp .cancelled persisted number
        else retry policy attempt stops left (number + 1) x
      | .ok _, _ => x.giveUp error persisted number

variable [Remote ρ]

/-- Fetches the object of `job`. `conditions` tells what happens during each attempt. -/
def download (job : Job) (conditions : Nat → Conditions) (x : Transfer ρ) :
    Except DownloadHalt Outcome × Transfer ρ :=
  let policy := job.settings.retry
  retry policy (fun number => attempt job (conditions number))
    (fun number => (conditions number).stopsInWait) (max policy.transferAttempts 1 - 1) 1 x

end Transfer

end RangeTransfer
