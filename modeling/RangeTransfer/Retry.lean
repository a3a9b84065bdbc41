import RangeTransfer.Duration
import RangeTransfer.Text.Record
/-!
# Retry policies

Two bounded loops: a worker asks for the same range at most `rangeAttempts` times, and a whole
transfer is run at most `transferAttempts` times, with its waiting time spread evenly between the
runs. A bound of zero counts as one.
-/

namespace RangeTransfer

structure RetryPolicy where
  rangeAttempts : Nat
  backoff : Duration
  transferAttempts : Nat
  /-- Waiting time of all whole-transfer retries together. -/
  waitBudget : Duration
  deriving DecidableEq, Repr

namespace RetryPolicy

def standard : RetryPolicy := ⟨6, .ofSeconds 5, 3, .ofSeconds 60⟩

/-- One attempt at everything. -/
def single : RetryPolicy := ⟨1, .zero, 1, .zero⟩

def withRange (p : RetryPolicy) (attempts : Nat) (backoff : Duration) : RetryPolicy :=
  { p with rangeAttempts := max attempts 1, backoff }

def withTransfer (p : RetryPolicy) (attempts : Nat) (waitBudget : Duration) : RetryPolicy :=
  { p with transferAttempts := max attempts 1, waitBudget }

/-- The wait after failed attempt `attempt` at a range, unless it was the last one. -/
def rangeDelay (p : RetryPolicy) (attempt : Nat) : Option Duration :=
  if attempt < max p.rangeAttempts 1 then some p.backoff else none

/-- The wait after failed attempt `attempt` at the whole transfer, unless it was the last one. -/
def transferDelay (p : RetryPolicy) (attempt : Nat) : Except Abort (Option Duration) :=
  let most := max p.transferAttempts 1
  if most ≤ attempt then .ok none else some <$> p.waitBudget.div (most - 1)

def text (p : RetryPolicy) : String :=
  Text.record "RetryPolicy"
    [("max_attempts_per_range", toString p.rangeAttempts),
     ("per_attempt_backoff", p.backoff.text),
     ("max_attempts_whole_transfer", toString p.transferAttempts),
     ("total_backoff_budget", p.waitBudget.text)]

end RetryPolicy

end RangeTransfer
