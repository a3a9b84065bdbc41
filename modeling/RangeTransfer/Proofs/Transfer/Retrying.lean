import RangeTransfer.Transfer.Download
/-!
# Running a transfer again

The loop of a transfer, over any attempts (`Loop`). `Loop.before` is the run in which a wait follows
every attempt; the loop goes along it while `Loop.Followed` holds, and `Loop.Ends` says what it
returns at the first attempt that no other one follows (`bounded_retry`). The waits are equal shares
of the budget, which they fill up to the rounding.
-/

namespace RangeTransfer

/-! ## The waits of a policy -/

namespace RetryPolicy

/-- How many attempts at a transfer are allowed. -/
def most (p : RetryPolicy) : Nat := max p.transferAttempts 1

/-- The wait between two attempts at a transfer. -/
def pace (p : RetryPolicy) : Duration := ⟨p.waitBudget.nanos / (p.most - 1)⟩

variable (p : RetryPolicy) {k : Nat}

theorem one_le_most : 1 ≤ p.most := Nat.le_max_right _ _

theorem transferDelay_of_le (h : p.most ≤ k) : p.transferDelay k = .ok none := if_pos h

theorem transferDelay_of_lt (hpos : 1 ≤ k) (h : k < p.most) : p.transferDelay k = .ok (some p.pace) := by
  have hpieces : p.most - 1 ≠ 0 := by omega
  have hdiv : p.waitBudget.div (p.most - 1) = .ok p.pace := if_neg hpieces
  refine (if_neg (Nat.not_le.mpr h)).trans ?_
  exact congrArg (some <$> ·) hdiv

theorem waits_le (h : k ≤ p.most) : (k - 1) * p.pace.nanos ≤ p.waitBudget.nanos :=
  calc (k - 1) * p.pace.nanos ≤ (p.most - 1) * p.pace.nanos :=
        Nat.mul_le_mul_right _ (Nat.sub_le_sub_right h 1)
    _ ≤ p.waitBudget.nanos := Nat.mul_div_le _ _

/-- All the waits together fall short of the budget by less than a nanosecond for each. -/
theorem lt_waits (h : 1 < p.most) :
    p.waitBudget.nanos < (p.most - 1) * p.pace.nanos + (p.most - 1) :=
  Nat.lt_mul_div_succ _ (Nat.sub_pos_of_lt h)

end RetryPolicy

theorem TransferError.retryable_iff (e : TransferError) : e.retryable = true ↔
    (∃ url message, e = .transport url message) ∨
      ∃ url fault, e = .protocol url fault ∧ fault.retryable = true := by
  cases e with
  | transport url message => exact ⟨fun _ => Or.inl ⟨url, message, rfl⟩, fun _ => rfl⟩
  | protocol url fault =>
    refine ⟨fun h => Or.inr ⟨url, fault, rfl, h⟩, ?_⟩
    rintro (⟨_, _, h⟩ | ⟨_, _, h, hfault⟩) <;> cases h
    exact hfault
  | _ => simp [retryable]

namespace Transfer

theorem waitAfter_of_retryable {policy : RetryPolicy} {e : TransferError} {k : Nat}
    (hretry : e.retryable = true) (hpos : 1 ≤ k) (h : k < policy.most) :
    waitAfter policy e k = .ok (some policy.pace) := by
  rw [waitAfter, if_pos hretry, policy.transferDelay_of_lt hpos h]

theorem waitAfter_of_last {policy : RetryPolicy} {e : TransferError} {k : Nat}
    (h : e.retryable = false ∨ policy.most ≤ k) : waitAfter policy e k = .ok none := by
  unfold waitAfter
  split
  · rename_i hretry
    have hlast : policy.most ≤ k := h.resolve_left (by rw [hretry]; exact Bool.noConfusion)
    exact policy.transferDelay_of_le hlast
  · rfl

theorem eq_pace_of_waitAfter {policy : RetryPolicy} {e : TransferError} {k : Nat} {delay : Duration}
    (hpos : 1 ≤ k) (h : waitAfter policy e k = .ok (some delay)) : delay = policy.pace := by
  by_cases hmore : e.retryable = true ∧ k < policy.most
  · rw [waitAfter_of_retryable hmore.1 hpos hmore.2] at h
    cases h
    rfl
  · rw [Classical.not_and_iff_not_or_not, Bool.not_eq_true, Nat.not_lt] at hmore
    rw [waitAfter_of_last hmore] at h
    cases h

/-! ## The loop -/

/-- A transfer that is run from `start` on, whatever its attempts do. -/
structure Loop (ρ : Type) where
  policy : RetryPolicy
  attempt : Nat → Transfer ρ → Except AttemptHalt Outcome × Transfer ρ
  /-- After which attempts the caller raises the stop flag. -/
  stops : Nat → Bool
  start : Transfer ρ

namespace Loop

variable {ρ : Type}

def result (loop : Loop ρ) : Except DownloadHalt Outcome × Transfer ρ :=
  retry loop.policy loop.attempt loop.stops (loop.policy.most - 1) 1 loop.start

/-- The transfer before attempt `k`, if a wait follows each attempt up to then. -/
def before (loop : Loop ρ) : Nat → Transfer ρ
  | 0 | 1 => loop.start
  | k + 2 =>
    (loop.attempt (k + 1) (loop.before (k + 1))).2.pause loop.policy.pace (loop.stops (k + 1))

/-- What attempt `k` ends with. -/
def answer (loop : Loop ρ) (k : Nat) : Except AttemptHalt Outcome × Transfer ρ :=
  loop.attempt k (loop.before k)

/-- Attempt `k` succeeds, or fails for good, or is the last one that the policy allows. -/
def Last (loop : Loop ρ) (k : Nat) : Prop :=
  ∀ e n y, loop.answer k = (.error (.failed e n), y) → e.retryable = false ∨ loop.policy.most ≤ k

/-- Another attempt follows attempt `k`: nobody has asked to stop when the wait is over. -/
def Followed (loop : Loop ρ) (k : Nat) : Prop :=
  ¬ loop.Last k ∧ (loop.before (k + 1)).cancelled = false

/-- What the transfer ends with if attempt `k` was the last one that was made. -/
inductive Ends (loop : Loop ρ) (k : Nat) : Except DownloadHalt Outcome × Transfer ρ → Prop
  | done {o : Outcome} {y : Transfer ρ} (answer : loop.answer k = (.ok o, y)) :
      Ends loop k (.ok { o with attempts := k }, y.complete { o with attempts := k })
  | aborted {abort : Abort} {y : Transfer ρ} (answer : loop.answer k = (.error (.aborted abort), y)) :
      Ends loop k (.error (.aborted abort), y)
  | failed {e : TransferError} {n : Nat} {y : Transfer ρ}
      (answer : loop.answer k = (.error (.failed e n), y)) (last : loop.Last k) :
      Ends loop k (.error (.failed ⟨e, n, k⟩), y.enter .failed)
  /-- The flag was up when the wait was over. -/
  | stopped {e : TransferError} {n : Nat} {y : Transfer ρ}
      (answer : loop.answer k = (.error (.failed e n), y)) (more : ¬ loop.Last k)
      (up : (loop.before (k + 1)).cancelled = true) :
      Ends loop k (.error (.failed ⟨.cancelled, n, k⟩), (loop.before (k + 1)).enter .failed)

variable {loop : Loop ρ} {k left : Nat}

theorem before_succ (loop : Loop ρ) (hpos : 1 ≤ k) :
    loop.before (k + 1) = (loop.answer k).2.pause loop.policy.pace (loop.stops k) := by
  obtain ⟨k, rfl⟩ := Nat.exists_eq_add_of_le' hpos
  rfl

theorem not_last_iff : ¬ loop.Last k ↔ ∃ e n y, loop.answer k = (.error (.failed e n), y) ∧
    e.retryable = true ∧ k < loop.policy.most := by
  simp only [Last, Classical.not_forall, not_or, Bool.not_eq_false, Nat.not_le, exists_prop]

namespace Ends

variable {r : Except DownloadHalt Outcome × Transfer ρ}

theorem not_followed (h : loop.Ends k r) : ¬ loop.Followed k := by
  rintro ⟨hmore, hcalm⟩
  obtain ⟨e, n, y, hfailed, -⟩ := not_last_iff.mp hmore
  cases h with
  | done answer | aborted answer => cases hfailed.symm.trans answer
  | failed _ last => exact hmore last
  | stopped _ _ up => exact Bool.noConfusion (up.symm.trans hcalm)

theorem last (h : loop.Ends k r) (hcalm : (loop.before (k + 1)).cancelled = false) : loop.Last k :=
  Classical.byContradiction fun hmore => h.not_followed ⟨hmore, hcalm⟩

end Ends

theorem retry_cases (loop : Loop ρ) (hpos : 1 ≤ k) (hleft : k + left = loop.policy.most) :
    loop.Ends k (retry loop.policy loop.attempt loop.stops left k (loop.before k)) ∨
      loop.Followed k ∧ ∃ left', left = left' + 1 ∧
        retry loop.policy loop.attempt loop.stops left k (loop.before k) =
          retry loop.policy loop.attempt loop.stops left' (k + 1) (loop.before (k + 1)) := by
  have hnext := loop.before_succ hpos
  rw [retry.eq_def]
  simp only
  cases hanswer : loop.answer k with
  | mk outcome y =>
    have hattempt : loop.attempt k (loop.before k) = (outcome, y) := hanswer
    rw [hattempt]
    match outcome with
    | .ok o => exact Or.inl (.done hanswer)
    | .error (.aborted abort) => exact Or.inl (.aborted hanswer)
    | .error (.failed e n) =>
      by_cases hmore : e.retryable = true ∧ k < loop.policy.most
      · have hnot : ¬ loop.Last k := not_last_iff.mpr ⟨e, n, y, hanswer, hmore⟩
        obtain ⟨left, rfl⟩ : ∃ left', left = left' + 1 := ⟨left - 1, by omega⟩
        rw [hanswer] at hnext
        simp only [waitAfter_of_retryable hmore.1 hpos hmore.2, ← hnext]
        split
        · rename_i hup
          exact Or.inl (.stopped hanswer hnot hup)
        · rename_i hcalm
          exact Or.inr ⟨⟨hnot, Bool.eq_false_iff.mpr hcalm⟩, left, rfl, rfl⟩
      · have hlast : e.retryable = false ∨ loop.policy.most ≤ k := by
          rwa [Classical.not_and_iff_not_or_not, Bool.not_eq_true, Nat.not_lt] at hmore
        have hall : loop.Last k := fun e' n' y' h => by
          cases hanswer.symm.trans h
          exact hlast
        simp only [waitAfter_of_last hlast]
        exact Or.inl (.failed hanswer hall)

theorem ends_retry (loop : Loop ρ) (hpos : 1 ≤ k) (hleft : k + left = loop.policy.most) :
    ∃ last, k ≤ last ∧ last ≤ loop.policy.most ∧ (∀ j, k ≤ j → j < last → loop.Followed j) ∧
      loop.Ends last (retry loop.policy loop.attempt loop.stops left k (loop.before k)) := by
  induction left generalizing k with
  | zero =>
    rcases loop.retry_cases hpos hleft with hends | ⟨-, left', h, -⟩
    · exact ⟨k, Nat.le_refl k, Nat.le_of_eq hleft, fun j hj hlt => absurd hlt (Nat.not_lt.mpr hj), hends⟩
    · exact absurd h (Nat.succ_ne_zero left').symm
  | succ left ih =>
    rcases loop.retry_cases hpos hleft with hends | ⟨hfollowed, left', h, hrest⟩
    · exact ⟨k, Nat.le_refl k, Nat.le.intro hleft, fun j hj hlt => absurd hlt (Nat.not_lt.mpr hj), hends⟩
    · obtain rfl : left = left' := Nat.succ.inj h
      obtain ⟨last, hle, hmost, hall, hends⟩ := ih (Nat.le_succ_of_le hpos) (by omega)
      refine ⟨last, Nat.le_of_succ_le hle, hmost, fun j hj hlt => ?_, hrest ▸ hends⟩
      rcases Nat.eq_or_lt_of_le hj with rfl | hlater
      · exact hfollowed
      · exact hall j hlater hlt

/-- The loop of a download. -/
def ofJob [Remote ρ] (job : Job) (conditions : Nat → Conditions) (x : Transfer ρ) : Loop ρ where
  policy := job.settings.retry
  attempt := fun number => Transfer.attempt job (conditions number)
  stops := fun number => (conditions number).stopsInWait
  start := x

/-- A transfer makes attempts up to the first one that succeeds, fails for good or is the last one
allowed, and ends with its answer, unless the flag is up after a wait. The waits are equal, and fill
the budget but for less than a nanosecond each. -/
theorem bounded_retry (loop : Loop ρ) :
    let policy := loop.policy
    ∃ k, 1 ≤ k ∧ k ≤ policy.most ∧
      (∀ j, 1 ≤ j → j < k → loop.Followed j) ∧ ¬ loop.Followed k ∧ loop.Ends k loop.result ∧
      ((loop.before (k + 1)).cancelled = false → loop.Last k) ∧
      (∀ j, 1 ≤ j → j < k → (loop.before (j + 1)).session.journal =
        .wait policy.pace :: .phase .autoRetrying :: (loop.answer j).2.session.journal) ∧
      (k - 1) * policy.pace.nanos ≤ policy.waitBudget.nanos ∧
      (1 < policy.most → k = policy.most →
        policy.waitBudget.nanos < (k - 1) * policy.pace.nanos + (policy.most - 1)) ∧
      (∀ e : TransferError, e.retryable = true ↔ (∃ url message, e = .transport url message) ∨
        ∃ url fault, e = .protocol url fault ∧ fault.retryable = true) ∧
      ∀ [Remote ρ] job conditions (x : Transfer ρ),
        download job conditions x = (ofJob job conditions x).result := by
  intro policy
  obtain ⟨k, hpos, hmost, hfollowed, hends⟩ :=
    loop.ends_retry (Nat.le_refl 1) (Nat.add_sub_cancel' policy.one_le_most)
  refine ⟨k, hpos, hmost, hfollowed, hends.not_followed, hends, hends.last, fun j hj _ => ?_,
    policy.waits_le hmost, fun hmore hall => ?_, TransferError.retryable_iff, fun _ _ _ => rfl⟩
  · rw [loop.before_succ hj]
    unfold pause
    cases loop.stops j <;> rfl
  · rw [hall]
    exact policy.lt_waits hmore

end Loop

end Transfer

end RangeTransfer
