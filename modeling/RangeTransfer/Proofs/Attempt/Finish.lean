import RangeTransfer.Proofs.Attempt.Moves
import RangeTransfer.Proofs.Range.Partition
/-!
# Crews finish

`Crew.run` makes a list of moves, those it is given and then rounds (`run_eq_after`), and leaves no
worker unfinished (`finished_run`), whatever the moves, the remote and the sink. What bounds a
worker is its stage and the ranges left to the plan, `work`: each step of its own takes at least one
off it, and no move of another worker adds to it.
-/

namespace RangeTransfer

/-! ## One step -/

namespace Stage

/-- Most steps of a worker until it seeks another range, and the one in which it seeks, where a
range is asked for at most `most` times. -/
def steps (most : Nat) : Stage → Nat
  | stopped | died _ => 0
  | seeking | failing _ _ | writtenWhole _ => 1
  | counted _ _ => 2
  | marked _ _ => 3
  | written _ => 4
  | holding _ _ => 5
  | asking _ attempt => 2 * (most + 1 - attempt) + 6
  | pausing _ attempt => 2 * (most - attempt) + 7
  | claimed _ => 2 * most + 7

theorem steps_le (most : Nat) (a : Stage) : a.steps most ≤ 2 * most + 8 := by
  cases a <;> simp only [steps] <;> omega

theorem finished_of_steps {most : Nat} {a : Stage} (h : a.steps most = 0) : a.finished = true := by
  cases a <;> first | rfl | simp [steps] at h

/-- Most steps of a worker in stage `a` until it has finished. -/
def work (most : Nat) (a : Stage) (t : Tracker) : Nat :=
  a.steps most + t.plan.left * (2 * most + 8)

theorem work_mono {most : Nat} {a : Stage} {t t' : Tracker} (h : t'.plan.left ≤ t.plan.left) :
    a.work most t' ≤ a.work most t :=
  Nat.add_le_add_left (Nat.mul_le_mul_right _ h) _

namespace Step

variable {ρ σ : Type} [Remote ρ] [RangeSink σ] {rules : WorkerRules} {w : Nat} {a a' : Stage}
  {x x' : Shared ρ σ}

theorem left (h : Step rules w x a a' x') : x'.tracker.plan.left ≤ x.tracker.plan.left := by
  cases h with
  | claim _ lt => exact Nat.le_of_lt (Plan.left_rest lt)
  | whole =>
    show x.tracker.plan.exhaust.left ≤ _
    rw [Plan.left_exhaust]
    exact Nat.zero_le _
  | _ => exact Nat.le_refl _

theorem steps_lt (h : Step rules w x a a' x') (hbusy : a.finished = false) (hseek : a ≠ seeking) :
    a'.steps (max rules.policy.rangeAttempts 1) < a.steps (max rules.policy.rangeAttempts 1) := by
  cases h with
  | idle | claim => exact absurd rfl hseek
  | yield polls => cases polls <;> simp only [steps] <;> omega
  | overrun overruns =>
    cases overruns with
    | claim => exact absurd rfl hseek
    | _ => simp only [steps]; omega
  | rest finished => cases hbusy.symm.trans finished
  | _ => simp only [steps]; omega

theorem work_lt (h : Step rules w x a a' x') (hbusy : a.finished = false) :
    a'.work (max rules.policy.rangeAttempts 1) x'.tracker <
      a.work (max rules.policy.rangeAttempts 1) x.tracker := by
  by_cases hseek : a = seeking
  · subst hseek
    cases h with
    | claim _ lt =>
      -- the range comes off the plan
      have hplan := Nat.mul_le_mul_right (2 * max rules.policy.rangeAttempts 1 + 8)
        (Nat.succ_le_of_lt (Plan.left_rest lt))
      rw [Nat.succ_mul] at hplan
      simp only [work, steps]
      omega
    | yield polls => cases polls
    | rest finished => cases finished
    | idle | overrun => simp only [work, steps]; omega
  · exact Nat.lt_of_lt_of_le (Nat.add_lt_add_right (h.steps_lt hbusy hseek) _)
      (Nat.add_le_add_left (Nat.mul_le_mul_right _ h.left) _)

end Step

end Stage

/-! ## Rounds -/

namespace Crew

variable {ρ σ : Type} {rules : WorkerRules} {c : Crew ρ σ}

/-- Worker `w` has finished or has at most `n` steps to go. -/
def Nears (rules : WorkerRules) (c : Crew ρ σ) (w n : Nat) : Prop :=
  ∀ a, c.workers[w]? = some a →
    a.finished = true ∨ a.work (max rules.policy.rangeAttempts 1) c.shared.tracker ≤ n

theorem finished_of_nears (h : ∀ w, c.Nears rules w 0) : c.finished = true := by
  refine List.all_eq_true.mpr fun a ha => ?_
  obtain ⟨w, hw⟩ := List.mem_iff_getElem?.mp ha
  rcases h w a hw with hfin | hwork
  · exact hfin
  · refine Stage.finished_of_steps (?_ : a.steps (max rules.policy.rangeAttempts 1) = 0)
    simp only [Stage.work] at hwork
    omega

variable [Remote ρ] [RangeSink σ]

theorem left_apply (c : Crew ρ σ) (m : Move) :
    (c.apply rules m).shared.tracker.plan.left ≤ c.shared.tracker.plan.left := by
  have hmoved := c.moved_apply rules m
  generalize c.apply rules m = c' at hmoved ⊢
  cases hmoved with
  | still | cancel => exact Nat.le_refl _
  | step _ _ hstep => exact hstep.left
  | lose | refuse => exact Nat.le_of_eq (by rw [Stage.tracker_storePart])

theorem left_after (c : Crew ρ σ) (moves : List Move) :
    (c.after rules moves).shared.tracker.plan.left ≤ c.shared.tracker.plan.left := by
  induction moves generalizing c with
  | nil => exact Nat.le_refl _
  | cons m moves ih => exact Nat.le_trans (ih (c.apply rules m)) (left_apply c m)

theorem Nears.other {v w n : Nat} (h : c.Nears rules v n) (hne : v ≠ w) :
    (c.apply rules (.advance w)).Nears rules v n := by
  intro a ha
  rw [getElem?_advance_of_ne rules c hne] at ha
  exact (h a ha).imp_right (Nat.le_trans (Stage.work_mono (left_apply c _)))

theorem Nears.self {w n : Nat} (h : c.Nears rules w (n + 1)) :
    (c.apply rules (.advance w)).Nears rules w n := by
  intro a ha
  have hmoved := c.moved_apply rules (.advance w)
  generalize c.apply rules (.advance w) = c' at hmoved ha ⊢
  cases hmoved with
  | still idle => exact Or.inl (idle w a rfl ha)
  | @step _ b a' x' hw hbusy hstep =>
    rw [List.getElem?_set_self (List.getElem?_eq_some_iff.mp hw).1] at ha
    cases ha
    rcases h b hw with hfin | hwork
    · cases hbusy.symm.trans hfin
    · exact Or.inr (Nat.le_of_lt_succ (Nat.lt_of_lt_of_le (hstep.work_lt hbusy) hwork))

theorem length_workers_after (c : Crew ρ σ) (moves : List Move) :
    (c.after rules moves).workers.length = c.workers.length := by
  induction moves generalizing c with
  | nil => rfl
  | cons m moves ih => exact (ih (c.apply rules m)).trans (length_workers_apply rules c m)

/-- The moves of a round: every worker steps once. -/
def roundMoves (c : Crew ρ σ) : List Move := (List.range c.workers.length).map .advance

theorem round_eq_after (c : Crew ρ σ) : c.round rules = c.after rules c.roundMoves := by
  rw [round, after, roundMoves, List.foldl_map]

theorem nears_round {n : Nat} (h : ∀ w, c.Nears rules w (n + 1)) :
    ∀ w, (c.round rules).Nears rules w n := by
  have hpart : ∀ m, let c' := (List.range m).foldl (fun c w => c.apply rules (.advance w)) c
      (∀ w, w < m → c'.Nears rules w n) ∧ ∀ w, m ≤ w → c'.Nears rules w (n + 1) := by
    intro m
    induction m with
    | zero => exact ⟨fun w hw => absurd hw (Nat.not_lt_zero w), fun w _ => h w⟩
    | succ m ih =>
      simp only [List.range_succ, List.foldl_append, List.foldl_cons, List.foldl_nil]
      refine ⟨fun w hw => ?_, fun w hw => (ih.2 w (by omega)).other (by omega)⟩
      by_cases hlast : w = m
      · subst hlast; exact (ih.2 w (Nat.le_refl _)).self
      · exact (ih.1 w (by omega)).other hlast
  intro w a ha
  by_cases hw : w < c.workers.length
  · exact (hpart c.workers.length).1 w hw a ha
  · have hlen : (c.round rules).workers.length = c.workers.length := by
      rw [round_eq_after, length_workers_after]
    rw [List.getElem?_eq_none (by omega)] at ha
    cases ha

theorem finished_finish {n : Nat} (h : ∀ w, c.Nears rules w n) : (c.finish rules n).finished = true := by
  induction n generalizing c with
  | zero => exact finished_of_nears h
  | succ n ih =>
    rw [finish]
    split
    · assumption
    · exact ih (nears_round h)

/-! ## Runs -/

/-- The moves of at most `bound` rounds, until all workers have finished. -/
def finishMoves (rules : WorkerRules) : (bound : Nat) → Crew ρ σ → List Move
  | 0, _ => []
  | bound + 1, c =>
    if c.finished then [] else c.roundMoves ++ finishMoves rules bound (c.round rules)

/-- All moves that a run makes. -/
def schedule (rules : WorkerRules) (moves : List Move) (c : Crew ρ σ) : List Move :=
  moves ++ finishMoves rules (roundsNeeded rules c.shared.tracker) (c.after rules moves)

theorem after_append (c : Crew ρ σ) (ms ns : List Move) :
    c.after rules (ms ++ ns) = (c.after rules ms).after rules ns := List.foldl_append

theorem finish_eq_after (n : Nat) (c : Crew ρ σ) :
    c.finish rules n = c.after rules (finishMoves rules n c) := by
  induction n generalizing c with
  | zero => rfl
  | succ n ih =>
    rw [finish, finishMoves]
    split
    · rfl
    · rw [after_append, ← round_eq_after]
      exact ih (c.round rules)

theorem run_eq_after (c : Crew ρ σ) (moves : List Move) :
    c.run rules moves = c.after rules (c.schedule rules moves) := by
  rw [schedule, after_append, ← finish_eq_after]
  rfl

theorem mem_schedule {moves : List Move} {m : Move} (h : m ∈ c.schedule rules moves) :
    m ∈ moves ∨ ∃ w, m = .advance w := by
  refine (List.mem_append.mp h).imp_right fun h => ?_
  generalize c.after rules moves = c' at h
  generalize roundsNeeded rules c.shared.tracker = n at h
  induction n generalizing c' with
  | zero => cases h
  | succ n ih =>
    rw [finishMoves] at h
    split at h
    · cases h
    · rcases List.mem_append.mp h with h | h
      · obtain ⟨w, -, rfl⟩ := List.mem_map.mp h
        exact ⟨w, rfl⟩
      · exact ih _ h

theorem finished_run (c : Crew ρ σ) (moves : List Move) : (c.run rules moves).finished = true := by
  refine finished_finish fun w a _ => Or.inr ?_
  have hsteps := a.steps_le (max rules.policy.rangeAttempts 1)
  have hplan : (c.after rules moves).shared.tracker.plan.left ≤ _ := left_after c moves
  have hleft := Nat.mul_le_mul_right (2 * max rules.policy.rangeAttempts 1 + 8) hplan
  show Stage.work _ a (c.after rules moves).shared.tracker ≤
    (c.shared.tracker.plan.left + 2) * (2 * max rules.policy.rangeAttempts 1 + 8)
  rw [Nat.add_mul]
  simp only [Stage.work]
  omega

end Crew

end RangeTransfer
