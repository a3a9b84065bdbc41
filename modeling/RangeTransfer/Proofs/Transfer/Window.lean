import RangeTransfer.Proofs.Attempt.InFlight
import RangeTransfer.Proofs.Remote.Archive
import RangeTransfer.Proofs.Transfer.Execution
/-!
# The window of a transfer

An attempt has at most as many workers as `clampWorkers` allows, and its chunk is such that a chunk
for each of them fits the window (`mulCapped_effectiveChunk`), unless the window is larger than any
object. Since a worker holds one range at a time, what is in flight fits the window whatever the
workers, the caller, the remote and the storage do (`inFlight_le_windowCap`).
-/

namespace RangeTransfer

/-! ## Chunks and workers -/

theorem mulCapped_capWindow (chunk : Nat) {workers cap : Nat} (hpos : 0 < workers)
    (hcap : workers ≤ cap) : Offset.mulCapped (capWindow chunk workers cap) workers ≤ cap := by
  have hmax : max workers 1 = workers := by omega
  unfold capWindow
  simp only [hmax]
  split
  · assumption
  · have hone : 1 ≤ cap / workers := (Nat.one_le_div_iff hpos).mpr hcap
    have hfits : cap / workers * workers ≤ cap := Nat.div_mul_le_self cap workers
    rw [Nat.max_eq_left hone]
    exact Nat.le_trans (Nat.min_le_left _ _) hfits

namespace TransferSettings

theorem clampWorkers_pos (requested : Nat) (layout : LayoutKind) :
    0 < clampWorkers requested layout := Nat.le_max_left _ _

theorem clampWorkers_le_windowCap (c : TransferSettings) (requested : Nat) (layout : LayoutKind) :
    clampWorkers requested layout ≤ c.windowCap := by
  have hmost : maxWorkers layout ≤ 32 := by cases layout <;> decide
  have hcap : mebibyte ≤ c.windowCap := Nat.le_max_right _ _
  have hmebibyte : mebibyte = 1048576 := rfl
  unfold clampWorkers
  omega

theorem effectiveChunk_pos (c : TransferSettings) (chunk workers : Nat) :
    0 < c.effectiveChunk chunk workers := by
  simp only [effectiveChunk, capWindow]
  split
  · exact Nat.le_max_right _ _
  · exact Nat.le_max_right _ _

theorem mulCapped_effectiveChunk (c : TransferSettings) (chunk requested : Nat)
    (layout : LayoutKind) :
    Offset.mulCapped (c.effectiveChunk chunk (clampWorkers requested layout))
      (clampWorkers requested layout) ≤ c.windowCap :=
  mulCapped_capWindow _ (clampWorkers_pos requested layout)
    (c.clampWorkers_le_windowCap requested layout)

end TransferSettings

/-! ## The workers of an attempt -/

theorem SpawnSettings.le_of_startThreads {p : SpawnSettings} {requested n : Nat}
    {granted : Option Nat} (h : p.startThreads requested granted = .ok n) : n ≤ requested := by
  have hstarted : p.started requested granted ≤ requested := by
    unfold started
    split
    · cases granted with
      | none => exact Nat.le_refl _
      | some most => exact Nat.min_le_left _ _
    · exact Nat.zero_le _
  simp only [startThreads] at h
  generalize p.started requested granted = m at h hstarted
  split at h
  · cases h
  · cases h
    exact hstarted

theorem Session.connectMore_le {ρ : Type} [Remote ρ] (n : Nat) (x : Session ρ) :
    (x.connectMore n).1 ≤ n := by
  induction n generalizing x with
  | zero => exact Nat.le_refl _
  | succ n ih =>
    rw [connectMore]
    split
    · exact Nat.zero_le _
    · exact Nat.succ_le_succ (ih _)

namespace Strategy

/-- The most workers that the strategy lets run. -/
def workers : Strategy → Nat
  | sequential _ => 1
  | parallel workers _ _ => max workers 1

theorem length_crew_le {ρ σ : Type} [Remote ρ] (strategy : Strategy) (granted : Option Nat)
    (x : Shared ρ σ) : (strategy.crew granted x).workers.length ≤ strategy.workers := by
  unfold crew
  cases strategy with
  | sequential policy => exact Nat.le_of_eq List.length_replicate
  | parallel workers policy spawn =>
    simp only
    split
    · exact Nat.zero_le _
    · rename_i n hstart
      have hstarted := SpawnSettings.le_of_startThreads hstart
      have hopened := x.session.connectMore_le (workers - 1)
      show (List.replicate n Stage.seeking).length ≤ max workers 1
      rw [List.length_replicate]
      omega

end Strategy

namespace Transfer

variable {ρ : Type} [Remote ρ]

theorem share_of_prepareRun {x : Transfer ρ} {job : Job} {p : Placement} {size : Nat} {run : Run ρ}
    (h : (x.prepareRun job p size).1 = .ok run) :
    run.chunk = job.settings.effectiveChunk job.request.chunk
      (TransferSettings.clampWorkers job.request.workers p.kind) ∧
      run.strategy.workers ≤ TransferSettings.clampWorkers job.request.workers p.kind := by
  have hpos := TransferSettings.clampWorkers_pos job.request.workers p.kind
  unfold prepareRun at h
  simp only at h
  split at h
  · cases h
  · split at h
    · cases h
    · split at h
      · cases h
      · unfold openRun at h
        simp only at h
        split at h
        · cases h
        · cases h
          refine ⟨rfl, ?_⟩
          show Strategy.workers (if _ then _ else _) ≤ _
          split
          · simp only [Strategy.pool, Strategy.workers]
            omega
          · exact hpos

/-- At every point of an attempt each worker has accounted for all ranges that it claimed but the
one that it holds, and the ranges that running workers hold fit the window. -/
theorem inFlight_le_windowCap {x : Transfer ρ} {job : Job} {p : Placement} {size : Nat} {run : Run ρ}
    (hfit : size < Offset.limit) (hopen : (x.prepareRun job p size).1 = .ok run)
    (granted : Option Nat) (moves : List Move) :
    let c := run.strategy.crew granted run.shared
    let c' := c.after run.strategy.rules moves
    (∀ w, ∃ held : Option ByteRange,
      c.claimed run.strategy.rules w moves =
        c.completed run.strategy.rules w moves ++ held.toList ∧
      ∀ a, c'.workers[w]? = some a → a.finished = false → a.range? = held) ∧
    totalLength c'.inFlight ≤ job.settings.windowCap := by
  intro c c'
  obtain ⟨-, htracker, -⟩ := opened_of_prepareRun hopen
  obtain ⟨hchunk, hworkers⟩ := share_of_prepareRun hopen
  obtain ⟨session, n, hcrew, -⟩ := run.strategy.crew_eq granted run.shared
  have hseeking : ∀ (w : Nat) a, c.workers[w]? = some a → a = Stage.seeking := fun w a hw => by
    have hmem := List.mem_of_getElem? hw
    rw [show c = .new _ n from hcrew] at hmem
    exact List.eq_of_mem_replicate hmem
  refine ⟨fun w => ?_, ?_⟩
  · cases hw : c.workers[w]? with
    | none =>
      have hnone := Crew.history_of_none run.strategy.rules hw
      exact ⟨none, by rw [Crew.claimed, Crew.completed, (hnone _ moves).2, (hnone _ moves).2]; rfl,
        fun a ha => by rw [(hnone Stage.claims moves).1] at ha; cases ha⟩
    | some a =>
      obtain rfl := hseeking w a hw
      obtain ⟨a', held, hw', hheld, hbalance⟩ := Crew.claimed_eq run.strategy.rules hw
        (show Stage.seeking.Holds none from fun _ => rfl) moves
      refine ⟨held, hbalance, fun a ha hrun => ?_⟩
      obtain rfl : a' = a := Option.some.inj (hw'.symm.trans ha)
      exact (hheld hrun).symm
  · have hwindow : Window c.workers c.shared.tracker.plan (size - p.resume) := by
      rw [show c = .new _ n from hcrew]
      exact Crew.window_new (x := { run.shared with session }) htracker hfit n
    have hlength : c'.workers.length ≤
        TransferSettings.clampWorkers job.request.workers p.kind := by
      rw [show c'.workers.length = _ from Crew.length_workers_after c moves]
      exact Nat.le_trans (run.strategy.length_crew_le granted run.shared) hworkers
    have hplan : c'.shared.tracker.plan.chunk = run.chunk := by
      rw [show c'.shared.tracker.plan.chunk = _ from
        Tracker.chunk_eq_of_task (Crew.task_after c moves), show c = .new _ n from hcrew]
      show run.shared.tracker.plan.chunk = _
      rw [htracker]
      exact Nat.max_eq_left (hchunk ▸ job.settings.effectiveChunk_pos _ _)
    have hall := Crew.totalLength_inFlight (c := c') (hwindow.after moves)
    have hmul := Nat.mul_le_mul_right run.chunk hlength
    have hcap := job.settings.mulCapped_effectiveChunk job.request.chunk job.request.workers p.kind
    rw [← hchunk, Offset.mulCapped, Nat.mul_comm] at hcap
    rw [hplan] at hall
    have hlast : Offset.last = Offset.limit - 1 := rfl
    -- a window that is too large for the product to be formed is larger than any object
    omega

/-- Two workers that have just claimed a byte of the sample each. -/
theorem inFlight_of_two : sample.size < Offset.limit ∧
    ∃ run, (((Archive.upTo 4 : Archive sample).transfer (.fresh [])).prepareRun
        (sampleJob .direct 1 1 2) (.direct ⟨[97]⟩ 0) sample.size).1 = .ok run ∧
      run.strategy.kind = .parallel ∧
      let c := run.strategy.crew none run.shared
      let c' := c.after run.strategy.rules [.advance 0, .advance 1]
      c'.inFlight = [⟨0, 0, Nat.le_refl 0⟩, ⟨1, 1, Nat.le_refl 1⟩] ∧
      (∃ held : Option ByteRange,
        c.claimed run.strategy.rules 1 [.advance 0, .advance 1] =
          c.completed run.strategy.rules 1 [.advance 0, .advance 1] ++ held.toList ∧
        ∀ a, c'.workers[1]? = some a → a.finished = false → a.range? = held) ∧
      totalLength c'.inFlight ≤ (sampleJob .direct 1 1 2).settings.windowCap := by
  obtain ⟨run, hopen, hkind, hflight⟩ : ∃ run,
      (((Archive.upTo 4 : Archive sample).transfer (.fresh [])).prepareRun
        (sampleJob .direct 1 1 2) (.direct ⟨[97]⟩ 0) sample.size).1 = .ok run ∧
      run.strategy.kind = .parallel ∧
      ((run.strategy.crew none run.shared).after run.strategy.rules
        [.advance 0, .advance 1]).inFlight = [⟨0, 0, Nat.le_refl 0⟩, ⟨1, 1, Nat.le_refl 1⟩] :=
    ⟨_, rfl, rfl, by decide +kernel⟩
  obtain ⟨hone, hwindow⟩ := inFlight_le_windowCap (by decide) hopen none [.advance 0, .advance 1]
  exact ⟨by decide, run, hopen, hkind, hflight, hone 1, hwindow⟩

end Transfer

end RangeTransfer
