import RangeTransfer.Proofs.Attempt.Cancelled
import RangeTransfer.Proofs.Attempt.Complete
import RangeTransfer.Proofs.Remote.Archive
import RangeTransfer.Proofs.Transfer.LifeCycle
import RangeTransfer.Proofs.Transfer.Setup
/-!
# Transfers that are asked to stop

A raised flag stops a download from starting anything: an attempt that finds it up fetches nothing,
the workers of a running attempt make no further request, and no attempt follows. What has been
fetched by then is stored and counts: the attempt succeeds exactly if the writes of the bodies that
were there or in hand make up all missing bytes, and can be made durable (`stops_download`). Where
they make them up, the bytes on disk are those that the remote has served (`agrees_of_covered`).
-/

namespace RangeTransfer

/-! ## Executing a strategy -/

namespace Strategy

variable {ρ σ : Type} [Remote ρ] [RangeSink σ] (strategy : Strategy) (moves : List Move)
  (granted : Option Nat) {x : Shared ρ σ}

theorem died_of_aborted {abort : Abort}
    (h : (strategy.execute moves granted x).1 = .error (.aborted abort)) :
    .died abort ∈ ((strategy.crew granted x).after strategy.rules
      (strategy.schedule moves granted x)).workers := by
  have hsettle : ∀ y : Shared ρ σ, (settle y).1 ≠ .error (.aborted abort) := fun y h => by
    unfold settle at h
    split at h
    split at h <;> cases h
  unfold schedule
  rw [← Crew.run_eq_after]
  cases strategy with
  | sequential policy =>
    simp only [execute] at h
    simp only [crew, rules]
    split at h
    · rename_i abort' hfirst
      cases h
      obtain ⟨a, ha, hdied⟩ := List.exists_of_findSome?_eq_some hfirst
      cases a <;> cases hdied
      exact ha
    · exact absurd h (hsettle _)
  | parallel workers policy spawn =>
    simp only [execute] at h
    split at h
    · cases h
    · exact absurd h (hsettle _)

theorem complete_iff {url : String} {resume total chunk : Nat}
    (htracker : x.tracker = .new url resume total chunk) (hle : resume ≤ total)
    (hfit : total < Offset.limit) :
    let executed := strategy.execute moves granted x
    let stored := Covered resume
      ((strategy.crew granted x).stored strategy.rules (strategy.schedule moves granted x)) total
    executed.2.tracker.isComplete = .ok (decide (executed.2.tracker.persisted = total)) ∧
      (executed.2.tracker.persisted = total ↔ stored) ∧
      (stored → ∀ abort, executed.1 ≠ .error (.aborted abort)) := by
  intro executed stored
  obtain ⟨session, n, hcrew, -⟩ := strategy.crew_eq granted x
  obtain ⟨-, e, ht⟩ := strategy.execute_spec moves granted x
  have hstart : (strategy.crew granted x).shared.tracker = .new url resume total chunk :=
    hcrew ▸ htracker
  have hnew : (strategy.crew granted x).Reckoned [] :=
    hcrew ▸ Crew.reckoned_new (x := { x with session }) htracker hle hfit n
  have hstocked : (strategy.crew granted x).Stocked [] := hcrew ▸ Crew.stocked_new _ n
  obtain ⟨hcomplete, hreached, hnot⟩ := hnew.complete_iff (strategy.solitary_crew granted x) hstocked
    (hstart ▸ hle) (hstart ▸ hfit) (strategy.finished_crew moves granted x)
  rw [hstart] at hcomplete hreached hnot
  have htracker' : executed.2.tracker = _ := ht
  rw [htracker']
  exact ⟨hcomplete, hreached, fun hcov abort haborted => hnot hcov abort
    (strategy.died_of_aborted moves granted haborted)⟩

end Strategy

namespace Transfer

variable {ρ : Type} [Remote ρ] {job : Job} {size : Nat} {x : Transfer ρ}

/-! ## One attempt -/

theorem attempt_of_cancelled {conditions : Conditions}
    (h : x.cancelled = true ∨ conditions.stopsEarly = true) :
    (attempt job conditions x).2.session.requests = x.session.requests ∧
      ∀ o, (attempt job conditions x).1 ≠ .ok o := by
  cases hsize : x.size? job with
  | none =>
    have hfound := logs_findSize x job
    obtain ⟨asked, shown, -, -, hlogs, hstopped⟩ :=
      logs_attemptUnsized ((x.enter .sizeUnknown).findSize job.request).2 job conditions
    obtain ⟨rfl, hnot⟩ := hstopped (h.imp_left hfound.cancelled)
    rw [attempt_of_unknown hsize]
    exact ⟨hlogs.requests.trans hfound.requests, hnot⟩
  | some size =>
    have hchosen := logs_choosePlace x job conditions size
    rw [attempt_of_size hsize]
    cases hchoose : x.choosePlace job conditions size with
    | mk chosen y =>
      rw [hchoose] at hchosen
      cases chosen with
      | error halt => exact ⟨hchosen.requests, nofun⟩
      | ok p =>
        have hup : y.cancelled = true := h.elim hchosen.cancelled fun hstops =>
          cancelled_choosePlace hstops hchoose
        simp only [hup, if_true]
        exact ⟨hchosen.requests, nofun⟩

namespace Opens

variable {conditions : Conditions} {p : Placement} {run : Run ρ}

/-- The watermark says whether the writes that the workers complete make up the missing bytes, and
then the attempt is not aborted. -/
theorem settles (hfit : size < Offset.limit) (h : x.Opens job conditions size p run)
    (hsize : x.size? job = some size) :
    let y := (run.strategy.execute conditions.moves conditions.granted run.shared).2
    let complete := Covered p.resume ((run.strategy.crew conditions.granted run.shared).stored
      run.strategy.rules
      (run.strategy.schedule conditions.moves conditions.granted run.shared)) size
    Settled run p size conditions.syncFault y (attempt job conditions x) ∧
      (y.tracker.persisted = size ↔ complete) ∧
      (complete → ∀ abort, (attempt job conditions x).1 ≠ .error (.aborted abort)) := by
  intro y complete
  rw [h.attempt_eq hsize]
  obtain ⟨_, -, -, -, hopen⟩ := h
  obtain ⟨hle, htracker, -⟩ := opened_of_prepareRun hopen
  obtain ⟨hcomplete, hreached, hnot⟩ := run.strategy.complete_iff conditions.moves
    conditions.granted htracker hle hfit
  refine ⟨settled run p size _ _ hcomplete, hreached, fun hcov abort => ?_⟩
  rw [settleRun_eq run p size hcomplete (hnot hcov), if_pos (hreached.mpr hcov)]
  split <;> nofun

theorem ok_iff (hfit : size < Offset.limit) (h : x.Opens job conditions size p run)
    (hsize : x.size? job = some size) : (∃ o, (attempt job conditions x).1 = .ok o) ↔
      Covered p.resume ((run.strategy.crew conditions.granted run.shared).stored run.strategy.rules
        (run.strategy.schedule conditions.moves conditions.granted run.shared)) size ∧
      ((run.strategy.execute conditions.moves conditions.granted run.shared).2.sink.tryFlush
        conditions.syncFault).1 = .ok () := by
  obtain ⟨hsettled, hreached, hnot⟩ := h.settles hfit hsize
  rw [← hreached] at hnot ⊢
  generalize attempt job conditions x = result at hsettled hnot ⊢
  cases hsettled with
  | aborted => exact iff_of_false nofun fun hboth => hnot hboth.1 _ rfl
  | stored full flushed => exact iff_of_true ⟨_, rfl⟩ ⟨full, flushed⟩
  | unflushed _ refused => exact iff_of_false nofun fun hboth => by cases refused.symm.trans hboth.2
  | trimmed short => exact iff_of_false nofun fun hboth => short hboth.1

theorem ne_cancelled (hfit : size < Offset.limit) (h : x.Opens job conditions size p run)
    (hsize : x.size? job = some size)
    (hcov : Covered p.resume ((run.strategy.crew conditions.granted run.shared).stored
      run.strategy.rules
      (run.strategy.schedule conditions.moves conditions.granted run.shared)) size) (n : Nat) :
    (attempt job conditions x).1 ≠ .error (.failed .cancelled n) := by
  obtain ⟨hsettled, hreached, -⟩ := h.settles hfit hsize
  intro hcancelled
  generalize attempt job conditions x = result at hsettled hcancelled
  cases hsettled with
  | aborted | stored => cases hcancelled
  | unflushed full refused =>
    obtain ⟨path, cause, rfl⟩ := Sink.error_of_tryFlush refused
    cases hcancelled
  | trimmed short => exact short (hreached.mpr hcov)

/-- If these writes make up the missing bytes, then these are on disk as the remote has served
them. -/
theorem agrees_of_covered {good : Nat → UInt8 → Prop} (hs : x.store.WellFormed)
    (hfit : size < Offset.limit) (hserves : Serves ρ job.request.url size good)
    (h : x.Opens job conditions size p run) (hsize : x.size? job = some size)
    (hcov : Covered p.resume ((run.strategy.crew conditions.granted run.shared).stored
      run.strategy.rules
      (run.strategy.schedule conditions.moves conditions.granted run.shared)) size) :
    Agrees good (p.byteAt (attempt job conditions x).2.store) p.resume size := by
  have hready := h.ready hs
  obtain ⟨hsettled, hreached, -⟩ := h.settles hfit hsize
  obtain ⟨_, -, -, -, hopen⟩ := h
  obtain ⟨hle, htracker, -⟩ := opened_of_prepareRun hopen
  have hexecuted := run.strategy.executed hserves conditions.moves conditions.granted hready.sound
    htracker hle hfit
  have hfull := hreached.mpr hcov
  rw [Placement.byteAt_alike (hsettled.alike hfull),
    Placement.byteAt_of (hready.of.samePlace hexecuted.follows.place) hexecuted.sound]
  intro o hlow ho
  rcases (hexecuted.covered size).mpr (Nat.le_of_eq hfull.symm) o ho with
    hresumed | ⟨r, hr, hfirst, hpast⟩
  · exact absurd hresumed (Nat.not_lt.mpr hlow)
  · exact hexecuted.recorded r hr o hfirst hpast

theorem total_after (h : x.Opens job conditions size p run) (granted : Option Nat)
    (moves : List Move) : ((run.strategy.crew granted run.shared).after run.strategy.rules
      moves).shared.tracker.total = size := by
  obtain ⟨y, -, -, -, hopen⟩ := h
  obtain ⟨session, n, hcrew, -⟩ := run.strategy.crew_eq granted run.shared
  rw [Crew.total_after, hcrew]
  exact congrArg Tracker.total (opened_of_prepareRun hopen).2.1

end Opens

/-! ## All attempts -/

variable {conditions : Nat → Conditions} {x₀ : Transfer ρ} {k : Nat}

theorem not_starts_of_cancelled (h : Starts job conditions x₀ k x)
    (hup : (attempt job (conditions k) x).2.cancelled = true ∨ (conditions k).stopsInWait = true)
    (x' : Transfer ρ) : ¬ Starts job conditions x₀ (k + 1) x' := by
  intro h'
  cases h' with
  | first => exact absurd h.download_eq.1 (Nat.lt_irrefl 0)
  | @next _ n _ y e delay before failed waits calm =>
    obtain rfl := h.unique before
    rw [failed] at hup
    have hpause := Session.logs_pause y delay (conditions k).stopsInWait
    rcases hup with hup | hstops
    · exact nomatch (hpause.cancelled hup).symm.trans calm
    · rw [hstops] at calm
      cases calm

omit [Remote ρ] in
theorem error_of_settleRun {run : Run ρ} {p : Placement} {fault : Option StorageError}
    {e e' : TransferError} {n : Nat} {y : Shared ρ Sink} {z : Transfer ρ}
    (h : settleRun run p size fault (.error (.failed e)) y = (.error (.failed e' n), z)) :
    e' = e ∨ e'.retryable = false := by
  unfold settleRun at h
  simp only at h
  split at h
  · cases h
  · cases h
  · split at h
    · rename_i hflush
      cases h
      exact Or.inr (Sink.final_tryFlush (congrArg Prod.fst hflush) _ rfl)
    · cases h
  · split at h
    · cases h
    · rename_i hshort
      cases hshort
      split at h <;> cases h
      exact Or.inl rfl

theorem not_starts_of_opens {p : Placement} {run : Run ρ} (hstart : Starts job conditions x₀ k x)
    (hsize : x.size? job = some size) (hopens : x.Opens job (conditions k) size p run)
    (hup : ((run.strategy.crew (conditions k).granted run.shared).after run.strategy.rules
      (run.strategy.schedule (conditions k).moves (conditions k).granted
        run.shared)).shared.session.cancelled = true)
    (x' : Transfer ρ) : ¬ Starts job conditions x₀ (k + 1) x' := by
  intro hnext
  have hresult := hopens.attempt_eq hsize
  rcases run.strategy.session_execute (conditions k).moves (conditions k).granted run.shared with
    hend | ⟨-, hnone⟩
  · refine not_starts_of_cancelled hstart (Or.inl ?_) x' hnext
    show (attempt job (conditions k) x).2.session.cancelled = true
    rw [hresult, session_settleRun, hend]
    exact hup
  · -- without threads nothing has moved, and the transfer is not tried again
    obtain ⟨e, n, y, hfailed, hretry⟩ : ∃ e n y,
        attempt job (conditions k) x = (.error (.failed e n), y) ∧ e.retryable = true := by
      cases hnext with
      | first => exact absurd hstart.download_eq.1 (Nat.lt_irrefl 0)
      | next before failed waits calm =>
        obtain rfl := hstart.unique before
        exact ⟨_, _, _, failed, (hstart.retryable (.next before failed waits calm) failed).1⟩
    rw [hresult, hnone] at hfailed
    rcases error_of_settleRun hfailed with rfl | hfinal
    · cases hretry
    · cases hfinal.symm.trans hretry

theorem probes_of_not_opens {conditions : Conditions} (hsize : x.size? job = some size)
    (h : ∀ p run, ¬ x.Opens job conditions size p run) : ∃ probes, Probes probes ∧
      (attempt job conditions x).2.session.requests = probes ++ x.session.requests := by
  obtain ⟨asked, shown, hcourse, hlogs⟩ := logs_attempt job conditions x
  refine ⟨asked, ?_, hlogs.requests⟩
  cases hcourse with
  | unsized unknown _ _ _ => exact nomatch unknown.symm.trans hsize
  | early _ _ _ => exact probes_nil
  | closed _ _ _ probed => exact probed
  | opened found opens _ =>
    obtain rfl := Option.some.inj (found.symm.trans hsize)
    exact absurd opens (h _ _)

/-- A raised flag stops a download: no request follows, no attempt, and no write but of what the
workers have in hand. An attempt that has opened its sink succeeds exactly if the completed writes
make up the missing bytes, which are on disk then, and the flush succeeds. -/
theorem stops_download (job : Job) (conditions : Nat → Conditions) (x₀ : Transfer ρ)
    (hfit : size < Offset.limit) :
    (∀ k x, Starts job conditions x₀ k x → x.cancelled = true ∨ (conditions k).stopsEarly = true →
      (attempt job (conditions k) x).2.session.requests = x.session.requests ∧
        ∀ o, (attempt job (conditions k) x).1 ≠ .ok o) ∧
    (∀ k x, Starts job conditions x₀ k x →
      (attempt job (conditions k) x).2.cancelled = true ∨ (conditions k).stopsInWait = true →
      ∀ x', ¬ Starts job conditions x₀ (k + 1) x') ∧
    (∀ k x, Starts job conditions x₀ k x → x.size? job = some size →
      (∀ p run, ¬ x.Opens job (conditions k) size p run) → ∃ probes, Probes probes ∧
        (attempt job (conditions k) x).2.session.requests = probes ++ x.session.requests) ∧
    ∀ k x p run before after, Starts job conditions x₀ k x → x.size? job = some size →
      x.Opens job (conditions k) size p run →
      run.strategy.schedule (conditions k).moves (conditions k).granted run.shared =
        before ++ after →
      let rules := run.strategy.rules
      let c := run.strategy.crew (conditions k).granted run.shared
      let c' := c.after rules before
      let stored := Covered p.resume (c'.stored rules after ++ c.stored rules before) size
      let flushed := (((c'.after rules after).shared.sink.tryFlush (conditions k).syncFault).1 = .ok ())
      let result := attempt job (conditions k) x
      c'.shared.session.cancelled = true →
      c'.asked rules after = [] ∧ result.2.session.requests = c'.shared.session.requests ∧
      (c'.after rules after).finished = true ∧
      (∀ r ∈ c'.stored rules after, ∃ (w : Nat) (q : ByteRange) (body : Accepted),
        c'.workers[w]? = some (.holding q body) ∧ ((∃ data, body = .part data) ∧ r = q ∨
          (∃ data, body = .whole data) ∧ r.first = 0 ∧ r.pastEnd = size)) ∧
      ((∃ o, result.1 = .ok o) ↔ stored ∧ flushed) ∧
      (∀ n, result.1 = .error (.failed .cancelled n) → ¬ stored) ∧
      (x.store.WellFormed → stored → ∀ good, Serves ρ job.request.url size good →
        Agrees good (p.byteAt result.2.store) p.resume size) ∧
      ∀ x', ¬ Starts job conditions x₀ (k + 1) x' := by
  refine ⟨fun k x _ => attempt_of_cancelled, fun k x hstart => not_starts_of_cancelled hstart,
    fun k x _ => probes_of_not_opens, ?_⟩
  intro k x p run before after hstart hsize hopens hschedule rules c c' stored flushed result hup
  have hsession : result.2.session = (run.strategy.execute (conditions k).moves
      (conditions k).granted run.shared).2.session :=
    (congrArg (·.2.session) (hopens.attempt_eq hsize)).trans (session_settleRun _ _ _ _ _ _)
  have hasked : c'.asked rules after = [] := Crew.asked_of_cancelled hup after
  have hlast : c.after rules (before ++ after) = c'.after rules after := Crew.after_append c _ _
  have hstored : stored ↔ Covered p.resume
      (c.stored rules (run.strategy.schedule (conditions k).moves (conditions k).granted run.shared))
      size := by
    rw [hschedule, Crew.stored_append]
  have hsink : (run.strategy.execute (conditions k).moves (conditions k).granted run.shared).2.sink =
      (c'.after rules after).shared.sink := by
    rw [← hlast, ← hschedule]
    exact (run.strategy.execute_spec _ _ _).1
  refine ⟨hasked, ?_, ?_, fun r hr => ?_, ?_, fun n hcancelled hcov => ?_,
    fun hs hcov good hserves => ?_, not_starts_of_opens hstart hsize hopens ?_⟩
  · have hrun := run.strategy.logs_execute (conditions k).moves (conditions k).granted run.shared
    have hcrew := run.strategy.logs_crew (conditions k).granted run.shared
    rw [hsession, hrun.requests, hschedule, Crew.asked_append, hasked,
      (Crew.logs_after rules c before).requests, hcrew.requests]
    rfl
  · rw [← hlast, ← hschedule]
    exact run.strategy.finished_crew _ _ _
  · rw [← hopens.total_after (conditions k).granted before]
    exact Crew.stored_of_cancelled hup hr
  · have hok := hopens.ok_iff hfit hsize
    rw [hsink] at hok
    exact hok.trans (and_congr_left fun _ => hstored.symm)
  · exact hopens.ne_cancelled hfit hsize (hstored.mp hcov) n hcancelled
  · exact hopens.agrees_of_covered hs hfit hserves hsize (hstored.mp hcov)
  · rw [hschedule, hlast]
    exact (Crew.logs_after rules c' after).cancelled hup

/-- A transfer of the whole sample by one worker, two bytes at a time. -/
abbrev halved : Transfer (Archive sample) := (Archive.upTo sample.size).transfer (.fresh [])

/-- The flag is raised when the worker has the first two bytes in hand. -/
abbrev raised : Conditions :=
  { Conditions.calm with moves := [.advance 0, .advance 0, .advance 0, .cancel] }

/-- The two bytes are stored, and the other two are not asked for. -/
theorem stops_download_halved : ∃ p run after,
    halved.Opens (sampleJob .direct 1 2 1) raised sample.size p run ∧
    let rules := run.strategy.rules
    let c := run.strategy.crew raised.granted run.shared
    let c' := c.after rules raised.moves
    run.strategy.schedule raised.moves raised.granted run.shared = raised.moves ++ after ∧
    c'.shared.session.cancelled = true ∧ c'.asked rules after = [] ∧
    (attempt (sampleJob .direct 1 2 1) raised halved).1 = .error (.failed .cancelled 2) ∧
    ¬ Covered p.resume (c'.stored rules after ++ c.stored rules raised.moves) sample.size := by
  obtain ⟨run, hopens⟩ : ∃ run, halved.Opens (sampleJob .direct 1 2 1) raised sample.size
      (.direct ⟨[97]⟩ 0) run := ⟨_, _, rfl, rfl, by decide, rfl⟩
  have hresult : (attempt (sampleJob .direct 1 2 1) raised halved).1 =
      .error (.failed .cancelled 2) := by decide +kernel
  obtain ⟨-, -, -, hrunning⟩ := stops_download (sampleJob .direct 1 2 1) (fun _ => raised) halved
    (show sample.size < Offset.limit by decide)
  obtain ⟨hasked, -, -, -, -, hmissing, -⟩ := hrunning 1 halved _ run raised.moves _ .first rfl
    hopens rfl rfl
  exact ⟨_, run, _, hopens, rfl, rfl, hasked, hresult, hmissing 2 hresult⟩

end Transfer

end RangeTransfer
