import RangeTransfer.Proofs.Attempt.Journal
import RangeTransfer.Proofs.Transfer.Attempts
/-!
# What an attempt enters into the journal

An attempt first finds out the size (`Transfer.size?`), on which its course depends
(`attempt_of_size`, `attempt_of_unknown`). The lemmas here follow it step by step and say with
`Session.Logs` which requests it makes and which phases it shows: `logs_choosePlace`,
`logs_prepareRun` and `logs_runRanged` for an object of known size, `logs_attemptUnsized` for
another one. Together they give the four courses that an attempt can take (`logs_attempt`).
-/

namespace RangeTransfer

/-! ## Executing a strategy -/

namespace Crew

variable {ρ σ : Type} [Remote ρ] [RangeSink σ]

theorem asked_of_empty (rules : WorkerRules) {c : Crew ρ σ} (h : c.workers = []) (moves : List Move) :
    c.asked rules moves = [] := by
  induction moves generalizing c with
  | nil => rfl
  | cons m moves ih =>
    have hnone : c.asks m = none := by
      cases hasks : c.asks m with
      | none => rfl
      | some r =>
        obtain ⟨-, w, attempt, -, hw⟩ := asks_eq_some hasks
        rw [h] at hw
        cases hw
    have hempty : (c.apply rules m).workers = [] := by
      rw [← List.length_eq_zero_iff, length_workers_apply, h, List.length_nil]
    rw [asked, ih hempty, hnone]
    rfl

end Crew

namespace Strategy

variable {ρ σ : Type} [Remote ρ] [RangeSink σ] (strategy : Strategy) (moves : List Move)
  (granted : Option Nat) (x : Shared ρ σ)

theorem session_execute :
    (strategy.execute moves granted x).2.session = ((strategy.crew granted x).after strategy.rules
        (strategy.schedule moves granted x)).shared.session ∨
      (strategy.crew granted x).workers = [] ∧ strategy.execute moves granted x =
        (.error (.failed (.configuration .noWorkers)), (strategy.crew granted x).shared) := by
  unfold schedule
  rw [← Crew.run_eq_after]
  cases strategy with
  | sequential policy =>
    left
    simp only [execute, crew, rules]
    split <;> rfl
  | parallel workers policy spawn =>
    simp only [execute, crew, rules]
    cases hstart : spawn.startThreads ((x.session.connectMore (workers - 1)).1 + 1) granted with
    | ok n => exact Or.inl rfl
    | error e =>
      right
      obtain rfl : e = .configuration .noWorkers := by
        simp only [SpawnSettings.startThreads] at hstart
        split at hstart <;> cases hstart
        rfl
      exact ⟨rfl, rfl⟩

omit [RangeSink σ] in
theorem logs_crew : x.session.Logs (strategy.crew granted x).shared.session [] [] := by
  obtain ⟨n, hsession⟩ := strategy.session_crew granted x
  rw [hsession]
  exact x.session.logs_connectMore n

theorem logs_execute : x.session.Logs (strategy.execute moves granted x).2.session
    (((strategy.crew granted x).asked strategy.rules
      (strategy.schedule moves granted x)).map some) [] := by
  have hcrew := strategy.logs_crew granted x
  rcases strategy.session_execute moves granted x with hsession | ⟨hempty, hexecute⟩
  · have hrun := hcrew.trans (Crew.logs_after strategy.rules (strategy.crew granted x)
      (strategy.schedule moves granted x))
    rw [List.append_nil] at hrun
    rw [hsession]
    exact hrun
  · rw [hexecute, Crew.asked_of_empty _ hempty]
    exact hcrew

end Strategy

namespace Transfer

variable {ρ : Type} [Remote ρ] {job : Job} {conditions : Conditions} {size : Nat} {p : Placement}

/-! ## The size -/

/-- The size that an attempt which starts from `x` finds. -/
def size? (x : Transfer ρ) (job : Job) : Option Nat := ((x.enter .sizeUnknown).findSize job.request).1

theorem logs_findSize (x : Transfer ρ) (job : Job) : x.session.Logs
    ((x.enter .sizeUnknown).findSize job.request).2.session [] [.phase .sizeUnknown] := by
  have henter := x.session.logs_enter .sizeUnknown
  unfold findSize
  split
  · exact henter
  · exact ⟨rfl, rfl, rfl, id⟩

theorem attempt_of_size {x : Transfer ρ} (hsize : x.size? job = some size)
    (conditions : Conditions) : attempt job conditions x =
      match x.choosePlace job conditions size with
      | (.error halt, y) => (.error (halt.leaving 0), y)
      | (.ok p, y) =>
        if y.cancelled then (.error (.failed .cancelled p.resume), y)
        else if size ≤ p.resume then
          (.ok (p.outcome .alreadyComplete size 0 0), { y with session := y.session.advanceTo size })
        else y.runRanged job conditions p size := by
  unfold size? at hsize
  simp only [attempt, choosePlace]
  cases hfound : (x.enter .sizeUnknown).findSize job.request with
  | mk found y =>
    rw [hfound] at hsize
    cases hsize
    simp only [attemptSized]
    generalize Store.place _ _ _ _ _ = place
    obtain ⟨halt | p, s⟩ := place <;> rfl

theorem attempt_of_chosen {x y : Transfer ρ} (hsize : x.size? job = some size)
    (hchoose : x.choosePlace job conditions size = (.ok p, y)) (hcalm : y.cancelled = false)
    (hlt : p.resume < size) : attempt job conditions x = y.runRanged job conditions p size := by
  rw [attempt_of_size hsize, hchoose]
  simp only [hcalm, Bool.false_eq_true, if_false, if_neg (Nat.not_le.mpr hlt)]

theorem Opens.attempt_eq {x : Transfer ρ} {run : Run ρ} (h : x.Opens job conditions size p run)
    (hsize : x.size? job = some size) : attempt job conditions x =
      settleRun run p size conditions.syncFault
        (run.strategy.execute conditions.moves conditions.granted run.shared).1
        (run.strategy.execute conditions.moves conditions.granted run.shared).2 := by
  obtain ⟨y, hchoose, hcalm, hlt, hopen⟩ := h
  rw [attempt_of_chosen hsize hchoose hcalm hlt]
  exact runRanged_eq hopen conditions

theorem attempt_of_unknown {x : Transfer ρ} (hsize : x.size? job = none) (conditions : Conditions) :
    attempt job conditions x =
      ((x.enter .sizeUnknown).findSize job.request).2.attemptUnsized job conditions := by
  unfold size? at hsize
  simp only [attempt]
  cases hfound : (x.enter .sizeUnknown).findSize job.request with
  | mk found y =>
    rw [hfound] at hsize
    cases hsize
    rfl

/-! ## An attempt at an object of known size -/

theorem logs_choosePlace (x : Transfer ρ) (job : Job) (conditions : Conditions) (size : Nat) :
    x.session.Logs (x.choosePlace job conditions size).2.session []
      (match (x.choosePlace job conditions size).1 with
        | .error _ => [.phase .sizeResolved, .phase .sizeUnknown]
        | .ok _ => [.phase .layoutChosen, .phase .sizeResolved, .phase .sizeUnknown]) := by
  have hfound := logs_findSize x job
  unfold choosePlace
  simp only
  generalize ((x.enter .sizeUnknown).findSize job.request).2 = y at hfound ⊢
  have hsized : x.session.Logs ((y.session.setTotal size).enter .sizeResolved) []
      [.phase .sizeResolved, .phase .sizeUnknown] := by
    have htotal : y.session.Logs (y.session.setTotal size) [] [] :=
      Session.logs_of_journal rfl rfl id
    exact (hfound.trans htotal).trans (Session.logs_enter _ _)
  split
  · exact hsized
  · exact (hsized.trans (Session.logs_enter _ _)).trans (Session.logs_cancelIf _ _)

theorem cancelled_choosePlace {x y : Transfer ρ} (hstops : conditions.stopsEarly = true)
    (h : x.choosePlace job conditions size = (.ok p, y)) : y.cancelled = true := by
  unfold choosePlace at h
  simp only at h
  split at h
  · cases h
  · cases h
    rw [hstops]
    rfl

/-- The requests of an attempt before it opens its sink: the probe, or none. -/
structure Probes (asked : List (Option ByteRange)) : Prop where
  length_le : asked.length ≤ 1
  isProbe : ∀ range ∈ asked, IsProbe range

theorem probes_nil : Probes [] := ⟨Nat.zero_le _, nofun⟩

theorem logs_findStrategy (x : Transfer ρ) (job : Job) (workers remaining chunk : Nat) :
    ∃ probes, Probes probes ∧
      x.session.Logs (x.findStrategy job workers remaining chunk).2.session probes [] := by
  unfold findStrategy
  split
  · have hprobe : x.session.Logs (x.session.probe job.request.url).2
        [some ⟨0, 0, Nat.le_refl 0⟩] [] := by
      have hask := x.session.logs_ask ⟨0, job.request.url, some ⟨0, 0, Nat.le_refl 0⟩⟩
      unfold Session.probe
      simp only
      split <;> (rename_i heq; rw [heq] at hask; exact hask)
    refine ⟨[some ⟨0, 0, Nat.le_refl 0⟩], ⟨Nat.le_refl 1, fun range hrange => ?_⟩, ?_⟩
    · rw [List.mem_singleton.mp hrange]
      exact ⟨_, rfl, rfl, rfl⟩
    · split <;> (rename_i heq; rw [heq] at hprobe; exact hprobe)
  · exact ⟨[], probes_nil, .refl _⟩

/-- The phase in which ranges are fetched from the offset `resume` on. -/
def fetching (resume : Nat) : Phase := if 0 < resume then .resuming else .downloading

theorem logs_prepareRun (x : Transfer ρ) (job : Job) (p : Placement) (size : Nat) :
    ∃ probes, Probes probes ∧
      x.session.Logs (x.prepareRun job p size).2.session probes [.phase (fetching p.resume)] ∧
      ∀ run, (x.prepareRun job p size).1 = .ok run →
        run.shared.session = (x.prepareRun job p size).2.session := by
  suffices h : ∃ probes, Probes probes ∧
      x.session.Logs (x.prepareRun job p size).2.session probes [.phase (fetching p.resume)] by
    obtain ⟨probes, hprobes, hlogs⟩ := h
    exact ⟨probes, hprobes, hlogs, (x.asked_prepareRun job p size).2⟩
  have hconnect : x.session.Logs (((x.session.advanceTo p.resume).enter (fetching p.resume)).connect).2
      [] [.phase (fetching p.resume)] := by
    have hadvance : x.session.Logs (x.session.advanceTo p.resume) [] [] :=
      Session.logs_of_journal rfl rfl id
    exact (hadvance.trans (Session.logs_enter _ _)).trans (Session.logs_connect _)
  unfold prepareRun
  simp only [enter]
  rw [fetching] at hconnect ⊢
  split
  · rename_i heq
    rw [heq] at hconnect
    exact ⟨[], probes_nil, hconnect⟩
  · rename_i session heq
    rw [heq] at hconnect
    split
    · exact ⟨[], probes_nil, hconnect⟩
    · rename_i remaining _
      obtain ⟨probes, hprobes, hfind⟩ := logs_findStrategy ⟨session, x.store⟩ job
        (TransferSettings.clampWorkers job.request.workers p.kind) remaining
        (job.settings.effectiveChunk job.request.chunk
          (TransferSettings.clampWorkers job.request.workers p.kind))
      have hfound := hconnect.trans hfind
      rw [List.append_nil, List.nil_append] at hfound
      refine ⟨probes, hprobes, ?_⟩
      split
      · rename_i hstrategy
        rw [hstrategy] at hfound
        exact hfound
      · rename_i kind y hstrategy
        rw [hstrategy] at hfound
        rw [(y.session_openRun job p size _ _ kind).1]
        exact hfound

theorem logs_runRanged (x : Transfer ρ) (job : Job) (conditions : Conditions) (p : Placement)
    (size : Nat) :
    (∀ run, (x.prepareRun job p size).1 = .ok run →
      run.shared.session.Logs (x.runRanged job conditions p size).2.session
        (((run.strategy.crew conditions.granted run.shared).asked run.strategy.rules
          (run.strategy.schedule conditions.moves conditions.granted run.shared)).map some) []) ∧
    ((∀ run, (x.prepareRun job p size).1 ≠ .ok run) →
      (x.runRanged job conditions p size).2.session = (x.prepareRun job p size).2.session) := by
  unfold runRanged
  cases x.prepareRun job p size with
  | mk prepared y =>
    cases prepared with
    | error halt => exact ⟨fun run h => (by cases h), fun _ => rfl⟩
    | ok run =>
      refine ⟨fun run' h => ?_, fun hno => absurd rfl (hno run)⟩
      cases h
      simp only [session_settleRun]
      exact run.strategy.logs_execute _ _ _

/-! ## An attempt at an object of unknown size -/

theorem logs_fetchTo (x : Transfer ρ) (url : String) (path : Path) (fault : Option StorageError) :
    ∃ asked, asked.length ≤ 1 ∧ x.session.Logs (x.fetchTo url path fault).2.session asked [] := by
  have hconnect := x.session.logs_connect
  unfold fetchTo
  split
  · rename_i heq
    rw [heq] at hconnect
    exact ⟨[], Nat.zero_le _, hconnect⟩
  · rename_i session heq
    rw [heq] at hconnect
    have hfetch : session.Logs (session.fetchWhole url).2 [none] [] := by
      have hask := session.logs_ask ⟨0, url, none⟩
      unfold Session.fetchWhole
      split
      · rename_i hanswer
        rw [hanswer] at hask
        split <;> exact hask
      all_goals
        rename_i hanswer
        rw [hanswer] at hask
        exact hask
    have hfetched := hconnect.trans hfetch
    refine ⟨[none], Nat.le_refl 1, ?_⟩
    split
    · rename_i hanswer
      rw [hanswer] at hfetched
      exact hfetched
    · rename_i hanswer
      rw [hanswer] at hfetched
      split
      · exact hfetched
      · exact ⟨hfetched.requests, hfetched.milestones, hfetched.phase, hfetched.cancelled⟩

theorem logs_attemptUnsized (x : Transfer ρ) (job : Job) (conditions : Conditions) :
    ∃ asked shown, asked.length ≤ 1 ∧ (shown = [] ∨ shown = [.phase .downloading]) ∧
      x.session.Logs (x.attemptUnsized job conditions).2.session asked shown ∧
      (x.session.cancelled = true ∨ conditions.stopsEarly = true → asked = [] ∧
        ∀ outcome, (x.attemptUnsized job conditions).1 ≠ .ok outcome) := by
  have hstops := x.session.logs_cancelIf conditions.stopsEarly
  unfold attemptUnsized
  simp only
  split
  · exact ⟨[], [], Nat.zero_le _, Or.inl rfl, .refl _, fun _ => ⟨rfl, nofun⟩⟩
  · split
    · exact ⟨[], [], Nat.zero_le _, Or.inl rfl, hstops, fun _ => ⟨rfl, nofun⟩⟩
    · rename_i hcalm
      -- an attempt that gets here finds the flag down
      have hdown : ¬ (x.session.cancelled = true ∨ conditions.stopsEarly = true) := by
        rintro (hcancelled | hearly)
        · exact hcalm (hstops.cancelled hcancelled)
        · refine hcalm ?_
          rw [hearly]
          rfl
      split
      · exact ⟨[], [], Nat.zero_le _, Or.inl rfl, hstops, fun h => absurd h hdown⟩
      · obtain ⟨asked, hasked, hlogs⟩ := logs_fetchTo (({
            session := x.session.cancelIf conditions.stopsEarly, store := ‹Store› } :
            Transfer ρ).enter .downloading) job.request.url ‹Placement›.path
          conditions.syncFault
        refine ⟨asked, [.phase .downloading], hasked, Or.inr rfl, ?_, fun h => absurd h hdown⟩
        have hall := (hstops.trans (Session.logs_enter _ .downloading)).trans hlogs
        rw [List.append_nil, List.append_nil] at hall
        exact hall

/-! ## The courses of an attempt -/

/-- The requests that an attempt from `x` makes, the latest first, and the phases that it shows. -/
inductive Course (x : Transfer ρ) (job : Job) (conditions : Conditions) :
    List (Option ByteRange) → List Phase → Prop
  /-- No size was found. -/
  | unsized {asked : List (Option ByteRange)} {shown : List Phase} (unknown : x.size? job = none)
      (length_le : asked.length ≤ 1) (ne_nil : shown ≠ [])
      (le : shown <+: [.sizeUnknown, .downloading]) : x.Course job conditions asked shown
  /-- There was no place, the flag was up, or all bytes were there. -/
  | early {size : Nat} {shown : List Phase} (found : x.size? job = some size) (ne_nil : shown ≠ [])
      (le : shown <+: [.sizeUnknown, .sizeResolved, .layoutChosen]) : x.Course job conditions [] shown
  /-- The sink was not opened. -/
  | closed {size : Nat} {p : Placement} {y : Transfer ρ} {probes : List (Option ByteRange)}
      (found : x.size? job = some size) (chosen : x.choosePlace job conditions size = (.ok p, y))
      (closed : ∀ run, ¬ x.Opens job conditions size p run) (probed : Probes probes) :
      x.Course job conditions probes [.sizeUnknown, .sizeResolved, .layoutChosen, fetching p.resume]
  | opened {size : Nat} {p : Placement} {run : Run ρ} {probes : List (Option ByteRange)}
      (found : x.size? job = some size) (opens : x.Opens job conditions size p run)
      (probed : Probes probes) : x.Course job conditions
        (((run.strategy.crew conditions.granted run.shared).asked run.strategy.rules
          (run.strategy.schedule conditions.moves conditions.granted run.shared)).map some ++ probes)
        [.sizeUnknown, .sizeResolved, .layoutChosen, fetching p.resume]

/-- Every attempt takes one of the courses. -/
theorem logs_attempt (job : Job) (conditions : Conditions) (x : Transfer ρ) : ∃ asked shown,
    x.Course job conditions asked shown ∧ x.session.Logs (attempt job conditions x).2.session asked
      (shown.reverse.map .phase) := by
  cases hsize : x.size? job with
  | none =>
    obtain ⟨asked, shown, hasked, hshown, hlogs, -⟩ :=
      logs_attemptUnsized ((x.enter .sizeUnknown).findSize job.request).2 job conditions
    have hall := (logs_findSize x job).trans hlogs
    rw [List.append_nil] at hall
    rw [attempt_of_unknown hsize]
    rcases hshown with rfl | rfl
    · exact ⟨asked, [.sizeUnknown], .unsized hsize hasked (by simp) ⟨[.downloading], rfl⟩, hall⟩
    · exact ⟨asked, [.sizeUnknown, .downloading], .unsized hsize hasked (by simp)
        (List.prefix_refl _), hall⟩
  | some size =>
    have hchosen := logs_choosePlace x job conditions size
    rw [attempt_of_size hsize]
    cases hchoose : x.choosePlace job conditions size with
    | mk chosen y =>
      rw [hchoose] at hchosen
      cases chosen with
      | error halt =>
        exact ⟨[], [.sizeUnknown, .sizeResolved],
          .early hsize (by simp) ⟨[.layoutChosen], rfl⟩, hchosen⟩
      | ok p =>
        have hshort : x.Course job conditions [] [.sizeUnknown, .sizeResolved, .layoutChosen] :=
          .early hsize (by simp) (List.prefix_refl _)
        simp only
        split
        · exact ⟨[], _, hshort, hchosen⟩
        · rename_i hcalm
          split
          · exact ⟨[], _, hshort, hchosen.requests, hchosen.milestones, hchosen.phase,
              hchosen.cancelled⟩
          · rename_i hlt
            obtain ⟨probes, hprobes, hprepare, hsession⟩ := y.logs_prepareRun job p size
            obtain ⟨hrun, hclosed⟩ := y.logs_runRanged job conditions p size
            have hprepared := hchosen.trans hprepare
            rw [List.append_nil] at hprepared
            cases hready : (y.prepareRun job p size).1 with
            | error halt =>
              rw [hclosed fun run h => nomatch hready.symm.trans h]
              refine ⟨probes, _, .closed hsize hchoose (fun run ⟨y', hy', _, _, hopen⟩ => ?_) hprobes,
                hprepared⟩
              rw [hchoose] at hy'
              cases hy'
              exact nomatch hready.symm.trans hopen
            | ok run =>
              have hstart := hrun run hready
              rw [hsession run hready] at hstart
              exact ⟨_, _, .opened hsize
                ⟨y, hchoose, Bool.eq_false_iff.mpr hcalm, Nat.not_le.mp hlt, hready⟩ hprobes,
                hprepared.trans hstart⟩

end Transfer

end RangeTransfer
