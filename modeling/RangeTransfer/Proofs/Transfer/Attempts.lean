import RangeTransfer.Proofs.Attempt.Requests
import RangeTransfer.Proofs.Transfer.Exact
/-!
# The attempts of a transfer

An attempt chooses a place, opens a sink there and fetches ranges (`attempt_eq`). Another one
follows only an error of the remote: then the sink was opened and trimmed, or it was not opened and
nothing has changed since the place was chosen (`attempt_failed`). `Starts` names the states from
which the attempts of one download start.
-/

namespace RangeTransfer
open Store

/-! ## Failures of the storage -/

/-- No attempt follows this halt. -/
def Halt.Final (halt : Halt) : Prop := ∀ e, halt = .failed e → e.retryable = false

theorem Halt.final_storage (path : Path) (cause : StorageError) :
    (Halt.failed (.storage path cause)).Final := fun _ h => by cases h; rfl

theorem Halt.final_aborted (abort : Abort) : (Halt.aborted abort).Final := nofun

theorem Store.final_usableParent {s : Store} {fallback : Option Path} {p : Path} {e : TransferError}
    (h : (s.usableParent fallback p).1 = .error e) : e.retryable = false := by
  unfold usableParent at h
  split at h
  · cases h
  · split at h
    · cases h
    · cases h
      rfl
    · split at h <;> cases h
      rfl

namespace SplitLayout

variable {l : SplitLayout} {s : Store} {halt : Halt}

theorem final_removeFrom (bound : Nat) {index : Nat}
    (h : (l.removeFrom bound index s).1 = .error halt) : halt.Final := by
  induction bound generalizing index s with
  | zero => cases h
  | succ bound ih =>
    rw [removeFrom] at h
    split at h
    · cases h
    · cases h
      exact Halt.final_storage _ _
    · split at h
      · cases h
        exact Halt.final_aborted _
      · exact ih h

theorem final_removeAfter {index : Nat} (h : (l.removeAfter s index).1 = .error halt) :
    halt.Final := by
  unfold removeAfter at h
  split at h
  · cases h
    exact Halt.final_aborted _
  · exact final_removeFrom _ h

theorem final_discardFrom {offset : Nat} (h : (l.discardFrom s offset).1 = .error halt) :
    halt.Final := by
  unfold discardFrom at h
  simp only at h
  split at h
  · exact final_removeAfter h
  · cases h
    exact Halt.final_storage _ _
  · split at h
    · cases h
      exact Halt.final_storage _ _
    · exact final_removeAfter h

theorem final_claimDirectory {e : TransferError} (h : (l.claimDirectory s).1 = .error e) :
    (Halt.failed e).Final := by
  rcases l.claimDirectory_cases s with ⟨cause, heq⟩ | ⟨s₁, -, heq⟩
  · rw [heq] at h
    cases h
    exact Halt.final_storage _ _
  · rw [heq] at h
    revert h
    cases (s₁.createDirectories l.directory).1 <;> intro h <;> cases h
    exact Halt.final_storage _ _

end SplitLayout

theorem DirectSink.final_openAt {s : Store} {path : Path} {resume : Nat} {presize : Option Nat}
    {e : TransferError} (h : (openAt s path resume presize).1 = .error e) : (Halt.failed e).Final := by
  unfold openAt at h
  simp only at h
  split at h
  · cases h
    exact Halt.final_storage _ _
  · split at h
    · cases h
      exact Halt.final_storage _ _
    · unfold prepare at h
      split at h
      · cases h
        exact Halt.final_storage _ _
      · split at h
        · cases h
        · split at h
          · cases h
            exact Halt.final_storage _ _
          · cases h

theorem Sink.error_of_tryFlush {k : Sink} {fault : Option StorageError} {e : TransferError}
    (h : (k.tryFlush fault).1 = .error e) : ∃ path cause, e = .storage path cause := by
  obtain ⟨output, s⟩ := k
  cases fault with
  | none => exact nomatch (congrArg Prod.fst (Sink.tryFlush_of_no_fault _)).symm.trans h
  | some cause =>
    cases output with
    | direct d =>
      cases h
      exact ⟨_, _, rfl⟩
    | split q =>
      obtain ⟨layout, current⟩ := q
      cases current <;> cases h
      exact ⟨_, _, rfl⟩

theorem Sink.final_tryFlush {k : Sink} {fault : Option StorageError} {e : TransferError}
    (h : (k.tryFlush fault).1 = .error e) : (Halt.failed e).Final := by
  obtain ⟨path, cause, rfl⟩ := Sink.error_of_tryFlush h
  exact Halt.final_storage path cause

theorem Placement.final_openSink {p : Placement} {s : Store} {kind : StrategyKind} {size : Nat}
    {halt : Halt} (h : (p.openSink s kind size).1 = .error halt) : halt.Final := by
  cases p with
  | direct path resume =>
    simp only [openSink] at h
    split at h
    · rename_i heq
      cases h
      exact DirectSink.final_openAt (congrArg Prod.fst heq)
    · cases h
  | split l resume =>
    simp only [openSink, SplitSink.openAt] at h
    split at h
    · rename_i heq
      cases h
      split at heq
      · rename_i hclaim
        cases heq
        exact SplitLayout.final_claimDirectory (congrArg Prod.fst hclaim)
      · split at heq
        · rename_i hdiscard
          cases heq
          exact SplitLayout.final_discardFrom (congrArg Prod.fst hdiscard)
        · cases heq
    · cases h

namespace Transfer

variable {ρ : Type} [Remote ρ] {site : Site} {moved : Option Path} {job : Job} {size : Nat}

/-! ## One attempt -/

/-- The place that an attempt at an object of `size` bytes chooses, and the transfer by then. -/
def choosePlace (x : Transfer ρ) (job : Job) (conditions : Conditions) (size : Nat) :
    Except Halt Placement × Transfer ρ :=
  let x := ((x.enter .sizeUnknown).findSize job.request).2
  let x := { x with session := x.session.setTotal size }.enter .sizeResolved
  let layout := job.request.layout.resolve size job.settings.singleFileLimit job.settings.forceSplit
  match x.store.place job.settings job.request.target layout size with
  | (.error halt, store) => (.error halt, { x with store })
  | (.ok placement, store) =>
    let x := { x with store }.enter .layoutChosen
    (.ok placement, { x with session := x.session.cancelIf conditions.stopsEarly })

theorem attempt_eq (hasks : site.Asks ρ size job) (hpos : 0 < size) (conditions : Conditions)
    (x : Transfer ρ) : attempt job conditions x =
      match x.choosePlace job conditions size with
      | (.error halt, y) => (.error (halt.leaving 0), y)
      | (.ok p, y) =>
        if y.cancelled then (.error (.failed .cancelled p.resume), y)
        else if size ≤ p.resume then
          (.ok (p.outcome .alreadyComplete size 0 0), { y with session := y.session.advanceTo size })
        else y.runRanged job conditions p size := by
  obtain ⟨session, hfound⟩ := findSize_spec hasks hpos (x.enter .sizeUnknown)
  simp only [attempt, choosePlace, hfound, attemptSized]
  generalize Store.place _ _ _ _ _ = place
  obtain ⟨halt | p, s⟩ := place <;> rfl

theorem findSize_snd (x : Transfer ρ) (request : TransferRequest) :
    ∃ session, (x.findSize request).2 = { x with session } := by
  unfold findSize
  split <;> exact ⟨_, rfl⟩

theorem choosePlace_eq (x : Transfer ρ) (job : Job) (conditions : Conditions) (size : Nat) :
    ∃ y, x.choosePlace job conditions size = ((x.store.place job.settings job.request.target
        (Site.ofJob job size).layout size).1, y) ∧
      y.store = (x.store.place job.settings job.request.target (Site.ofJob job size).layout size).2 := by
  obtain ⟨session, hfound⟩ := (x.enter .sizeUnknown).findSize_snd job.request
  unfold choosePlace
  simp only
  generalize ((x.enter .sizeUnknown).findSize job.request).2 = y at hfound ⊢
  subst hfound
  simp only [enter, Site.ofJob]
  generalize Store.place _ _ _ _ _ = place
  obtain ⟨halt | p, s⟩ := place <;> exact ⟨_, rfl, rfl⟩

theorem choosePlace_of_resumes (hasks : site.Asks ρ size job) (conditions : Conditions)
    {x : Transfer ρ} {s : Store} {resume : Nat}
    (husable : x.store.usableParent site.fallback site.path = (.ok moved, s))
    (hresumes : (site.placement moved resume).Resumes s size) :
    ∃ y, x.choosePlace job conditions size = (.ok (site.placement moved resume), y) ∧ y.store = s := by
  obtain ⟨y, hchoose, hstore⟩ := x.choosePlace_eq job conditions size
  rw [hasks.ofJob_eq, Site.place_eq hasks, husable] at hchoose hstore
  simp only [Site.resumes_iff.mp hresumes] at hchoose hstore
  exact ⟨y, hchoose, hstore⟩

/-- An attempt chooses the place at which its job asks for the object, unless it finds none. Then it
is the last one. -/
theorem choosePlace_cases (x : Transfer ρ) (job : Job) (conditions : Conditions) (size : Nat) :
    let site := Site.ofJob job size
    (∃ halt y, x.choosePlace job conditions size = (.error halt, y) ∧
        y.store = (x.store.usableParent site.fallback site.path).2 ∧ halt.Final) ∨
      ∃ moved resume y, x.choosePlace job conditions size = (.ok (site.placement moved resume), y) ∧
        x.store.usableParent site.fallback site.path = (.ok moved, y.store) ∧
        (site.placement moved resume).Resumes y.store size := by
  intro site
  obtain ⟨y, hchoose, hstore⟩ := x.choosePlace_eq job conditions size
  have hplace := site.place_of_settings job.settings rfl rfl x.store size
  rw [show job.request.target = site.target from rfl, hplace] at hchoose hstore
  cases husable : x.store.usableParent site.fallback site.path with
  | mk usable s =>
    rw [husable] at hchoose hstore
    cases usable with
    | error e =>
      refine Or.inl ⟨_, y, hchoose, hstore, fun e' h => ?_⟩
      cases h
      exact final_usableParent (congrArg Prod.fst husable)
    | ok moved =>
      cases hresume : site.resumeAt moved s size with
      | error abort =>
        simp only [hresume] at hchoose hstore
        exact Or.inl ⟨_, y, hchoose, hstore, Halt.final_aborted abort⟩
      | ok resume =>
        simp only [hresume] at hchoose hstore
        rw [← hstore] at hresume
        exact Or.inr ⟨moved, resume, y, hchoose, by rw [hstore], Site.resumes_iff.mpr hresume⟩

/-- The attempt that starts from `x` opens its sink at the place `p`, and fetches ranges by
`run`. -/
def Opens (x : Transfer ρ) (job : Job) (conditions : Conditions) (size : Nat) (p : Placement)
    (run : Run ρ) : Prop :=
  ∃ y, x.choosePlace job conditions size = (.ok p, y) ∧ y.cancelled = false ∧ p.resume < size ∧
    (y.prepareRun job p size).1 = .ok run

theorem Opens.unique {x : Transfer ρ} {conditions : Conditions} {p : Placement} {run run' : Run ρ}
    (h : x.Opens job conditions size p run) (h' : x.Opens job conditions size p run') : run = run' := by
  obtain ⟨y, hy, -, -, hopen⟩ := h
  obtain ⟨y', hy', -, -, hopen'⟩ := h'
  rw [hy] at hy'
  cases hy'
  rw [hopen] at hopen'
  exact Except.ok.inj hopen'

/-- What the sink of a run was opened on, and what is left of it when the run fails. -/
structure Failed (p : Placement) (s : Store) (size : Nat) (conditions : Conditions) (run : Run ρ)
    (n : Nat) (s' : Store) : Prop where
  opened : ∃ kind store, p.openSink s kind size = (.ok run.shared.sink, store)
  tracker : ∃ url, run.shared.tracker = .new url p.resume size run.chunk
  resume_le : p.resume ≤ size
  reported : (run.strategy.execute conditions.moves conditions.granted run.shared).2.tracker.persisted
    = n
  incomplete : n < size
  left : s' = (((run.strategy.execute conditions.moves conditions.granted
    run.shared).2.sink.truncate n).2.tryFlush conditions.syncFault).2.store

theorem runRanged_failed {x y : Transfer ρ} {p : Placement} {conditions : Conditions}
    {e : TransferError} {n : Nat} (hs : x.store.WellFormed) (hfit : size < Offset.limit)
    (hfailed : x.runRanged job conditions p size = (.error (.failed e n), y))
    (hretry : e.retryable = true) :
    (y.store = x.store ∧ ∀ run, (x.prepareRun job p size).1 ≠ .ok run) ∨
      ∃ run, (x.prepareRun job p size).1 = .ok run ∧
        Failed p x.store size conditions run n y.store := by
  unfold runRanged at hfailed
  rcases x.prepareRun_cases job p size with
    ⟨halt, session, hprepare⟩ | ⟨hle, kind, session, ⟨halt, store, hopen, hprepare⟩ |
      ⟨sink, store, strategy, workers, chunk, hopen, hprepare⟩⟩
  · rw [hprepare] at hfailed ⊢
    cases hfailed
    exact Or.inl ⟨rfl, fun run h => by cases h⟩
  · rw [hprepare] at hfailed
    have hfinal := Placement.final_openSink (congrArg Prod.fst hopen)
    cases halt with
    | aborted abort => cases hfailed
    | failed e' =>
      cases hfailed
      rw [hfinal _ rfl] at hretry
      cases hretry
  · obtain ⟨-, -, hsound, -⟩ := Placement.openSink_spec hs hopen
    let shared : Shared ρ Sink := ⟨session, sink, .new job.request.url p.resume size chunk⟩
    have hexecuted := strategy.executed (serves_any ρ job.request.url size) conditions.moves
      conditions.granted (x := shared) hsound rfl hle hfit
    rw [hprepare] at hfailed ⊢
    simp only at hfailed
    have hsettled := settled ⟨strategy, workers, chunk, shared⟩ p size conditions.syncFault
      (strategy.execute conditions.moves conditions.granted shared).1 hexecuted.complete
    rw [hfailed] at hsettled
    cases hsettled with
    | unflushed full refused =>
      rw [Sink.final_tryFlush refused _ rfl] at hretry
      cases hretry
    | trimmed short =>
      exact Or.inr ⟨_, rfl, ⟨kind, store, hopen⟩, ⟨_, rfl⟩, hle, rfl,
        Nat.lt_of_le_of_ne hexecuted.persisted_le short, rfl⟩

namespace Failed

variable {p : Placement} {s s' : Store} {conditions : Conditions} {run : Run ρ} {n : Nat}

theorem sink (h : Failed p s size conditions run n s') (hs : s.WellFormed)
    (hfit : size < Offset.limit) :
    p.Of run.shared.sink ∧ run.shared.sink.Sound ∧ s.Keeps run.shared.sink.store ∧
      Executed (fun _ _ => True) p.resume size run.shared.sink
        (run.strategy.execute conditions.moves conditions.granted run.shared).2.sink
        (run.strategy.execute conditions.moves conditions.granted run.shared).2.tracker
        (run.strategy.recorded conditions.moves conditions.granted run.shared) := by
  obtain ⟨kind, store, hopen⟩ := h.opened
  obtain ⟨url, htracker⟩ := h.tracker
  obtain ⟨rfl, hof, hsound, -⟩ := Placement.openSink_spec hs hopen
  exact ⟨hof, hsound, Placement.keeps_openSink hs hopen, run.strategy.executed
    (serves_any ρ url size) _ _ hsound htracker h.resume_le hfit⟩

theorem wellFormed (h : Failed p s size conditions run n s') (hs : s.WellFormed)
    (hfit : size < Offset.limit) : s'.WellFormed ∧ s.Keeps s' := by
  obtain ⟨-, hsound, hkeeps, hexecuted⟩ := h.sink hs hfit
  obtain ⟨hs', hkeeps'⟩ := Sink.keeps_truncate hexecuted.sound n conditions.syncFault
  rw [h.left]
  exact ⟨hs', (hkeeps.trans (hexecuted.follows.keeps hsound)).trans hkeeps'⟩

end Failed

/-- How an attempt failed that is followed by another one: it did not open its sink, and has changed
nothing at the place; or it did, and has trimmed it. -/
theorem attempt_failed (hasks : site.Asks ρ size job) (hpos : 0 < size) (hfit : size < Offset.limit)
    {conditions : Conditions} {x y : Transfer ρ} {e : TransferError} {n : Nat}
    (hs : x.store.WellFormed) (hfailed : attempt job conditions x = (.error (.failed e n), y))
    (hretry : e.retryable = true) :
    ∃ moved resume s, x.store.usableParent site.fallback site.path = (.ok moved, s) ∧
      (site.placement moved resume).Resumes s size ∧
      (∃ z, x.choosePlace job conditions size = (.ok (site.placement moved resume), z)) ∧
      ((y.store = s ∧ ∀ run, ¬ x.Opens job conditions size (site.placement moved resume) run) ∨
        ∃ run, x.Opens job conditions size (site.placement moved resume) run ∧
          Failed (site.placement moved resume) s size conditions run n y.store) := by
  rw [attempt_eq hasks hpos] at hfailed
  have hcases := x.choosePlace_cases job conditions size
  simp only [hasks.ofJob_eq] at hcases
  rcases hcases with
    ⟨halt, z, hchoose, -, hfinal⟩ | ⟨moved, resume, z, hchoose, husable, hresumes⟩
  · rw [hchoose] at hfailed
    cases halt with
    | aborted abort => cases hfailed
    | failed e' =>
      cases hfailed
      rw [hfinal _ rfl] at hretry
      cases hretry
  · refine ⟨moved, resume, z.store, husable, hresumes, ⟨z, hchoose⟩, ?_⟩
    have hsz := (usableParent_spec hs husable).1.wellFormed hs
    rw [hchoose] at hfailed
    simp only at hfailed
    split at hfailed
    · cases hfailed
      cases hretry
    · rename_i hcalm
      split at hfailed
      · cases hfailed
      · rename_i hlt
        have hopens : ∀ run, x.Opens job conditions size (site.placement moved resume) run ↔
            (z.prepareRun job (site.placement moved resume) size).1 = .ok run := fun run => by
          refine ⟨fun ⟨z', hz', _, _, hopen⟩ => ?_, fun hopen =>
            ⟨z, hchoose, Bool.eq_false_iff.mpr hcalm, Nat.not_le.mp hlt, hopen⟩⟩
          rw [hchoose] at hz'
          cases hz'
          exact hopen
        simp only [hopens]
        exact runRanged_failed hsz hfit hfailed hretry

/-! ## Requests -/

/-- The range that a probe asks for. -/
def IsProbe (range : Option ByteRange) : Prop := ∃ r, range = some r ∧ r.first = 0 ∧ r.last = 0

theorem asked_findStrategy (x : Transfer ρ) (job : Job) (workers remaining chunk : Nat) :
    x.session.Asked IsProbe (x.findStrategy job workers remaining chunk).2.session := by
  unfold findStrategy
  split
  · have hprobe : x.session.Asked IsProbe (x.session.probe job.request.url).2 := by
      have hask := Session.asked_ask (P := IsProbe) (x := x.session)
        (q := ⟨0, job.request.url, some ⟨0, 0, Nat.le_refl 0⟩⟩) ⟨_, rfl, rfl, rfl⟩
      unfold Session.probe
      simp only
      split <;> (rename_i heq; rw [heq] at hask; exact hask)
    split <;> (rename_i heq; rw [heq] at hprobe; exact hprobe)
  · exact Session.asked_of_journal _ rfl

omit [Remote ρ] in
theorem session_openRun (x : Transfer ρ) (job : Job) (p : Placement) (size workers chunk : Nat)
    (kind : StrategyKind) : (x.openRun job p size workers chunk kind).2.session = x.session ∧
      ∀ run, (x.openRun job p size workers chunk kind).1 = .ok run →
        run.shared.session = x.session := by
  unfold openRun
  simp only
  split
  · exact ⟨rfl, fun run h => by cases h⟩
  · exact ⟨rfl, fun run h => by cases h; rfl⟩

theorem asked_prepareRun (x : Transfer ρ) (job : Job) (p : Placement) (size : Nat) :
    x.session.Asked IsProbe (x.prepareRun job p size).2.session ∧
      ∀ run, (x.prepareRun job p size).1 = .ok run →
        run.shared.session = (x.prepareRun job p size).2.session := by
  unfold prepareRun
  simp only [enter]
  have hconnect : x.session.Asked IsProbe (((x.session.advanceTo p.resume).enter
      (if 0 < p.resume then .resuming else .downloading)).connect).2 :=
    Session.Asked.trans (Session.asked_enter _ (x.session.advanceTo p.resume) _)
      (Session.asked_connect _ _)
  split
  · rename_i heq
    rw [heq] at hconnect
    exact ⟨hconnect, fun run h => by cases h⟩
  · rename_i session heq
    rw [heq] at hconnect
    split
    · exact ⟨hconnect, fun run h => by cases h⟩
    · rename_i remaining _
      have hfind := asked_findStrategy ⟨session, x.store⟩ job
        (TransferSettings.clampWorkers job.request.workers p.kind) remaining
        (job.settings.effectiveChunk job.request.chunk
          (TransferSettings.clampWorkers job.request.workers p.kind))
      split
      · rename_i hstrategy
        rw [hstrategy] at hfind
        exact ⟨hconnect.trans hfind, fun run h => by cases h⟩
      · rename_i kind y hstrategy
        rw [hstrategy] at hfind
        obtain ⟨hsame, hrun⟩ := y.session_openRun job p size
          (TransferSettings.clampWorkers job.request.workers p.kind)
          (job.settings.effectiveChunk job.request.chunk
            (TransferSettings.clampWorkers job.request.workers p.kind)) kind
        rw [hsame]
        exact ⟨hconnect.trans hfind, hrun⟩

omit [Remote ρ] in
theorem session_settleRun (run : Run ρ) (p : Placement) (size : Nat) (fault : Option StorageError)
    (executed : Except Halt Unit) (y : Shared ρ Sink) :
    (settleRun run p size fault executed y).2.session = y.session := by
  unfold settleRun
  simp only
  split
  · rfl
  · rfl
  · split <;> rfl
  · split
    · rfl
    · split <;> rfl

theorem asked_choosePlace (P : Option ByteRange → Prop) (x : Transfer ρ) (job : Job)
    (conditions : Conditions) (size : Nat) :
    x.session.Asked P (x.choosePlace job conditions size).2.session := by
  have hfind : x.session.Asked P ((x.enter .sizeUnknown).findSize job.request).2.session := by
    refine (Session.asked_enter P x.session .sizeUnknown).trans (Session.asked_of_journal P ?_)
    unfold findSize
    split <;> rfl
  have hsize : x.session.Asked P ((((x.enter .sizeUnknown).findSize job.request).2.session.setTotal
      size).enter .sizeResolved) := hfind.trans (Session.asked_enter P (Session.setTotal _ size) _)
  unfold choosePlace
  simp only
  split
  · exact hsize
  · exact (hsize.trans (Session.asked_enter P _ .layoutChosen)).trans (Session.asked_cancelIf P _ _)

theorem asked_runRanged (hfit : size < Offset.limit) (x : Transfer ρ) (job : Job)
    (conditions : Conditions) (p : Placement) :
    (∀ run, (x.prepareRun job p size).1 = .ok run → run.shared.session.Asked
      (Session.Within p.resume size) (x.runRanged job conditions p size).2.session) ∧
    ((∀ run, (x.prepareRun job p size).1 ≠ .ok run) →
      (x.runRanged job conditions p size).2.session = (x.prepareRun job p size).2.session) := by
  unfold runRanged
  rcases x.prepareRun_cases job p size with
    ⟨halt, session, hprepare⟩ | ⟨hle, kind, session, ⟨halt, store, -, hprepare⟩ |
      ⟨sink, store, strategy, workers, chunk, -, hprepare⟩⟩
  · rw [hprepare]
    exact ⟨fun run h => (by cases h), fun _ => rfl⟩
  · rw [hprepare]
    exact ⟨fun run h => (by cases h), fun _ => rfl⟩
  · rw [hprepare]
    refine ⟨fun run h => ?_, fun hno => absurd rfl (hno _)⟩
    cases h
    simp only [session_settleRun]
    exact strategy.asked_execute _ _ rfl hle hfit

/-- Until its sink is open, the attempt that starts from `x` asks for nothing but the probe, and
then only for ranges between the resume offset of `p` and the end of the object. -/
def RequestsFrom (x : Transfer ρ) (job : Job) (conditions : Conditions) (size : Nat)
    (p : Placement) : Prop :=
  (∀ run, x.Opens job conditions size p run →
    x.session.Asked IsProbe run.shared.session ∧
      run.shared.session.Asked (Session.Within p.resume size)
        (attempt job conditions x).2.session) ∧
  ((∀ run, ¬ x.Opens job conditions size p run) →
    x.session.Asked IsProbe (attempt job conditions x).2.session)

theorem requestsFrom_attempt (hasks : site.Asks ρ size job) (hpos : 0 < size)
    (hfit : size < Offset.limit) {conditions : Conditions} {x y : Transfer ρ} {p : Placement}
    (hchoose : x.choosePlace job conditions size = (.ok p, y)) :
    x.RequestsFrom job conditions size p := by
  have hchosen := x.asked_choosePlace IsProbe job conditions size
  obtain ⟨hprepare, hopened⟩ := y.asked_prepareRun job p size
  obtain ⟨hrun, hfailed⟩ := asked_runRanged hfit y job conditions p
  rw [hchoose] at hchosen
  refine ⟨fun run ⟨y', hchoose', hcalm, hlt, hopen⟩ => ?_, fun hno => ?_⟩
  · rw [hchoose] at hchoose'
    cases hchoose'
    refine ⟨hchosen.trans (hopened run hopen ▸ hprepare), ?_⟩
    rw [attempt_eq hasks hpos, hchoose]
    simp only [hcalm, if_neg (Nat.not_le.mpr hlt), Bool.false_eq_true, if_false]
    exact hrun run hopen
  · rw [attempt_eq hasks hpos, hchoose]
    simp only
    split
    · exact hchosen
    · rename_i hcalm
      split
      · exact hchosen.trans (Session.asked_of_journal _ rfl)
      · rename_i hlt
        rw [hfailed fun run hopen => hno run ⟨y, hchoose, Bool.eq_false_iff.mpr hcalm,
          Nat.not_le.mp hlt, hopen⟩]
        exact hchosen.trans hprepare

/-! ## Attempts of one download -/

theorem lt_of_waitAfter {policy : RetryPolicy} {e : TransferError} {k : Nat} {delay : Duration}
    (h : waitAfter policy e k = .ok (some delay)) : k < max policy.transferAttempts 1 := by
  refine Nat.lt_of_not_le fun hlast => ?_
  simp only [waitAfter, RetryPolicy.transferDelay, if_pos hlast] at h
  split at h <;> cases h

/-- Attempt `k` of the download that starts from `x₀` starts from `x`. -/
inductive Starts (job : Job) (conditions : Nat → Conditions) (x₀ : Transfer ρ) :
    Nat → Transfer ρ → Prop
  | first : Starts job conditions x₀ 1 x₀
  | next {k n : Nat} {x y : Transfer ρ} {e : TransferError} {delay : Duration}
      (before : Starts job conditions x₀ k x)
      (failed : attempt job (conditions k) x = (.error (.failed e n), y))
      (waits : waitAfter job.settings.retry e k = .ok (some delay))
      (calm : (y.pause delay (conditions k).stopsInWait).cancelled = false) :
      Starts job conditions x₀ (k + 1) (y.pause delay (conditions k).stopsInWait)

namespace Starts

variable {conditions : Nat → Conditions} {x₀ x x' y : Transfer ρ} {k n : Nat} {e : TransferError}

theorem download_eq (h : Starts job conditions x₀ k x) : 0 < k ∧
    download job conditions x₀ = retry job.settings.retry
      (fun number => attempt job (conditions number)) (fun number => (conditions number).stopsInWait)
      (max job.settings.retry.transferAttempts 1 - k) k x := by
  induction h with
  | first => exact ⟨Nat.one_pos, rfl⟩
  | @next k n x y e delay before failed waits calm ih =>
    have hmore := lt_of_waitAfter waits
    have hleft : max job.settings.retry.transferAttempts 1 - k =
      (max job.settings.retry.transferAttempts 1 - (k + 1)) + 1 := by omega
    refine ⟨Nat.succ_pos k, ?_⟩
    rw [ih.2, retry.eq_def]
    have hcalm : (y.pause delay (conditions k).stopsInWait).session.cancelled = false := calm
    simp only [failed, waits, hleft, hcalm]
    rfl

theorem unique (h : Starts job conditions x₀ k x) (h' : Starts job conditions x₀ k x') : x = x' := by
  induction h generalizing x' with
  | first =>
    cases h' with
    | first => rfl
    | next before => exact absurd before.download_eq.1 (Nat.lt_irrefl 0)
  | next before failed waits calm ih =>
    cases h' with
    | first => exact absurd before.download_eq.1 (Nat.lt_irrefl 0)
    | next before' failed' waits' calm' =>
      obtain rfl := ih before'
      rw [failed] at failed'
      cases failed'
      rw [waits] at waits'
      cases waits'
      rfl

theorem le_attempts (h : Starts job conditions x₀ k x) :
    k ≤ max job.settings.retry.transferAttempts 1 := by
  cases h with
  | first => exact Nat.le_max_right _ _
  | next before failed waits calm => exact lt_of_waitAfter waits

theorem retryable (h : Starts job conditions x₀ k x) (h' : Starts job conditions x₀ (k + 1) x')
    (hfailed : attempt job (conditions k) x = (.error (.failed e n), y)) :
    e.retryable = true ∧ x'.store = y.store := by
  cases h' with
  | first => exact absurd h.download_eq.1 (Nat.lt_irrefl 0)
  | next before failed waits calm =>
    obtain rfl := h.unique before
    rw [hfailed] at failed
    cases failed
    unfold waitAfter at waits
    split at waits
    · rename_i hretry
      exact ⟨hretry, rfl⟩
    · cases waits

theorem wellFormed (hasks : site.Asks ρ size job) (hpos : 0 < size) (hfit : size < Offset.limit)
    (hs : x₀.store.WellFormed) (h : Starts job conditions x₀ k x) : x.store.WellFormed := by
  induction h with
  | first => exact hs
  | next before failed waits calm ih =>
    obtain ⟨hretry, -⟩ := before.retryable (.next before failed waits calm) failed
    obtain ⟨moved, resume, s, husable, -, -, ⟨hsame, -⟩ | ⟨run, -, hleft⟩⟩ :=
      attempt_failed hasks hpos hfit ih failed hretry
    · exact hsame ▸ (usableParent_spec ih husable).1.wellFormed ih
    · exact (hleft.wellFormed ((usableParent_spec ih husable).1.wellFormed ih) hfit).1

end Starts

end Transfer

end RangeTransfer
