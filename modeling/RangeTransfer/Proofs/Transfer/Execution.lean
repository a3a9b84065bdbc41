import RangeTransfer.Proofs.Attempt.Faithful
import RangeTransfer.Proofs.Transfer.Placement
/-!
# What executing a strategy leaves

Whatever the strategy, executing it lets a crew run: one worker, as many as threads start, or none.
`execute_spec` names this crew, `recorded` the ranges that it records as written. `Executed` sums
up what is true once an execution has ended: the books agree with the bytes. What comes of the
attempt then depends on the watermark and on the flush (`Settled`): it succeeds if all bytes are there
and can be made durable, and is trimmed only if some are missing.
-/

namespace RangeTransfer

namespace Strategy

def rules : Strategy → WorkerRules
  | sequential policy => ⟨policy, true⟩
  | parallel _ policy _ => ⟨policy, false⟩

variable {ρ σ : Type} [Remote ρ]

/-- The crew that the strategy lets run; it is empty if no thread starts. -/
def crew (strategy : Strategy) (granted : Option Nat) (x : Shared ρ σ) : Crew ρ σ :=
  match strategy with
  | sequential _ => .new x 1
  | parallel workers _ spawn =>
    let (opened, session) := x.session.connectMore (workers - 1)
    match spawn.startThreads (opened + 1) granted with
    | .error _ => .new { x with session } 0
    | .ok n => .new { x with session } n

theorem crew_eq (strategy : Strategy) (granted : Option Nat) (x : Shared ρ σ) :
    ∃ session n, strategy.crew granted x = .new { x with session } n ∧
      (strategy.rules.acceptWhole = true → n = 1) := by
  unfold crew
  cases strategy with
  | sequential policy => exact ⟨_, 1, rfl, fun _ => rfl⟩
  | parallel workers policy spawn =>
    simp only
    split
    · exact ⟨_, 0, rfl, nofun⟩
    · exact ⟨_, _, rfl, nofun⟩

theorem session_crew (strategy : Strategy) (granted : Option Nat) (x : Shared ρ σ) :
    ∃ n, (strategy.crew granted x).shared.session = (x.session.connectMore n).2 := by
  unfold crew
  cases strategy with
  | sequential policy => exact ⟨0, rfl⟩
  | parallel workers policy spawn =>
    refine ⟨workers - 1, ?_⟩
    simp only
    split <;> rfl

theorem solitary_crew (strategy : Strategy) (granted : Option Nat) (x : Shared ρ σ) :
    Crew.Solitary strategy.rules (strategy.crew granted x) := fun hwhole => by
  obtain ⟨session, n, hcrew, hone⟩ := strategy.crew_eq granted x
  rw [hcrew, hone hwhole]
  rfl

variable [RangeSink σ]

/-- The moves that the crew makes. -/
def schedule (strategy : Strategy) (moves : List Move) (granted : Option Nat) (x : Shared ρ σ) :
    List Move :=
  (strategy.crew granted x).schedule strategy.rules moves

/-- The ranges that are recorded as written, the latest first. -/
def recorded (strategy : Strategy) (moves : List Move) (granted : Option Nat) (x : Shared ρ σ) :
    List ByteRange :=
  (strategy.crew granted x).recorded strategy.rules (strategy.schedule moves granted x)

theorem finished_crew (strategy : Strategy) (moves : List Move) (granted : Option Nat)
    (x : Shared ρ σ) : ((strategy.crew granted x).after strategy.rules
      (strategy.schedule moves granted x)).finished = true := by
  rw [schedule, ← Crew.run_eq_after]
  exact Crew.finished_run _ _

theorem after_of_empty (rules : WorkerRules) {c : Crew ρ σ} (h : c.workers = []) (moves : List Move) :
    (c.after rules moves).shared.sink = c.shared.sink ∧
      (c.after rules moves).shared.tracker = c.shared.tracker ∧
      (c.after rules moves).shared.session.progress.bytes = c.shared.session.progress.bytes := by
  induction moves generalizing c with
  | nil => exact ⟨rfl, rfl, rfl⟩
  | cons m moves ih =>
    obtain ⟨hempty, hsink, htracker, hbytes⟩ : (c.apply rules m).workers = [] ∧
        (c.apply rules m).shared.sink = c.shared.sink ∧
        (c.apply rules m).shared.tracker = c.shared.tracker ∧
        (c.apply rules m).shared.session.progress.bytes = c.shared.session.progress.bytes := by
      have hmoved := c.moved_apply rules m
      generalize c.apply rules m = c' at hmoved ⊢
      cases hmoved with
      | still | cancel => exact ⟨h, rfl, rfl, rfl⟩
      | step hw | lose hw | refuse hw =>
        rw [h] at hw
        cases hw
    rw [← hsink, ← htracker, ← hbytes]
    exact ih hempty

/-- An execution leaves what the run of its crew leaves, but for the recorded error. -/
theorem execute_spec (strategy : Strategy) (moves : List Move) (granted : Option Nat)
    (x : Shared ρ σ) :
    (strategy.execute moves granted x).2.sink =
        ((strategy.crew granted x).after strategy.rules
          (strategy.schedule moves granted x)).shared.sink ∧
      ∃ e, (strategy.execute moves granted x).2.tracker =
        { ((strategy.crew granted x).after strategy.rules
          (strategy.schedule moves granted x)).shared.tracker with error := e } := by
  unfold schedule
  rw [← Crew.run_eq_after]
  cases strategy with
  | sequential policy =>
    simp only [execute, crew, rules]
    split
    · exact ⟨rfl, _, rfl⟩
    · exact ⟨rfl, _, rfl⟩
  | parallel workers policy spawn =>
    simp only [execute, crew, rules]
    cases spawn.startThreads ((x.session.connectMore (workers - 1)).1 + 1) granted with
    | error e =>
      obtain ⟨hsink, htracker, -⟩ := after_of_empty ⟨policy, false⟩
        (c := .new { x with session := (x.session.connectMore (workers - 1)).2 } 0) rfl
        (Crew.schedule ⟨policy, false⟩ moves
          (.new { x with session := (x.session.connectMore (workers - 1)).2 } 0))
      rw [← Crew.run_eq_after] at hsink htracker
      refine ⟨hsink.symm, x.tracker.error, ?_⟩
      simp only
      rw [htracker]
      rfl
    | ok n => exact ⟨rfl, _, rfl⟩

end Strategy

/-! ## Bytes and books -/

/-- What is true of the sink `k` and the tracker `t` that an execution leaves, if it started with
the sink `k₀` and has recorded the ranges of `rs`. -/
structure Executed (good : Nat → UInt8 → Prop) (resume total : Nat) (k₀ k : Sink) (t : Tracker)
    (rs : List ByteRange) : Prop where
  follows : k₀.Follows total k
  sound : k.Sound
  keeps : KeepsGood good k₀.byteAt k.byteAt
  recorded : ∀ r ∈ rs, Agrees good k.byteAt r.first r.pastEnd
  covered : ∀ m, Covered resume rs m ↔ m ≤ t.persisted
  persisted_le : t.persisted ≤ total
  complete : t.isComplete = .ok (decide (t.persisted = total))
  total_eq : t.total = total

theorem Strategy.executed {ρ : Type} [Remote ρ] {url : String} {resume total chunk : Nat}
    {good : Nat → UInt8 → Prop} (hserves : Serves ρ url total good) (strategy : Strategy)
    (moves : List Move) (granted : Option Nat) {x : Shared ρ Sink} (hs : x.sink.Sound)
    (htracker : x.tracker = .new url resume total chunk) (hle : resume ≤ total)
    (hfit : total < Offset.limit) :
    Executed good resume total x.sink (strategy.execute moves granted x).2.sink
      (strategy.execute moves granted x).2.tracker (strategy.recorded moves granted x) := by
  obtain ⟨session, n, hcrew, -⟩ := strategy.crew_eq granted x
  obtain ⟨hsink, e, ht⟩ := strategy.execute_spec moves granted x
  have hsolitary := strategy.solitary_crew granted x
  have hacc₀ : (strategy.crew granted x).Accounted [] := by
    rw [hcrew]
    exact Crew.accounted_new htracker hle hfit n
  have hfaith₀ : (strategy.crew granted x).Faithful url total good x.sink [] := by
    rw [hcrew]
    exact Crew.faithful_new (x := { x with session }) hs htracker n
  have hacc := hacc₀.after hsolitary (strategy.schedule moves granted x)
  have hfaith := hfaith₀.after hserves hsolitary hacc₀ (strategy.schedule moves granted x)
  have hfin := strategy.finished_crew moves granted x
  have hresume : ((strategy.crew granted x).after strategy.rules
      (strategy.schedule moves granted x)).shared.tracker.resume = resume := by
    rw [Crew.resume_after, hcrew, Crew.new, htracker]
    rfl
  rw [← recorded, List.append_nil] at hacc hfaith
  generalize (strategy.crew granted x).after strategy.rules (strategy.schedule moves granted x) = c
    at hsink ht hacc hfaith hfin hresume
  have hle' : c.shared.tracker.resume ≤ c.shared.tracker.total := by
    rw [hresume, hfaith.total_eq]
    exact hle
  rw [hsink, ht]
  refine ⟨hfaith.follows, hfaith.sound, hfaith.keeps, hfaith.marked, fun m => ?_, ?_, ?_,
    hfaith.total_eq⟩
  · have := hacc.covered_iff hle' m
    rwa [hresume] at this
  · have := hacc.reached_le
    rwa [hfaith.total_eq] at this
  · have := hacc.isComplete_finished hfin hle' (by rw [hfaith.total_eq]; exact hfit)
    rwa [hfaith.total_eq] at this

/-- If the resumed bytes were good, all bytes below the watermark are. -/
theorem Executed.agrees {good : Nat → UInt8 → Prop} {resume total : Nat} {k₀ k : Sink} {t : Tracker}
    {rs : List ByteRange} (h : Executed good resume total k₀ k t rs)
    (hresumed : Agrees good k₀.byteAt 0 resume) : Agrees good k.byteAt 0 t.persisted := by
  intro o _ ho
  rcases (h.covered t.persisted).mpr (Nat.le_refl _) o ho with hlow | ⟨r, hr, hfirst, hpast⟩
  · exact (hresumed.keeps h.keeps) o (Nat.zero_le _) hlow
  · exact h.recorded r hr o hfirst hpast

/-! ## Preparing and settling -/

namespace Transfer

variable {ρ : Type}

theorem settleRun_eq (run : Run ρ) (placement : Placement) (size : Nat)
    {fault : Option StorageError} {executed : Except Halt Unit} {y : Shared ρ Sink}
    (hcomplete : y.tracker.isComplete = .ok (decide (y.tracker.persisted = size)))
    (hno : ∀ abort, executed ≠ .error (.aborted abort)) :
    settleRun run placement size fault executed y =
      if y.tracker.persisted = size then match y.sink.tryFlush fault with
        | (.error e, sink) => (.error (.failed e y.tracker.persisted), ⟨y.session, sink.store⟩)
        | (.ok (), sink) => (.ok (placement.outcome run.strategy.kind size run.chunk run.workers),
            ⟨y.session, sink.store⟩)
      else match shortfall y.tracker executed with
        | .error abort => (.error (.aborted abort), ⟨y.session, y.sink.store⟩)
        | .ok e => match trim y.sink y.tracker.persisted fault with
          | .error abort => (.error (.aborted abort), ⟨y.session, y.sink.store⟩)
          | .ok sink => (.error (.failed e y.tracker.persisted), ⟨y.session, sink.store⟩) := by
  unfold settleRun
  rw [hcomplete]
  split
  · exact absurd rfl (hno _)
  · cases ‹Except.ok _ = Except.error _›
  · rename_i heq
    exact (if_pos (of_decide_eq_true (Except.ok.inj heq))).symm
  · rename_i heq
    exact (if_neg (of_decide_eq_false (Except.ok.inj heq))).symm

theorem trim_cases (k : Sink) (n : Nat) (fault : Option StorageError) :
    (∃ abort, (k.truncate n).1 = .error (.aborted abort) ∧ trim k n fault = .error abort) ∨
      trim k n fault = .ok ((k.truncate n).2.tryFlush fault).2 := by
  unfold trim
  split
  · rename_i heq
    exact Or.inl ⟨_, by rw [heq], rfl⟩
  · rename_i heq
    rw [heq]
    exact Or.inr rfl

theorem exists_shortfall {t : Tracker} {executed : Except Halt Unit} {complete : Bool}
    (hcomplete : t.isComplete = .ok complete)
    (hno : ∀ abort, executed ≠ .error (.aborted abort)) : ∃ e, shortfall t executed = .ok e := by
  unfold shortfall
  split
  · exact ⟨_, rfl⟩
  · exact absurd rfl (hno _)
  · simp only [Tracker.isComplete, bind, Except.bind] at hcomplete
    split at hcomplete
    · cases hcomplete
    · rename_i heq
      simp only [heq, bind, Except.bind]
      exact ⟨_, rfl⟩

theorem settleRun_failed (run : Run ρ) (placement : Placement) {size : Nat}
    (fault : Option StorageError) {executed : Except Halt Unit} {y : Shared ρ Sink}
    (hcomplete : y.tracker.isComplete = .ok (decide (y.tracker.persisted = size)))
    (hno : ∀ abort, executed ≠ .error (.aborted abort)) (hne : y.tracker.persisted ≠ size)
    (htrim : (y.sink.truncate y.tracker.persisted).1 = .ok ()) :
    ∃ e, settleRun run placement size fault executed y =
      (.error (.failed e y.tracker.persisted),
        ⟨y.session, ((y.sink.truncate y.tracker.persisted).2.tryFlush fault).2.store⟩) := by
  obtain ⟨e, he⟩ := exists_shortfall hcomplete hno
  have htrimmed : trim y.sink y.tracker.persisted fault =
      .ok ((y.sink.truncate y.tracker.persisted).2.tryFlush fault).2 :=
    (trim_cases y.sink y.tracker.persisted fault).resolve_left fun habort => by
      obtain ⟨_, habort, _⟩ := habort
      rw [htrim] at habort
      cases habort
  refine ⟨e, ?_⟩
  rw [settleRun_eq run placement size hcomplete hno, if_neg hne, he]
  simp only [htrimmed]

/-- What comes of an attempt whose workers have left `y`. -/
inductive Settled (run : Run ρ) (placement : Placement) (size : Nat) (fault : Option StorageError)
    (y : Shared ρ Sink) : Except AttemptHalt Outcome × Transfer ρ → Prop
  | aborted {abort : Abort} : Settled run placement size fault y
      (.error (.aborted abort), ⟨y.session, y.sink.store⟩)
  | stored (full : y.tracker.persisted = size) (flushed : (y.sink.tryFlush fault).1 = .ok ()) :
      Settled run placement size fault y
        (.ok (placement.outcome run.strategy.kind size run.chunk run.workers),
          ⟨y.session, (y.sink.tryFlush fault).2.store⟩)
  /-- All bytes are there, but could not be made durable. -/
  | unflushed {e : TransferError} (full : y.tracker.persisted = size)
      (refused : (y.sink.tryFlush fault).1 = .error e) : Settled run placement size fault y
        (.error (.failed e size), ⟨y.session, (y.sink.tryFlush fault).2.store⟩)
  | trimmed {e : TransferError} (short : y.tracker.persisted ≠ size) :
      Settled run placement size fault y (.error (.failed e y.tracker.persisted),
        ⟨y.session, ((y.sink.truncate y.tracker.persisted).2.tryFlush fault).2.store⟩)

theorem settled (run : Run ρ) (placement : Placement) (size : Nat) (fault : Option StorageError)
    (executed : Except Halt Unit) {y : Shared ρ Sink}
    (hcomplete : y.tracker.isComplete = .ok (decide (y.tracker.persisted = size))) :
    Settled run placement size fault y (settleRun run placement size fault executed y) := by
  by_cases habort : ∃ abort, executed = .error (.aborted abort)
  · obtain ⟨abort, rfl⟩ := habort
    exact .aborted
  · rw [settleRun_eq run placement size hcomplete fun abort heq => habort ⟨abort, heq⟩]
    by_cases hfull : y.tracker.persisted = size
    · rw [if_pos hfull, hfull]
      cases hflush : y.sink.tryFlush fault with
      | mk result sink =>
        obtain rfl : (y.sink.tryFlush fault).2 = sink := congrArg Prod.snd hflush
        cases result with
        | error e => exact .unflushed hfull (congrArg Prod.fst hflush)
        | ok _ => exact .stored hfull (congrArg Prod.fst hflush)
    · rw [if_neg hfull]
      cases shortfall y.tracker executed with
      | error abort => exact .aborted
      | ok e =>
        simp only
        rcases trim_cases y.sink y.tracker.persisted fault with ⟨abort, -, htrim⟩ | htrim
        · rw [htrim]
          exact .aborted
        · rw [htrim]
          exact .trimmed hfull

theorem Settled.alike {run : Run ρ} {placement : Placement} {size : Nat}
    {fault : Option StorageError} {y : Shared ρ Sink}
    {result : Except AttemptHalt Outcome × Transfer ρ}
    (h : Settled run placement size fault y result) (full : y.tracker.persisted = size) :
    y.sink.store.Alike result.2.store := by
  cases h with
  | aborted => exact .refl _
  | stored | unflushed => exact Sink.alike_tryFlush _ _
  | trimmed short => exact absurd full short

variable [Remote ρ]

theorem findStrategy_spec (x : Transfer ρ) (job : Job) (workers remaining chunk : Nat) :
    ∃ r session, x.findStrategy job workers remaining chunk = (r, { x with session }) := by
  unfold findStrategy
  split
  · split <;> exact ⟨_, _, rfl⟩
  · exact ⟨_, x.session, rfl⟩

theorem prepareRun_cases (x : Transfer ρ) (job : Job) (placement : Placement) (size : Nat) :
    (∃ halt session, x.prepareRun job placement size = (.error halt, { x with session })) ∨
      placement.resume ≤ size ∧ ∃ kind session,
        (∃ halt store, placement.openSink x.store kind size = (.error halt, store) ∧
          x.prepareRun job placement size =
            (.error (halt.leaving placement.resume), ⟨session, store⟩)) ∨
        ∃ sink store strategy workers chunk,
          placement.openSink x.store kind size = (.ok sink, store) ∧
          x.prepareRun job placement size = (.ok ⟨strategy, workers, chunk, session, sink,
            .new job.request.url placement.resume size chunk⟩, ⟨session, store⟩) := by
  unfold prepareRun
  simp only
  split
  · exact Or.inl ⟨_, _, rfl⟩
  · rename_i session _
    cases hsub : Offset.sub size placement.resume with
    | error abort => exact Or.inl ⟨_, _, rfl⟩
    | ok remaining =>
      have hle : placement.resume ≤ size := Offset.le_of_sub_eq_ok hsub
      obtain ⟨r, session', hfind⟩ := findStrategy_spec ⟨session, x.store⟩ job
        (TransferSettings.clampWorkers job.request.workers placement.kind) remaining
        (job.settings.effectiveChunk job.request.chunk
          (TransferSettings.clampWorkers job.request.workers placement.kind))
      simp only [enter] at hfind ⊢
      rw [hfind]
      cases r with
      | error abort => exact Or.inl ⟨_, _, rfl⟩
      | ok kind =>
        refine Or.inr ⟨hle, kind, session', ?_⟩
        simp only [openRun]
        cases hopen : placement.openSink x.store kind size with
        | mk opened store =>
          cases opened with
          | error halt => exact Or.inl ⟨halt, store, rfl, rfl⟩
          | ok sink => exact Or.inr ⟨sink, store, _, _, _, rfl, rfl⟩

variable {x : Transfer ρ} {job : Job} {placement : Placement} {size : Nat} {run : Run ρ}

theorem opened_of_prepareRun (h : (x.prepareRun job placement size).1 = .ok run) :
    placement.resume ≤ size ∧
      run.shared.tracker = .new job.request.url placement.resume size run.chunk ∧
      ∃ kind store, placement.openSink x.store kind size = (.ok run.shared.sink, store) := by
  rcases x.prepareRun_cases job placement size with
    ⟨halt, session, hprepare⟩ | ⟨hle, kind, session, ⟨halt, store, -, hprepare⟩ |
      ⟨sink, store, strategy, workers, chunk, hsink, hprepare⟩⟩
  · cases h.symm.trans (congrArg Prod.fst hprepare)
  · cases h.symm.trans (congrArg Prod.fst hprepare)
  · cases h.symm.trans (congrArg Prod.fst hprepare)
    exact ⟨hle, rfl, kind, store, hsink⟩

theorem runRanged_eq (h : (x.prepareRun job placement size).1 = .ok run) (conditions : Conditions) :
    x.runRanged job conditions placement size =
      settleRun run placement size conditions.syncFault
        (run.strategy.execute conditions.moves conditions.granted run.shared).1
        (run.strategy.execute conditions.moves conditions.granted run.shared).2 := by
  unfold runRanged
  cases hprepare : x.prepareRun job placement size with
  | mk prepared y =>
    rw [hprepare] at h
    cases h
    rfl

end Transfer

end RangeTransfer
