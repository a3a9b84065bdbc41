import RangeTransfer.Proofs.Attempt.Points
import RangeTransfer.Proofs.Transfer.Attempts
/-!
# The moments of a transfer

A transfer may be cut off at any moment, and what it has reported by then may be looked at. The
lists here have the stores and the byte counters that a transfer passes through, in order: each call
of the storage that opening and trimming a sink make, each move of the workers, and the writes that
are under way. Every list ends with what the function leaves that it is about (`getLast?_opening`,
`getLast?_trimming`, `Crew.getLast?_points`). The moments of a download are those of its attempts
(`mem_moments`), and what an attempt does at one of them is one of a few things (`OfAttempt`,
`OfRun`), by which a claim about all of them is proved.
-/

namespace RangeTransfer
open Store

/-! ## Discarding -/

namespace SplitLayout

/-- The stores that removing the parts behind part `index` passes through. -/
def removing (l : SplitLayout) (s : Store) (index : Nat) : List Store :=
  match Offset.add index 1 with
  | .error _ => [s]
  | .ok next =>
    (List.range (s.entries.rows.length + 2)).map fun bound => (l.removeFrom bound next s).2

/-- The stores that discarding the bytes from `offset` on passes through. -/
def discarding (l : SplitLayout) (s : Store) (offset : Nat) : List Store :=
  let (index, within) := l.locate offset
  match s.openFile (l.partPath index) false with
  | .error .notFound => l.removing s index
  | .error _ => [s]
  | .ok (handle, s) =>
    match s.setSize handle within with
    | .error _ => [s]
    | .ok s => l.removing s index

variable {l : SplitLayout} {s s' : Store} {d : Location}

theorem getLast?_removing (l : SplitLayout) (s : Store) (index : Nat) :
    (l.removing s index).getLast? = some (l.removeAfter s index).2 := by
  unfold removing removeAfter
  cases Offset.add index 1 with
  | error abort => rfl
  | ok next =>
    simp only [List.range_succ, List.map_append, List.map_cons, List.map_nil,
      List.getLast?_concat]

theorem getLast?_discarding (l : SplitLayout) (s : Store) (offset : Nat) :
    (l.discarding s offset).getLast? = some (l.discardFrom s offset).2 := by
  unfold discarding discardFrom
  simp only
  cases s.openFile (l.partPath (l.locate offset).1) false with
  | error e => cases e <;> first | rfl | exact getLast?_removing _ _ _
  | ok opened =>
    obtain ⟨handle, s⟩ := opened
    cases hset : s.setSize handle (l.locate offset).2 with
    | error e => simp only [hset]; rfl
    | ok s₁ => simp only [hset]; exact getLast?_removing _ _ _

theorem mem_removing {index : Nat} (h : l.At s d) (hs : s.WellFormed)
    (hmem : s' ∈ l.removing s index) :
    s'.WellFormed ∧ s.Steady l.Addressable d s' ∧
      (∀ j, l.part? s' j = l.part? s j ∨ l.part? s' j = none) ∧
      ∀ j ≤ index, l.part? s' j = l.part? s j := by
  unfold removing at hmem
  split at hmem
  · obtain rfl := List.mem_singleton.mp hmem
    exact ⟨hs, Steady.refl _ d _, fun _ => Or.inl rfl, fun _ _ => rfl⟩
  · rename_i next hadd
    obtain rfl := Offset.eq_of_add_eq_ok hadd
    obtain ⟨bound, -, rfl⟩ := List.mem_map.mp hmem
    obtain ⟨r, s', heq, hs', hsteady, hless, hbelow, -⟩ := removeFrom_spec bound (index + 1) h hs
    rw [heq]
    exact ⟨hs', hsteady, hless, fun j hj => hbelow j (Nat.lt_succ_of_le hj)⟩

theorem mem_discarding {offset : Nat} (h : l.At s d) (hs : s.WellFormed)
    (hlimit : offset % l.partSize < lengthLimit) (hmem : s' ∈ l.discarding s offset) :
    s'.WellFormed ∧ s.Steady l.Addressable d s' ∧ l.Discarded s s' offset := by
  unfold discarding locate at hmem
  simp only at hmem
  split at hmem
  · rename_i hopen
    have hnone := h.part?_of_openFile_error hopen
    obtain ⟨hs', hsteady, hless, hbelow⟩ := mem_removing h hs hmem
    refine ⟨hs', hsteady, fun j hj => hbelow j (Nat.le_of_lt hj), ?_, fun j _ => hless j⟩
    rw [hbelow _ (Nat.le_refl _), hnone]
    rfl
  · rename_i hopen
    obtain rfl := List.mem_singleton.mp hmem
    refine ⟨hs, Steady.refl _ d _, fun _ _ => rfl, ?_, fun _ _ => Or.inl rfl⟩
    rw [h.part?_of_openFile_error hopen]
    rfl
  · rename_i fd s₀ hopen
    obtain ⟨-, -, hholds, -, -, hsame⟩ := h.openFile hs hopen
    obtain ⟨rfl, -⟩ := hsame rfl
    split at hmem
    · rename_i hset
      unfold setSize at hset
      rw [if_neg (Nat.not_le.mpr hlimit)] at hset
      cases hset
    · rename_i s₁ hset
      obtain ⟨hs₁, hsteady₁, -, hparts⟩ := hholds.setSize h hs hset
      obtain ⟨hs', hsteady, hless, hbelow⟩ := mem_removing (h.keeps hsteady₁.toKeeps) hs₁ hmem
      refine ⟨hs', hsteady₁.trans hsteady, fun j hj => ?_, ?_, fun j hj => ?_⟩
      · rw [hbelow j (Nat.le_of_lt hj), hparts, if_neg (Nat.ne_of_lt hj)]
      · rw [hbelow _ (Nat.le_refl _), hparts, if_pos rfl]
      · have := hless j
        rwa [hparts, if_neg (Nat.ne_of_gt hj)] at this

end SplitLayout

/-! ## Opening and trimming -/

namespace DirectSink

/-- The stores that setting the length of the open file passes through. -/
def preparing (d : DirectSink) (s : Store) (resume : Nat) (presize : Option Nat) : List Store :=
  match s.setSize d.handle resume with
  | .error _ => []
  | .ok s => s :: match presize.filter (resume < ·) with
    | none => []
    | some size =>
      match s.setSize d.handle size with
      | .error _ => []
      | .ok s => [s]

/-- The stores that opening a single file passes through. -/
def opening (s : Store) (path : Path) (resume : Nat) (presize : Option Nat) : List Store :=
  match s.createDirectories (path.parentDirectory?.getD ⟨[]⟩) with
  | (.error _, s) => [s]
  | (.ok (), s) => s :: match s.openFile path true with
    | .error _ => []
    | .ok (handle, s) => s :: preparing ⟨path, handle⟩ s resume presize

theorem getLast?_preparing (d : DirectSink) (s : Store) (resume : Nat) (presize : Option Nat) :
    (s :: d.preparing s resume presize).getLast? = some (d.prepare s resume presize).2 := by
  unfold preparing prepare
  cases s.setSize d.handle resume with
  | error e => rfl
  | ok s₁ =>
    cases presize.filter (resume < ·) with
    | none => rfl
    | some size =>
      cases hset : s₁.setSize d.handle size <;> simp only [hset] <;> rfl

theorem getLast?_opening (s : Store) (path : Path) (resume : Nat) (presize : Option Nat) :
    (opening s path resume presize).getLast? = some (openAt s path resume presize).2 := by
  unfold opening openAt
  simp only
  cases s.createDirectories (path.parentDirectory?.getD ⟨[]⟩) with
  | mk made s₁ =>
    cases made with
    | error e => rfl
    | ok _ =>
      cases hopen : s₁.openFile path true with
      | error e => simp only [hopen]; rfl
      | ok opened =>
        simp only [hopen]
        rw [List.getLast?_cons, getLast?_preparing]
        rfl

end DirectSink

/-- The stores that opening the sink at a place passes through. -/
def Placement.opening (p : Placement) (s : Store) (kind : StrategyKind) (size : Nat) : List Store :=
  match p with
  | direct path resume =>
    DirectSink.opening s path resume (if kind = .parallel then some size else none)
  | split l resume =>
    match l.claimDirectory s with
    | (.error _, s) => [s]
    | (.ok (), s) => s :: l.discarding s resume

theorem Placement.getLast?_opening (p : Placement) (s : Store) (kind : StrategyKind) (size : Nat) :
    (p.opening s kind size).getLast? = some (p.openSink s kind size).2 := by
  cases p with
  | direct path resume =>
    simp only [opening, openSink, DirectSink.getLast?_opening]
    cases DirectSink.openAt s path resume (if kind = .parallel then some size else none) with
    | mk r s₁ => cases r <;> rfl
  | split l resume =>
    simp only [opening, openSink, SplitSink.openAt]
    cases l.claimDirectory s with
    | mk claimed s₁ =>
      cases claimed with
      | error e => rfl
      | ok _ =>
        simp only [List.getLast?_cons, SplitLayout.getLast?_discarding, Option.getD_some]
        cases l.discardFrom s₁ resume with
        | mk r s₂ => cases r <;> rfl

/-- The stores that trimming a sink passes through. -/
def Sink.trimming (k : Sink) (size : Nat) : List Store :=
  match k.output with
  | .direct _ => [(k.truncate size).2.store]
  | .split p => p.layout.discarding k.store size

theorem Sink.getLast?_trimming (k : Sink) (size : Nat) :
    (k.trimming size).getLast? = some (k.truncate size).2.store := by
  obtain ⟨output, s⟩ := k
  cases output with
  | direct d => rfl
  | split p =>
    simp only [trimming, truncate, SplitSink.truncate]
    exact SplitLayout.getLast?_discarding p.layout s size

/-! ## Executing -/

theorem Session.bytes_connectMore {ρ : Type} [Remote ρ] (n : Nat) (x : Session ρ) :
    (x.connectMore n).2.progress.bytes = x.progress.bytes :=
  (connectMore_rel (R := fun x y => x.progress.bytes = y.progress.bytes) (fun _ => rfl) Eq.trans
    (fun _ => rfl) n x).symm

namespace Strategy

variable {ρ : Type} [Remote ρ]

theorem bytes_crew {σ : Type} (strategy : Strategy) (granted : Option Nat) (x : Shared ρ σ) :
    (strategy.crew granted x).shared.session.progress.bytes = x.session.progress.bytes := by
  obtain ⟨n, hsession⟩ := strategy.session_crew granted x
  rw [hsession]
  exact Session.bytes_connectMore n x.session

theorem points {url : String} {resume total chunk : Nat} {good : Nat → UInt8 → Prop}
    (hserves : Serves ρ url total good) (strategy : Strategy) (moves : List Move)
    (granted : Option Nat) {x : Shared ρ Sink} (hs : x.sink.Sound)
    (htracker : x.tracker = .new url resume total chunk) (hle : resume ≤ total)
    (hfit : total < Offset.limit) (hstart : resume ≤ x.session.progress.bytes) :
    ∀ y ∈ (strategy.crew granted x).points strategy.rules (strategy.schedule moves granted x),
      AtPoint good x.session.progress.bytes resume total x.sink y := by
  obtain ⟨session, n, hcrew, hone⟩ := strategy.crew_eq granted x
  have hbytes := strategy.bytes_crew granted x
  rw [hcrew] at hbytes ⊢
  have hbytes : session.progress.bytes = x.session.progress.bytes := hbytes
  have hwork : (Crew.new { x with session } n).AtWork url good session.progress.bytes resume total
      strategy.rules x.sink [] :=
    Crew.atWork_new (x := { x with session }) hs htracker hle hfit (hbytes.symm ▸ hstart) hone
  rw [hbytes] at hwork
  exact hwork.points hserves _

end Strategy

/-! ## Attempts and downloads -/

/-- What can be seen of a transfer from outside: the byte counter, and what is on disk. -/
structure Moment where
  bytes : Nat
  store : Store

def Shared.moment {ρ : Type} (x : Shared ρ Sink) : Moment :=
  ⟨x.session.progress.bytes, x.sink.store⟩

namespace Transfer

variable {ρ : Type}

def moment (x : Transfer ρ) : Moment := ⟨x.session.progress.bytes, x.store⟩

/-- The moments in which a run is settled whose workers have finished. -/
def settling (run : Run ρ) (p : Placement) (size : Nat) (fault : Option StorageError)
    (executed : Except Halt Unit) (y : Shared ρ Sink) : List Moment :=
  match settleRun run p size fault executed y with
  | (.error (.failed _ _), z) =>
    (if y.tracker.persisted = size then []
      else (y.sink.trimming y.tracker.persisted).map (⟨y.session.progress.bytes, ·⟩)) ++ [z.moment]
  | (_, z) => [z.moment]

variable [Remote ρ]

/-- The strategy with which an attempt opens its sink, if it gets so far. -/
def chosenKind? (x : Transfer ρ) (job : Job) (p : Placement) (size : Nat) : Option StrategyKind :=
  let x := { x with session := x.session.advanceTo p.resume }
  let x := x.enter (if 0 < p.resume then .resuming else .downloading)
  let workers := TransferSettings.clampWorkers job.request.workers p.kind
  let chunk := job.settings.effectiveChunk job.request.chunk workers
  match x.session.connect with
  | (.error _, _) => none
  | (.ok (), session) =>
    match Offset.sub size p.resume with
    | .error _ => none
    | .ok remaining =>
      match findStrategy { x with session } job workers remaining chunk with
      | (.error _, _) => none
      | (.ok kind, _) => some kind

/-- The moments of an attempt from where it has chosen the place `p`. -/
def runMoments (x : Transfer ρ) (job : Job) (conditions : Conditions) (p : Placement) (size : Nat) :
    List Moment :=
  let bytes := max x.session.progress.bytes p.resume
  ⟨bytes, x.store⟩ ::
    ((x.chosenKind? job p size).elim [] fun kind => (p.opening x.store kind size).map (⟨bytes, ·⟩)) ++
    match x.prepareRun job p size with
    | (.error _, y) => [y.moment]
    | (.ok run, _) =>
      let (executed, y) := run.strategy.execute conditions.moves conditions.granted run.shared
      ((run.strategy.crew conditions.granted run.shared).points run.strategy.rules
        (run.strategy.schedule conditions.moves conditions.granted run.shared)).map Shared.moment ++
      settling run p size conditions.syncFault executed y

/-- The moments of an attempt at an object of `size` bytes. -/
def attemptMoments (job : Job) (conditions : Conditions) (size : Nat) (x : Transfer ρ) :
    List Moment :=
  x.moment ::
    match x.choosePlace job conditions size with
    | (.error _, y) => [y.moment]
    | (.ok p, y) =>
      y.moment ::
        if y.cancelled then []
        else if size ≤ p.resume then [(attempt job conditions x).2.moment]
        else y.runMoments job conditions p size

/-- The moments of a transfer whose attempts have the moments `moments`, from attempt `number`. -/
def retryMoments (policy : RetryPolicy)
    (attempt : Nat → Transfer ρ → Except AttemptHalt Outcome × Transfer ρ)
    (moments : Nat → Transfer ρ → List Moment) (stops : Nat → Bool) : (left number : Nat) →
    Transfer ρ → List Moment :=
  fun left number x => moments number x ++
    match attempt number x with
    | (.error (.failed error _), x) =>
      match waitAfter policy error number, left with
      | .ok (some delay), left + 1 =>
        let x := x.pause delay (stops number)
        if x.session.cancelled then []
        else retryMoments policy attempt moments stops left (number + 1) x
      | _, _ => []
    | _ => []

/-- The moments of a download of an object of `size` bytes. -/
def moments (job : Job) (conditions : Nat → Conditions) (size : Nat) (x : Transfer ρ) :
    List Moment :=
  let policy := job.settings.retry
  retryMoments policy (fun number => attempt job (conditions number))
    (fun number => attemptMoments job (conditions number) size)
    (fun number => (conditions number).stopsInWait) (max policy.transferAttempts 1 - 1) 1 x

/-! ## Preparing and settling -/

theorem bytes_findStrategy (x : Transfer ρ) (job : Job) (workers remaining chunk : Nat) :
    (x.findStrategy job workers remaining chunk).2.session.progress.bytes =
      x.session.progress.bytes := by
  unfold findStrategy
  split
  · have hprobe : (x.session.probe job.request.url).2.progress.bytes = x.session.progress.bytes := by
      have hask := x.session.bytes_ask ⟨0, job.request.url, some ⟨0, 0, Nat.le_refl 0⟩⟩
      unfold Session.probe
      simp only
      split <;> (rename_i heq; rw [heq] at hask; exact hask)
    split <;> (rename_i heq; rw [heq] at hprobe; exact hprobe)
  · rfl

/-- An attempt that gets ready counts the bytes below its resume offset as reported, and then opens
its sink. -/
theorem chosenKind?_cases (x : Transfer ρ) (job : Job) (p : Placement) (size : Nat) :
    ∃ session : Session ρ, session.progress.bytes = max x.session.progress.bytes p.resume ∧
      (x.chosenKind? job p size = none ∧
          (∃ halt, x.prepareRun job p size = (.error halt, { x with session })) ∨
        p.resume ≤ size ∧ ∃ kind workers chunk, x.chosenKind? job p size = some kind ∧
          x.prepareRun job p size = openRun { x with session } job p size workers chunk kind) := by
  unfold chosenKind? prepareRun
  simp only [enter]
  generalize hentered : (x.session.advanceTo p.resume).enter _ = entered
  have hbytes : entered.connect.2.progress.bytes = max x.session.progress.bytes p.resume := by
    rw [← hentered]
    rfl
  cases hconnect : entered.connect with
  | mk connected session =>
    rw [hconnect] at hbytes
    cases connected with
    | error e => exact ⟨session, hbytes, Or.inl ⟨rfl, _, rfl⟩⟩
    | ok _ =>
      cases hsub : Offset.sub size p.resume with
      | error abort => exact ⟨session, hbytes, Or.inl ⟨rfl, _, rfl⟩⟩
      | ok remaining =>
        have hfound := bytes_findStrategy ⟨session, x.store⟩ job
          (TransferSettings.clampWorkers job.request.workers p.kind) remaining
          (job.settings.effectiveChunk job.request.chunk
            (TransferSettings.clampWorkers job.request.workers p.kind))
        obtain ⟨r, session', hfind⟩ := findStrategy_spec ⟨session, x.store⟩ job
          (TransferSettings.clampWorkers job.request.workers p.kind) remaining
          (job.settings.effectiveChunk job.request.chunk
            (TransferSettings.clampWorkers job.request.workers p.kind))
        rw [hfind] at hfound
        simp only [hfind]
        cases r with
        | error abort => exact ⟨session', hfound.trans hbytes, Or.inl ⟨rfl, _, rfl⟩⟩
        | ok kind =>
          exact ⟨session', hfound.trans hbytes,
            Or.inr ⟨Offset.le_of_sub_eq_ok hsub, kind, _, _, rfl, rfl⟩⟩

/-- How an attempt gets ready that has chosen the place `p`. -/
inductive Prepares (x : Transfer ρ) (job : Job) (p : Placement) (size : Nat)
    (session : Session ρ) : Prop
  /-- It ends before it opens its sink. -/
  | early {halt : AttemptHalt} (chosen : x.chosenKind? job p size = none)
      (result : x.prepareRun job p size = (.error halt, { x with session }))
  /-- Its sink cannot be opened. -/
  | closed {kind : StrategyKind} {halt : Halt} {store : Store} (le : p.resume ≤ size)
      (chosen : x.chosenKind? job p size = some kind)
      (opening : p.openSink x.store kind size = (.error halt, store))
      (result : x.prepareRun job p size = (.error (halt.leaving p.resume), ⟨session, store⟩))
  | ready {kind : StrategyKind} {sink : Sink} {store : Store} {strategy : Strategy}
      {workers chunk : Nat} (le : p.resume ≤ size) (chosen : x.chosenKind? job p size = some kind)
      (alone : kind = .parallel ∨ ∃ policy, strategy = .sequential policy)
      (opening : p.openSink x.store kind size = (.ok sink, store))
      (result : x.prepareRun job p size = (.ok ⟨strategy, workers, chunk, session, sink,
        .new job.request.url p.resume size chunk⟩, ⟨session, store⟩))

theorem prepares (x : Transfer ρ) (job : Job) (p : Placement) (size : Nat) :
    ∃ session : Session ρ, session.progress.bytes = max x.session.progress.bytes p.resume ∧
      x.Prepares job p size session := by
  obtain ⟨session, hbytes, ⟨hkind, halt, hprepare⟩ | ⟨hle, kind, workers, chunk, hkind, hprepare⟩⟩ :=
    x.chosenKind?_cases job p size
  · exact ⟨session, hbytes, .early hkind hprepare⟩
  · refine ⟨session, hbytes, ?_⟩
    simp only [openRun] at hprepare
    cases hopen : p.openSink x.store kind size with
    | mk opened store =>
      rw [hopen] at hprepare
      cases opened with
      | error halt => exact .closed hle hkind hopen hprepare
      | ok sink =>
        refine .ready hle hkind ?_ hopen hprepare
        by_cases hparallel : kind = .parallel
        · exact Or.inl hparallel
        · exact Or.inr ⟨_, if_neg hparallel⟩

omit [Remote ρ] in
/-- A run is settled on what its workers have left, or while that is trimmed. -/
theorem mem_settling {run : Run ρ} {p : Placement} {size : Nat} {fault : Option StorageError}
    {executed : Except Halt Unit} {y : Shared ρ Sink}
    (hcomplete : y.tracker.isComplete = .ok (decide (y.tracker.persisted = size)))
    {m : Moment} (hm : m ∈ settling run p size fault executed y) :
    m.bytes = y.session.progress.bytes ∧ ∃ s : Store, s.Alike m.store ∧
      (s = y.sink.store ∨ y.tracker.persisted ≠ size ∧ s ∈ y.sink.trimming y.tracker.persisted) := by
  have hsettled := settled run p size fault executed hcomplete
  unfold settling at hm
  generalize settleRun run p size fault executed y = result at hsettled hm
  cases hsettled with
  | aborted =>
    obtain rfl := List.mem_singleton.mp hm
    exact ⟨rfl, _, .refl _, Or.inl rfl⟩
  | stored =>
    obtain rfl := List.mem_singleton.mp hm
    exact ⟨rfl, _, Sink.alike_tryFlush y.sink fault, Or.inl rfl⟩
  | unflushed full =>
    rw [if_pos full] at hm
    obtain rfl := List.mem_singleton.mp hm
    exact ⟨rfl, _, Sink.alike_tryFlush y.sink fault, Or.inl rfl⟩
  | trimmed short =>
    rw [if_neg short] at hm
    rcases List.mem_append.mp hm with hm | hm
    · obtain ⟨s, hs, rfl⟩ := List.mem_map.mp hm
      exact ⟨rfl, s, .refl s, Or.inr ⟨short, hs⟩⟩
    · obtain rfl := List.mem_singleton.mp hm
      exact ⟨rfl, _, Sink.alike_tryFlush _ fault, Or.inr ⟨short,
        List.mem_of_getLast? (y.sink.getLast?_trimming y.tracker.persisted)⟩⟩

/-! ## Where moments come from -/

/-- What an attempt does that has chosen the place `p`, at one of its moments. -/
inductive OfRun (x : Transfer ρ) (job : Job) (conditions : Conditions) (p : Placement) (size : Nat) :
    Moment → Prop
  /-- It has counted the bytes below its resume offset, and does not open its sink yet. -/
  | counted : OfRun x job conditions p size ⟨max x.session.progress.bytes p.resume, x.store⟩
  /-- It opens its sink. -/
  | opening {kind : StrategyKind} {s : Store} (chosen : x.chosenKind? job p size = some kind)
      (mem : s ∈ p.opening x.store kind size) :
      OfRun x job conditions p size ⟨max x.session.progress.bytes p.resume, s⟩
  /-- Its workers are at work, or what they have left is settled. -/
  | running {kind : StrategyKind} {run : Run ρ} {store : Store} {m : Moment}
      (chosen : x.chosenKind? job p size = some kind)
      (opened : p.openSink x.store kind size = (.ok run.shared.sink, store)) (le : p.resume ≤ size)
      (alone : kind = .parallel ∨ ∃ policy, run.strategy = .sequential policy)
      (tracker : run.shared.tracker = .new job.request.url p.resume size run.chunk)
      (bytes : run.shared.session.progress.bytes = max x.session.progress.bytes p.resume)
      (mem : (∃ y ∈ (run.strategy.crew conditions.granted run.shared).points run.strategy.rules
            (run.strategy.schedule conditions.moves conditions.granted run.shared), y.moment = m) ∨
        m ∈ settling run p size conditions.syncFault
          (run.strategy.execute conditions.moves conditions.granted run.shared).1
          (run.strategy.execute conditions.moves conditions.granted run.shared).2) :
      OfRun x job conditions p size m

theorem ofRun_of_mem {x : Transfer ρ} {job : Job} {conditions : Conditions} {p : Placement}
    {size : Nat} {m : Moment} (hm : m ∈ x.runMoments job conditions p size) :
    x.OfRun job conditions p size m := by
  obtain ⟨session, hbytes, hprepares⟩ := x.prepares job p size
  unfold runMoments at hm
  rcases List.mem_append.mp hm with hm | hm
  · rcases List.mem_cons.mp hm with rfl | hm
    · exact .counted
    · cases hchosen : x.chosenKind? job p size with
      | none => rw [hchosen] at hm; cases hm
      | some kind =>
        rw [hchosen] at hm
        obtain ⟨s, hs, rfl⟩ := List.mem_map.mp hm
        exact .opening hchosen hs
  · cases hprepares with
    | early chosen result =>
      rw [result] at hm
      obtain rfl := List.mem_singleton.mp hm
      show x.OfRun job conditions p size ⟨session.progress.bytes, x.store⟩
      rw [hbytes]
      exact .counted
    | @closed kind halt store le chosen opening result =>
      rw [result] at hm
      obtain rfl := List.mem_singleton.mp hm
      have hlast := Placement.getLast?_opening p x.store kind size
      rw [opening] at hlast
      show x.OfRun job conditions p size ⟨session.progress.bytes, store⟩
      rw [hbytes]
      exact .opening chosen (List.mem_of_getLast? hlast)
    | @ready kind sink store strategy workers chunk le chosen alone opening result =>
      rw [result] at hm
      let run : Run ρ := ⟨strategy, workers, chunk, session, sink,
        .new job.request.url p.resume size chunk⟩
      have hmem := (List.mem_append.mp hm).imp_left List.mem_map.mp
      exact OfRun.running chosen opening le alone (show run.shared.tracker = _ from rfl) hbytes hmem

/-- What an attempt does at one of its moments. -/
inductive OfAttempt (job : Job) (conditions : Conditions) (size : Nat) (x : Transfer ρ) :
    Moment → Prop
  | start : OfAttempt job conditions size x x.moment
  /-- It has looked for a place. -/
  | placed {found : Except Halt Placement} {y : Transfer ρ}
      (place : x.choosePlace job conditions size = (found, y)) :
      OfAttempt job conditions size x y.moment
  /-- All of the object is there already. -/
  | complete {p : Placement} {y : Transfer ρ}
      (place : x.choosePlace job conditions size = (.ok p, y)) (calm : y.cancelled = false)
      (le : size ≤ p.resume) : OfAttempt job conditions size x (attempt job conditions x).2.moment
  | run {p : Placement} {y : Transfer ρ} {m : Moment}
      (place : x.choosePlace job conditions size = (.ok p, y)) (calm : y.cancelled = false)
      (lt : p.resume < size) (mem : m ∈ y.runMoments job conditions p size) :
      OfAttempt job conditions size x m

theorem ofAttempt_of_mem {x : Transfer ρ} {job : Job} {conditions : Conditions} {size : Nat}
    {m : Moment} (hm : m ∈ attemptMoments job conditions size x) :
    OfAttempt job conditions size x m := by
  unfold attemptMoments at hm
  rcases List.mem_cons.mp hm with rfl | hm
  · exact .start
  cases hchoose : x.choosePlace job conditions size with
  | mk found y =>
    rw [hchoose] at hm
    cases found with
    | error halt =>
      obtain rfl := List.mem_singleton.mp hm
      exact .placed hchoose
    | ok p =>
      rcases List.mem_cons.mp hm with rfl | hm
      · exact .placed hchoose
      split at hm
      · cases hm
      rename_i hcalm
      split at hm
      · obtain rfl := List.mem_singleton.mp hm
        exact .complete hchoose (Bool.eq_false_iff.mpr hcalm) ‹_›
      · exact .run hchoose (Bool.eq_false_iff.mpr hcalm) (Nat.not_le.mp ‹_›) hm

/-! ## The last moments -/

omit [Remote ρ] in
theorem getLast?_settling (run : Run ρ) (p : Placement) (size : Nat) (fault : Option StorageError)
    (executed : Except Halt Unit) (y : Shared ρ Sink) :
    (settling run p size fault executed y).getLast? =
      some (settleRun run p size fault executed y).2.moment := by
  unfold settling
  cases settleRun run p size fault executed y with
  | mk r z =>
    cases r with
    | ok outcome => rfl
    | error halt =>
      cases halt with
      | aborted abort => rfl
      | failed e persisted => exact List.getLast?_concat ..

theorem getLast?_runMoments (x : Transfer ρ) (job : Job) (conditions : Conditions) (p : Placement)
    (size : Nat) : (x.runMoments job conditions p size).getLast? =
      some (x.runRanged job conditions p size).2.moment := by
  unfold runMoments runRanged
  cases x.prepareRun job p size with
  | mk prepared y =>
    cases prepared with
    | error halt => exact List.getLast?_concat
    | ok run =>
      simp only [List.getLast?_append, getLast?_settling, Option.some_or]

theorem getLast?_attemptMoments {site : Site} {job : Job} {size : Nat}
    (hasks : site.Asks ρ size job) (hpos : 0 < size) (conditions : Conditions) (x : Transfer ρ) :
    (attemptMoments job conditions size x).getLast? =
      some (attempt job conditions x).2.moment := by
  have heq := attempt_eq hasks hpos conditions x
  unfold attemptMoments
  cases hchoose : x.choosePlace job conditions size with
  | mk chosen y =>
    rw [hchoose] at heq
    cases chosen with
    | error halt => rw [heq]; rfl
    | ok p =>
      simp only at heq ⊢
      split
      · rename_i hcancelled
        rw [heq, if_pos hcancelled]
        rfl
      · rename_i hcalm
        split
        · rfl
        · rename_i hlt
          rw [if_neg hcalm, if_neg hlt] at heq
          rw [List.getLast?_cons, List.getLast?_cons, getLast?_runMoments, heq]
          rfl

/-! ## The moments of the attempts -/

variable {job : Job} {conditions : Nat → Conditions} {size k : Nat} {x₀ x : Transfer ρ}

theorem Starts.moments_eq (size : Nat) (h : Starts job conditions x₀ k x) :
    ∃ before, moments job conditions size x₀ = before ++
      retryMoments job.settings.retry (fun number => attempt job (conditions number))
        (fun number => attemptMoments job (conditions number) size)
        (fun number => (conditions number).stopsInWait)
        (max job.settings.retry.transferAttempts 1 - k) k x := by
  induction h with
  | first => exact ⟨[], rfl⟩
  | @next k n x y e delay before failed waits calm ih =>
    obtain ⟨earlier, heq⟩ := ih
    have hmore := lt_of_waitAfter waits
    have hleft : max job.settings.retry.transferAttempts 1 - k =
      (max job.settings.retry.transferAttempts 1 - (k + 1)) + 1 := by omega
    have hcalm : (y.pause delay (conditions k).stopsInWait).session.cancelled = false := calm
    refine ⟨earlier ++ attemptMoments job (conditions k) size x, ?_⟩
    rw [heq, retryMoments.eq_def, List.append_assoc]
    simp only [failed, waits, hleft, hcalm]
    rfl

theorem mem_moments {m : Moment} : m ∈ moments job conditions size x₀ ↔
    ∃ k x, Starts job conditions x₀ k x ∧ m ∈ attemptMoments job (conditions k) size x := by
  constructor
  · have hall : ∀ left k x, Starts job conditions x₀ k x →
        m ∈ retryMoments job.settings.retry (fun number => attempt job (conditions number))
          (fun number => attemptMoments job (conditions number) size)
          (fun number => (conditions number).stopsInWait) left k x →
        ∃ k x, Starts job conditions x₀ k x ∧ m ∈ attemptMoments job (conditions k) size x := by
      intro left
      induction left with
      | zero =>
        intro k x hstart hm
        rw [retryMoments.eq_def] at hm
        rcases List.mem_append.mp hm with hm | hm
        · exact ⟨k, x, hstart, hm⟩
        · split at hm
          · split at hm
            · cases ‹0 = _ + 1›
            · cases hm
          · cases hm
      | succ left ih =>
        intro k x hstart hm
        rw [retryMoments.eq_def] at hm
        rcases List.mem_append.mp hm with hm | hm
        · exact ⟨k, x, hstart, hm⟩
        · split at hm
          · rename_i e n y hfailed
            split at hm
            · rename_i delay left' hwaits heq
              obtain rfl := Nat.succ.inj heq
              simp only at hm
              split at hm
              · cases hm
              · rename_i hcalm
                exact ih (k + 1) _ (.next hstart hfailed hwaits (Bool.eq_false_iff.mpr hcalm)) hm
            · cases hm
          · cases hm
    exact hall _ 1 x₀ .first
  · rintro ⟨k, x, hstart, hm⟩
    obtain ⟨before, heq⟩ := hstart.moments_eq size
    rw [heq, retryMoments.eq_def]
    exact List.mem_append_right _ (List.mem_append_left _ hm)

end Transfer

end RangeTransfer
