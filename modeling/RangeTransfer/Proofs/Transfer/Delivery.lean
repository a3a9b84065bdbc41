import RangeTransfer.Proofs.Remote.Faultless
import RangeTransfer.Proofs.Transfer.Begun
/-!
# Delivery

A download delivers the object with its first attempt if nothing fails: the remote has no faults,
the storage works, nobody raises the flag, and what is at the place already is the beginning of the
object (`Transfer.delivers`). What is on disk in the end, and what was asked for, depend neither on
the strategy nor on the order in which the workers step.

Proof. The attempt resumes at the end of the beginning (`Begun.resumes`). The probe tells which kind
of remote it is (`findStrategy_faultless`), so that a pool is made only if ranges are honoured, and
the sink that is opened has the beginning in it (`Begun.opened`). Nothing hinders the crew from then
on (`Strategy.fetches`), so the watermark comes to the end of the object; and below it all bytes are
right (`Executed.agrees`).
-/

namespace RangeTransfer
open Store

/-- The requests `data` fetch an object of `total` bytes from offset `resume` on: each planned range
once where ranges are honoured, everything at once where they are ignored. -/
def Fetches (resume total chunk : Nat) (data : List ByteRange) : (honours : Bool) → Prop
  | true => data.Perm (Plan.new resume total chunk).ranges
  | false => data.length = 1

/-! ## Strategies -/

namespace Strategy

variable {ρ : Type} [Remote ρ] {strategy : Strategy} {moves : List Move} {granted : Option Nat}
  {x : Shared ρ Sink}

omit [Remote ρ] in
/-- The threads of the strategy: a single worker needs none, of a pool at least one starts. -/
def Staffed (granted : Option Nat) : Strategy → Prop
  | sequential _ => True
  | parallel _ _ spawn => ∀ requested, 0 < requested → 0 < spawn.started requested granted

/-- The crew of the strategy once it has finished. -/
abbrev lastCrew (strategy : Strategy) (moves : List Move) (granted : Option Nat)
    (x : Shared ρ Sink) : Crew ρ Sink :=
  (strategy.crew granted x).after strategy.rules (strategy.schedule moves granted x)

theorem crew_ne_nil (h : strategy.Staffed granted) : (strategy.crew granted x).workers ≠ [] := by
  unfold crew
  cases strategy with
  | sequential policy => exact List.cons_ne_nil _ _
  | parallel workers policy spawn =>
    have hpos := h ((x.session.connectMore (workers - 1)).1 + 1) (Nat.succ_pos _)
    simp only [SpawnSettings.startThreads, if_neg fun hzero : _ ∧ _ => Nat.ne_of_gt hpos hzero.1]
    simpa [Crew.new] using Nat.ne_of_gt hpos

theorem sends_crew (strategy : Strategy) (granted : Option Nat) (x : Shared ρ Sink) :
    x.session.Sends [] (strategy.crew granted x).shared.session := by
  obtain ⟨n, hsession⟩ := strategy.session_crew granted x
  rw [hsession]
  exact x.session.sends_connectMore n

theorem execute_eq_ok (hsome : (strategy.crew granted x).workers ≠ [])
    (habort : (strategy.lastCrew moves granted x).abort? = none)
    (herror : (strategy.lastCrew moves granted x).shared.tracker.error = none) :
    strategy.execute moves granted x = (.ok (), (strategy.lastCrew moves granted x).shared) := by
  have hsettle : ∀ y : Shared ρ Sink, y.tracker.error = none → settle y = (.ok (), y) := by
    rintro ⟨session, sink, url, resume, total, plan, error, rest⟩ rfl
    rfl
  unfold lastCrew schedule at *
  rw [← Crew.run_eq_after] at habort herror ⊢
  cases strategy with
  | sequential policy =>
    simp only [crew, rules] at habort herror ⊢
    simp only [execute, habort]
    exact hsettle _ herror
  | parallel workers policy spawn =>
    simp only [execute, crew, rules] at hsome herror ⊢
    cases hstart : spawn.startThreads ((x.session.connectMore (workers - 1)).1 + 1) granted with
    | error e =>
      rw [hstart] at hsome
      exact absurd rfl hsome
    | ok n =>
      rw [hstart] at herror
      exact hsettle _ herror

theorem execute_unhindered {url : String} {total : Nat} {whole : Bool} {k₀ : Sink}
    {marked : List ByteRange} (hstaffed : strategy.Staffed granted)
    (h : (strategy.lastCrew moves granted x).Unhindered url total whole k₀ marked) :
    strategy.execute moves granted x = (.ok (), (strategy.lastCrew moves granted x).shared) ∧
      (strategy.lastCrew moves granted x).workers ≠ [] ∧
      (strategy.lastCrew moves granted x).shared.tracker.persisted = total := by
  have hfin := strategy.finished_crew moves granted x
  have hsome := crew_ne_nil (x := x) hstaffed
  have hsome' : (strategy.lastCrew moves granted x).workers ≠ [] := by
    refine List.ne_nil_of_length_pos ?_
    rw [lastCrew, Crew.length_workers_after]
    exact List.length_pos_iff.mpr hsome
  exact ⟨execute_eq_ok hsome (h.abort?_eq_none hfin) h.error, hsome', h.reached_eq hfin hsome'⟩

/-- Executing a strategy against a remote without faults succeeds and comes to the end of the
object. Where ranges are honoured it asks for each planned range once; a single worker makes one
request where they are ignored. -/
theorem fetches {url : String} {object : ByteArray} {resume chunk : Nat} {honours : Bool}
    (hfaultless : Faultless ρ url object honours)
    (hkind : honours = false → ∃ policy, strategy = .sequential policy)
    (hstaffed : strategy.Staffed granted) (hadvance : ∀ m ∈ moves, ∃ w, m = .advance w)
    (hcalm : x.session.cancelled = false) (hs : x.sink.Sound)
    (hwritable : x.sink.Writable object.size)
    (htracker : x.tracker = .new url resume object.size chunk) (hlt : resume < object.size)
    (hfit : object.size < Offset.limit) :
    ∃ (y : Shared ρ Sink) (data : List ByteRange), strategy.execute moves granted x = (.ok (), y) ∧
      y.tracker.persisted = object.size ∧ x.session.Sends (data.map some) y.session ∧
      Fetches resume object.size chunk data honours := by
  have hadvance' : ∀ m ∈ strategy.schedule moves granted x, ∃ w, m = .advance w :=
    fun m hm => (Crew.mem_schedule hm).elim (hadvance m) id
  have hfin := strategy.finished_crew moves granted x
  have htask : (strategy.lastCrew moves granted x).shared.tracker.task = _ :=
    Crew.task_after (strategy.crew granted x) (strategy.schedule moves granted x)
  have hsends := strategy.sends_crew granted x
  obtain ⟨session, sink, tracker⟩ := x
  obtain rfl : tracker = .new url resume object.size chunk := htracker
  cases honours with
  | true =>
    obtain ⟨session', n, hcrew, -⟩ := strategy.crew_eq granted
      ⟨session, sink, .new url resume object.size chunk⟩
    have hgrants := Honours.grants hfaultless hfit strategy.rules.acceptWhole
    have hsolitary := strategy.solitary_crew granted
      ⟨session, sink, .new url resume object.size chunk⟩
    rw [hcrew] at hsends hsolitary
    have hnew : (Crew.new ⟨session', sink, .new url resume object.size chunk⟩ n).Ranged url
        object.size sink session [] [] :=
      Crew.ranged_new hsends (hsends.cancelled.trans hcalm) hs (Nat.le_of_lt hlt) hfit n
    obtain ⟨data, marked, hranged⟩ := hnew.after hgrants hsolitary hwritable hadvance'
    rw [← hcrew] at hranged
    obtain ⟨hexecute, hsome, hreached⟩ := execute_unhindered hstaffed hranged.unhindered
    refine ⟨_, data, hexecute, hreached, hranged.sends, ?_⟩
    have hperm := hranged.asked_perm hfin hsome
    rw [Tracker.planned_eq_of_task htask, hcrew] at hperm
    show data.Perm (Plan.new resume object.size chunk).ranges
    rw [← Tracker.planned_new url]
    exact hperm
  | false =>
    obtain ⟨policy, rfl⟩ := hkind rfl
    have hgrants : Grants ρ url object.size (sequential policy).rules.acceptWhole true :=
      Ignores.grants hfaultless
    have hnew : (Crew.new ⟨session, sink, .new url resume object.size chunk⟩ 1).Taking url
        object.size sink session [] [] := Crew.taking_new hcalm hs hlt hfit
    obtain ⟨data, marked, htaking⟩ := hnew.after hgrants hwritable hadvance'
    obtain ⟨hexecute, hsome, hreached⟩ := execute_unhindered hstaffed htaking.unhindered
    exact ⟨_, data, hexecute, hreached, htaking.sends, htaking.one hfin⟩

end Strategy

/-! ## Attempts -/

/-- The probe by which a run finds out whether ranges are honoured, which is made if it has several
workers and more than one chunk to fetch. -/
def probes (workers remaining chunk : Nat) : List (Option ByteRange) :=
  if 1 < workers ∧ chunk < remaining then [some (.single 0)] else []

namespace Transfer

variable {ρ : Type} [Remote ρ] {object : ByteArray} {honours : Bool} {job : Job} {p : Placement}
  {conditions : Conditions} {x : Transfer ρ}

theorem findStrategy_faultless (hfaultless : Faultless ρ job.request.url object honours)
    (hpos : 0 < object.size) (x : Transfer ρ) (workers remaining chunk : Nat) :
    ∃ session, x.findStrategy job workers remaining chunk =
        (.ok (chooseKind workers remaining chunk honours), { x with session }) ∧
      x.session.Sends (probes workers remaining chunk) session := by
  unfold findStrategy probes
  by_cases hpays : 1 < workers ∧ chunk < remaining
  · obtain ⟨session, hprobe, hsends⟩ := x.session.probe_faultless hfaultless hpos
    have hpool : poolPays workers remaining chunk = true := by simpa [poolPays] using hpays
    rw [if_pos hpays, if_pos hpool, hprobe]
    exact ⟨session, rfl, hsends⟩
  · have hpool : poolPays workers remaining chunk = false := by
      rw [← Bool.not_eq_true]
      simpa [poolPays] using hpays
    rw [if_neg hpays, hpool, chooseKind, hpool]
    exact ⟨x.session, rfl, Session.Sends.refl _⟩

omit [Remote ρ] in
theorem openRun_ok {size : Nat} {kind : StrategyKind} {sink : Sink} {store : Store}
    {granted : Option Nat} (workers chunk : Nat)
    (hopen : p.openSink x.store kind size = (.ok sink, store))
    (hthreads : ∀ n, 0 < n → 0 < job.settings.spawn.started n granted) :
    ∃ run, x.openRun job p size workers chunk kind = (.ok run, { x with store }) ∧
      run.shared = ⟨x.session, sink, .new job.request.url p.resume size chunk⟩ ∧
      (kind = .sequential → ∃ policy, run.strategy = .sequential policy) ∧
      run.strategy.Staffed granted := by
  simp only [openRun, hopen]
  refine ⟨_, rfl, rfl, ?_, ?_⟩
  · rintro rfl
    exact ⟨_, rfl⟩
  · by_cases hkind : kind = .parallel
    · simp only [if_pos hkind]
      exact hthreads
    · simp only [if_neg hkind]
      exact trivial

/-- A run that is about to fetch an object of `size` bytes from a remote without faults, after the
probe if one is made. -/
structure Prepared (honours : Bool) (p : Placement) (size workers chunk : Nat) (job : Job)
    (granted : Option Nat) (x : Transfer ρ) (run : Run ρ) : Prop where
  opened : ∃ kind store, p.openSink x.store kind size = (.ok run.shared.sink, store)
  writable : run.shared.sink.Writable size
  tracker : run.shared.tracker = .new job.request.url p.resume size chunk
  sends : x.session.Sends (probes workers (size - p.resume) chunk) run.shared.session
  alone : honours = false → ∃ policy, run.strategy = .sequential policy
  staffed : run.strategy.Staffed granted

theorem prepareRun_faultless {workers chunk : Nat} {granted : Option Nat}
    (hfaultless : Faultless ρ job.request.url object honours) (hlt : p.resume < object.size)
    (hconnect : (Remote.connect x.session.remote).1 = .ok ()) (hworks : p.Works x.store object.size)
    (hthreads : ∀ n, 0 < n → 0 < job.settings.spawn.started n granted)
    (hworkers : TransferSettings.clampWorkers job.request.workers p.kind = workers)
    (hchunk : job.settings.effectiveChunk job.request.chunk workers = chunk) :
    ∃ run, (x.prepareRun job p object.size).1 = .ok run ∧
      Prepared honours p object.size workers chunk job granted x run := by
  -- the session once the connection is open
  let x₁ : Session ρ := (x.session.advanceTo p.resume).enter
    (if 0 < p.resume then .resuming else .downloading)
  have hconnected : x₁.connect = (.ok (), x₁.connect.2) := Prod.ext hconnect rfl
  have hopened : x.session.Sends [] x₁.connect.2 :=
    (x.session.sends_advanceTo p.resume).trans ((Session.sends_enter _ _).trans x₁.sends_connect)
  obtain ⟨session, hfind, hsends⟩ := findStrategy_faultless hfaultless (Nat.zero_lt_of_lt hlt)
    ⟨x₁.connect.2, x.store⟩ workers (object.size - p.resume) chunk
  obtain ⟨sink, store, hopen, hwritable⟩ :=
    hworks (chooseKind workers (object.size - p.resume) chunk honours)
  obtain ⟨run, hrun, hshared, halone, hstaffed⟩ :=
    openRun_ok (x := ⟨session, x.store⟩) workers chunk hopen hthreads
  refine ⟨run, ?_, ⟨_, store, by rw [hshared]; exact hopen⟩, by rw [hshared]; exact hwritable,
    by rw [hshared], ?_, fun hignores => halone ?_, hstaffed⟩
  · unfold prepareRun
    simp only [enter, hworkers, hchunk]
    rw [hconnected]
    simp only [Offset.sub_eq_ok (Nat.le_of_lt hlt), hfind, hrun]
  · rw [hshared, ← List.append_nil (probes _ _ _)]
    exact hopened.trans hsends
  · rw [hignores, chooseKind, Bool.and_false]
    rfl

theorem runRanged_faultless {workers chunk : Nat} {run : Run ρ} (hs : x.store.WellFormed)
    (hfit : object.size < Offset.limit) (hbegun : p.Begun x.store object)
    (hroot : x.store.Rooted p.path) (hfaultless : Faultless ρ job.request.url object honours)
    (hcalm : x.session.cancelled = false) (hadvance : ∀ m ∈ conditions.moves, ∃ w, m = .advance w)
    (hsyncs : conditions.syncFault = none)
    (hprepare : (x.prepareRun job p object.size).1 = .ok run)
    (hrun : Prepared honours p object.size workers chunk job conditions.granted x run) :
    ∃ outcome y data, x.runRanged job conditions p object.size = (.ok outcome, y) ∧
      outcome.path = p.path ∧ p.HoldsFirst y.store object object.size ∧
      x.session.Sends (data.map some ++ probes workers (object.size - p.resume) chunk) y.session ∧
      Fetches p.resume object.size chunk data honours := by
  obtain ⟨kind, store, hopen⟩ := hrun.opened
  obtain ⟨hof, hsound, hwithin, hright⟩ := hbegun.opened hs hroot hopen
  have hle := Nat.le_of_lt hbegun.proper
  obtain ⟨y, data, hexecute, hpersisted, hsends, hfetches⟩ := Strategy.fetches hfaultless hrun.alone
    hrun.staffed hadvance (hrun.sends.cancelled.trans hcalm) hsound hrun.writable hrun.tracker
    hbegun.proper hfit
  have hexecuted := run.strategy.executed hfaultless.truthful.serves conditions.moves
    conditions.granted hsound hrun.tracker hle hfit
  rw [hexecute] at hexecuted
  have hwhole := hexecuted.agrees hright
  rw [hpersisted] at hwhole
  refine ⟨p.outcome run.strategy.kind object.size run.chunk run.workers,
    ⟨y.session, (y.sink.tryFlush none).2.store⟩, data, ?_, rfl, ?_, hrun.sends.trans hsends,
    hfetches⟩
  · rw [runRanged_eq hprepare, hexecute,
      settleRun_eq run p object.size hexecuted.complete (fun abort h => by cases h),
      if_pos hpersisted, hsyncs, y.sink.tryFlush_of_no_fault]
  · exact Placement.holdsFirst_whole (hof.samePlace hexecuted.follows.place) hexecuted.sound
      (Nat.zero_lt_of_lt hbegun.proper) (hexecuted.follows.within hwithin) hwhole none

theorem sends_choosePlace (x : Transfer ρ) (job : Job) (hgoes : conditions.stopsEarly = false)
    (size : Nat) :
    x.session.Sends [] (x.choosePlace job conditions size).2.session ∧
      (x.choosePlace job conditions size).2.session.remote =
        (x.findSize job.request).2.session.remote := by
  unfold choosePlace
  simp only [hgoes, findSize]
  generalize Store.place _ _ _ _ _ = place
  cases job.request.knownSize? <;> obtain ⟨halt | p, s⟩ := place <;> exact ⟨⟨rfl, rfl⟩, rfl⟩

/-! ## Downloads -/

theorem download_of_attempt {conditions : Nat → Conditions} {outcome : Outcome} {y : Transfer ρ}
    (h : attempt job (conditions 1) x = (.ok outcome, y)) :
    download job conditions x =
      (.ok { outcome with attempts := 1 }, y.complete { outcome with attempts := 1 }) := by
  rw [download, retry.eq_def]
  simp only [h]

omit [Remote ρ] in
theorem complete_spec (outcome : Outcome) (x : Transfer ρ) :
    (x.complete outcome).store = x.store ∧
      (x.complete outcome).session.requests = x.session.requests := by
  unfold complete
  simp only
  split <;> exact ⟨rfl, rfl⟩

/-- Where nothing fails a download succeeds with its first attempt, and just the object is on disk,
whatever the sizes, the layout and the order of the steps. Each range of the plan is asked for once,
or all data by one request where ranges are ignored. -/
theorem delivers (conditions : Nat → Conditions) {site : Site} {moved : Option Path} {s : Store}
    {resume workers chunk : Nat} (hfaultless : Faultless ρ site.url object honours)
    (hasks : site.Asks ρ object.size job) (hfit : object.size < Offset.limit)
    (hs : x.store.WellFormed)
    (husable : x.store.usableParent site.fallback site.path = (.ok moved, s))
    (hbegun : (site.placement moved resume).Begun s object)
    (hworks : (site.placement moved resume).Works s object.size)
    (hconnect : (Remote.connect (x.findSize job.request).2.session.remote).1 = .ok ())
    (hcalm : x.session.cancelled = false) (hgoes : (conditions 1).stopsEarly = false)
    (hadvance : ∀ m ∈ (conditions 1).moves, ∃ w, m = .advance w)
    (hsyncs : (conditions 1).syncFault = none)
    (hthreads : ∀ n, 0 < n → 0 < job.settings.spawn.started n (conditions 1).granted)
    (hworkers : TransferSettings.clampWorkers job.request.workers site.layout = workers)
    (hchunk : job.settings.effectiveChunk job.request.chunk workers = chunk) :
    ∃ outcome y data, download job conditions x = (.ok outcome, y) ∧ outcome.attempts = 1 ∧
      outcome.path = (site.placement moved resume).path ∧
      (site.placement moved resume).HoldsFirst y.store object object.size ∧
      y.session.requests =
        data.map some ++ probes workers (object.size - resume) chunk ++ x.session.requests ∧
      Fetches resume object.size chunk data honours := by
  have hlt : (site.placement moved resume).resume < object.size := hbegun.proper
  obtain ⟨hgrows, hroot⟩ := usableParent_spec hs husable
  -- the attempt comes to the place, and asks for nothing on the way
  obtain ⟨y, hchoose, rfl⟩ := choosePlace_of_resumes hasks (conditions 1)
    husable (hbegun.resumes hfit)
  obtain ⟨hchosen, hremote⟩ := x.sends_choosePlace job hgoes object.size
  rw [hchoose] at hchosen hremote
  have hbusy : y.cancelled = false := hchosen.cancelled.trans hcalm
  obtain ⟨run, hprepare, hrun⟩ := prepareRun_faultless (x := y) (hasks.url ▸ hfaultless) hlt
    (by rw [hremote]; exact hconnect) hworks hthreads
    (by rw [Site.kind_placement]; exact hworkers) hchunk
  obtain ⟨outcome, z, data, hfetched, hpath, hholds, hsends, hfetches⟩ :=
    runRanged_faultless (hgrows.wellFormed hs) hfit hbegun
      (by rw [Site.path_placement]; exact hroot) (hasks.url ▸ hfaultless) hbusy hadvance hsyncs
      hprepare hrun
  rw [Site.resume_placement] at hlt hsends hfetches
  have hattempt : attempt job (conditions 1) x = (.ok outcome, z) := by
    rw [attempt_eq hasks (Nat.zero_lt_of_lt hlt), hchoose]
    simp only [hbusy, Site.resume_placement, if_neg (Nat.not_le.mpr hlt)]
    exact hfetched
  obtain ⟨hstore, hsame⟩ := complete_spec { outcome with attempts := 1 } z
  refine ⟨_, _, data, download_of_attempt hattempt, rfl, hpath, hstore ▸ hholds, ?_, hfetches⟩
  rw [hsame, hsends.requests, hchosen.requests]
  rfl

/-- A transfer of the sample from a server that honours ranges and accepts a single connection. -/
abbrev servedParts : Transfer (Server sample true) := ⟨⟨⟨1⟩, .fresh, []⟩, .fresh []⟩

/-- The first two bytes of the sample, in a single file. -/
abbrev halfFile : Store := (storeWhole (.fresh []) ⟨[97]⟩ ⟨#[0, 1]⟩ none).2

theorem wellFormed_halfFile : halfFile.WellFormed := by
  obtain ⟨made, s₁, -, ⟨e, hopen⟩ | ⟨fd, place, r, s, hopen, hs, -⟩⟩ :=
    DirectSink.openAt_spec (wellFormed_fresh []) ⟨[97]⟩ 0 none
  · have hok : (DirectSink.openAt (.fresh []) ⟨[97]⟩ 0 none).1.isOk = true := rfl
    rw [hopen] at hok
    cases hok
  · obtain rfl : (DirectSink.openAt (.fresh []) ⟨[97]⟩ 0 none).2 = s := congrArg Prod.snd hopen
    exact hs.of_entries rfl rfl rfl

/-- A transfer of what is missing there, from a server that ignores ranges. -/
abbrev servedFile : Transfer (Server sample false) := ⟨⟨⟨1⟩, .fresh, []⟩, halfFile⟩

/-- The place for a single file. -/
abbrev fileSite : Site := ⟨"http://h/f", ⟨[97]⟩, .direct, 1, none⟩

theorem delivers_sample :
    (∃ (outcome : Outcome) (y : Transfer (Server sample true)) (data : List ByteRange),
      download (sampleJob .split 1 1 2) (fun _ => .calm) servedParts = (.ok outcome, y) ∧
      outcome.attempts = 1 ∧ (byteSite.placement none 0).HoldsFirst y.store sample 4 ∧
      y.session.requests = data.map some ++ [some (.single 0)] ∧
      data.Perm (Plan.new 0 4 1).ranges) ∧
    ∃ (outcome : Outcome) (y : Transfer (Server sample false)) (data : List ByteRange),
      download (sampleJob .direct 1 1 1) (fun _ => .calm) servedFile = (.ok outcome, y) ∧
      outcome.attempts = 1 ∧ (fileSite.placement none 2).HoldsFirst y.store sample 4 ∧
      y.session.requests = data.map some ∧ data.length = 1 := by
  have hspawn : ∀ n, 0 < n → 0 < SpawnSettings.standard.started n none := fun n hn => hn
  constructor
  · have hasks : byteSite.Asks (Server sample true) sample.size (sampleJob .split 1 1 2) :=
      ⟨rfl, rfl, rfl, rfl, rfl, Or.inl rfl⟩
    have hbegun : (byteSite.placement none 0).Begun (.fresh []) sample :=
      ⟨by decide, Or.inl ⟨rfl, by decide +kernel, by decide +kernel⟩⟩
    have hworks : (byteSite.placement none 0).Works (.fresh []) sample.size := fun kind =>
      ⟨_, madeParts, rfl, writable_madeParts.2⟩
    obtain ⟨outcome, y, data, hdownload, hattempts, -, hholds, hrequests, hfetches⟩ :=
      delivers (x := servedParts) (fun _ => .calm) (Server.faultless sample true _) hasks
        (by decide) (wellFormed_fresh []) (byteSite_usable _) hbegun hworks rfl rfl rfl nofun rfl hspawn
        rfl rfl
    exact ⟨outcome, y, data, hdownload, hattempts, hholds, hrequests.trans (List.append_nil _),
      hfetches⟩
  · have hasks : fileSite.Asks (Server sample false) sample.size (sampleJob .direct 1 1 1) :=
      ⟨rfl, rfl, rfl, rfl, rfl, Or.inl rfl⟩
    have husable : halfFile.usableParent fileSite.fallback fileSite.path =
        (.ok none, halfFile) := by
      rw [usableParent, show fileSite.path.parentDirectory? = none by decide +kernel]
    have hbegun : (fileSite.placement none 2).Begun halfFile sample :=
      ⟨by decide, Or.inr ⟨rfl, (by decide +kernel :
        (halfFile.file? ⟨[97]⟩).map Content.bytes = some (sample.extract 0 2))⟩⟩
    have hworks : (fileSite.placement none 2).Works halfFile sample.size := fun kind => by
      cases kind <;> exact ⟨_, _, rfl, Sink.writable_direct (by decide)⟩
    obtain ⟨outcome, y, data, hdownload, hattempts, -, hholds, hrequests, hfetches⟩ :=
      delivers (x := servedFile) (fun _ => .calm) (Server.faultless sample false _) hasks
        (by decide) wellFormed_halfFile husable hbegun hworks rfl rfl rfl nofun rfl hspawn rfl rfl
    rw [List.append_assoc] at hrequests
    exact ⟨outcome, y, data, hdownload, hattempts, hholds, hrequests.trans (List.append_nil _),
      hfetches⟩

end Transfer

end RangeTransfer
