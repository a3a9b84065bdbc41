import RangeTransfer.Proofs.Attempt.Fates
import RangeTransfer.Proofs.Layout.Resume
import RangeTransfer.Proofs.Remote.Serving
import RangeTransfer.Proofs.Transfer.KeptPrefix
/-!
# What a pool keeps

Suppose that whether a range can be fetched depends on the range alone. Then the result of an
attempt by a pool depends neither on the number of workers nor on the order of their steps: it
succeeds if all ranges are good, and else fails with the first offset of the lowest bad range, below
which all bytes are there (`Transfer.kept_by_pool`). What is on disk is this prefix of the object
and nothing else, but for parts that are stranded when the attempt is trimmed: the trim removes the
parts behind the cut up to the first that is missing, and it depends on the order of the steps which
ones are there by then (`Transfer.kept_depends_on_threads`).
-/

namespace RangeTransfer
open Store

/-! ## The bytes on disk -/

namespace Placement

/-- The bytes of the object below `n` are at this place, each in its part, and no others are, behind
a gap or not. -/
def HoldsJust (p : Placement) (s : Store) (object : ByteArray) (n : Nat) : Prop :=
  match p with
  | direct path _ => (s.file? path).map Content.bytes = some (object.extract 0 n)
  | split l _ => ∀ j, l.partBody s j = object.extract (l.border n j) (l.border n (j + 1))

/-- A part with bytes lies behind the part of offset `n` and a missing part. -/
def Stranded (p : Placement) (s : Store) (n : Nat) : Prop :=
  match p with
  | direct _ _ => False
  | split l _ => l.Stranded s (n / l.partSize)

/-- No part is longer than it is in an object of `total` bytes, and none is behind the end. -/
def Clear (p : Placement) (s : Store) (total : Nat) : Prop :=
  match p with
  | direct _ _ => True
  | split l _ => l.Within s total

variable {p : Placement} {k : Sink} {object : ByteArray} {n : Nat}

theorem within_openSink {s s' : Store} {kind : StrategyKind} {total : Nat} (hs : s.WellFormed)
    (h : p.openSink s kind total = (.ok k, s')) (hle : p.resume ≤ total) (hclear : p.Clear k.store total) :
    k.Within total := by
  cases p with
  | direct path resume =>
    obtain ⟨fd, s₁, -, rfl, -, hprepared⟩ := openSink_direct hs h
    show (s'.content fd).size ≤ total
    rcases hprepared.size with heq | ⟨hpresize, -⟩
    · rw [heq]
      exact hle
    · split at hpresize
      · exact Nat.le_of_eq (Option.some.inj hpresize).symm
      · cases hpresize
  | split l resume =>
    obtain ⟨s₁, -, rfl, -⟩ := openSink_split hs h
    exact hclear

theorem holdsJust_truncate (hof : p.Of k) (hs : k.Sound) (hle : n ≤ object.size)
    (hright : Agrees (IsByte object) k.byteAt 0 n) (hok : (k.truncate n).1 = .ok ())
    (fault : Option StorageError) :
    p.HoldsJust ((k.truncate n).2.tryFlush fault).2.store object n ↔
      p.NoLong k.store n ∧ ¬ p.Stranded k.store n := by
  obtain ⟨output, s⟩ := k
  cases p with
  | direct path resume =>
    exact (keepsJust_truncate hof hs hle hright hok fault).trans (and_iff_left id).symm
  | split layout resume =>
    cases output with
    | direct d => exact hof.elim
    | split q =>
      obtain rfl : q.layout = layout := hof
      obtain ⟨r, s', heq, ⟨d, -, hd, -⟩, -, -, hcut, hgap⟩ := Sink.truncate_split hs n
      rw [heq] at hok ⊢
      obtain ⟨m, hparts⟩ := hd.cutParts (hcut (Or.inl hok)) (hgap hok) fun o ho hnone => by
        obtain ⟨x, hx, -⟩ := hright o (Nat.zero_le _) ho
        exact absurd hnone (by rw [show byteOf _ _ o = some x from hx]; simp)
      exact hparts.bodies_eq (hcut (Or.inl hok)) (hgap hok) hright hle

theorem holdsJust_whole (hof : p.Of k) (hs : k.Sound) (hwithin : k.Within object.size)
    (hright : Agrees (IsByte object) k.byteAt 0 object.size) (fault : Option StorageError) :
    p.HoldsJust (k.tryFlush fault).2.store object object.size := by
  have halike := Sink.alike_tryFlush k fault
  obtain ⟨output, s⟩ := k
  cases p with
  | direct path resume =>
    cases output with
    | split q => exact hof.elim
    | direct d =>
      obtain rfl : d.path = path := hof
      obtain ⟨-, place, hfind⟩ := hs
      have hle : (s.content d.handle).size ≤ object.size := hwithin
      have hge : object.size ≤ (s.content d.handle).size := Nat.le_of_not_lt fun hlt => by
        obtain ⟨b, hb, -⟩ := hright _ (Nat.zero_le _) hlt
        rw [show Sink.byteAt ⟨.direct d, s⟩ = (s.content d.handle).byteAt from rfl,
          Content.byteAt_of_le (Nat.le_refl _)] at hb
        cases hb
      rw [HoldsJust, halike.file?, file?_of_find hfind, Option.map_some]
      have hsize : (s.content d.handle).size = object.size - 0 := Nat.le_antisymm hle hge
      refine congrArg some (Content.bytes_eq_extract hsize (Nat.le_refl _) fun i hi => ?_)
      rw [Nat.zero_add]
      exact hright i (Nat.zero_le _) (Nat.lt_of_lt_of_le hi hle)
  | split layout resume =>
    cases output with
    | direct d => exact hof.elim
    | split q =>
      obtain rfl : q.layout = layout := hof
      intro j
      rw [SplitLayout.partBody, halike.part?, ← SplitLayout.partBody]
      by_cases hj : j < q.layout.partCount object.size
      · obtain ⟨c, hc, -, hbytes⟩ := SplitLayout.complete_part hwithin hright hj
        rw [SplitLayout.partBody, hc, Option.getD_some, hbytes]
      · have hend := Nat.not_lt.mp fun hlt => hj (SplitLayout.lt_partCount.mpr hlt)
        have hnone : q.layout.part? s j = none := by
          cases hp : q.layout.part? s j with
          | none => rfl
          | some c => exact absurd (hwithin j c hp).1 (Nat.not_lt.mpr hend)
        rw [SplitLayout.partBody_of_none hnone, eq_comm, ByteArray.extract_eq_empty_iff,
          SplitLayout.border, SplitLayout.border]
        omega

end Placement

/-! ## Pools -/

namespace Strategy

variable {ρ : Type} [Remote ρ] {strategy : Strategy} {moves : List Move} {granted : Option Nat}
  {x : Shared ρ Sink}

/-- A pool is not aborted: a thread that dies is passed over. -/
theorem execute_ne_aborted (hpool : strategy.kind = .parallel) (abort : Abort) :
    (strategy.execute moves granted x).1 ≠ .error (.aborted abort) := by
  cases strategy with
  | sequential policy => cases hpool
  | parallel workers policy spawn =>
    intro h
    simp only [execute] at h
    split at h
    · cases h
    · unfold settle at h
      split at h
      split at h <;> cases h

/-- A pool whose ranges have a fate leaves the watermark at the lowest bad range. -/
theorem persisted_pool {url : String} {resume total chunk : Nat} {good : ByteRange → Bool}
    (hpool : strategy.kind = .parallel) (htracker : x.tracker = .new url resume total chunk)
    (hle : resume ≤ total) (hfit : total < Offset.limit)
    (hthreads : (strategy.crew granted x).workers ≠ [])
    (hadvance : ∀ m ∈ moves, ∃ w, m = .advance w)
    (hfate : ∀ n, ((strategy.crew granted x).after strategy.rules
      ((strategy.schedule moves granted x).take n)).Fated good) :
    (strategy.execute moves granted x).2.tracker.persisted =
      lowestBad good total (Plan.new resume total chunk).ranges := by
  obtain ⟨session, n, hcrew, -⟩ := strategy.crew_eq granted x
  obtain ⟨-, e, ht⟩ := strategy.execute_spec moves granted x
  have hrules : strategy.rules.acceptWhole = false := by
    cases strategy with
    | sequential policy => cases hpool
    | parallel workers policy spawn => rfl
  have hn : 0 < n := Nat.pos_of_ne_zero fun hzero => hthreads (by rw [hcrew, hzero]; rfl)
  rw [ht]
  show ((strategy.crew granted x).after strategy.rules
    (strategy.schedule moves granted x)).shared.tracker.watermark.reached = _
  rw [schedule, hcrew] at hfate
  rw [schedule, hcrew, ← Crew.run_eq_after]
  exact Crew.reached_run (x := { x with session }) htracker hle hfit hrules hn hadvance hfate

end Strategy

namespace Transfer

variable {ρ : Type} [Remote ρ] {x x' : Transfer ρ} {job : Job} {conditions : Conditions}
  {placement : Placement} {run : Run ρ} {y : Shared ρ Sink} {executed : Except Halt Unit}
  {result : Except AttemptHalt Outcome} {object : ByteArray} {good : ByteRange → Bool} {n : Nat}

/-- Where the fate of each range depends on the range alone, watermark, outcome and the bytes kept
below the watermark depend neither on the number of workers nor on the order of their steps. Others
are kept only if a part was too long or is stranded. -/
theorem kept_by_pool (hs : x.store.WellFormed) (hfit : object.size < Offset.limit)
    (hopen : (x.prepareRun job placement object.size).1 = .ok run)
    (hpool : run.strategy.kind = .parallel)
    (hthreads : (run.strategy.crew conditions.granted run.shared).workers ≠ [])
    (hadvance : ∀ m ∈ conditions.moves, ∃ w, m = .advance w)
    (hfate : ∀ i, ((run.strategy.crew conditions.granted run.shared).after run.strategy.rules
      ((run.strategy.schedule conditions.moves conditions.granted run.shared).take i)).Fated good)
    (hexecute : run.strategy.execute conditions.moves conditions.granted run.shared = (executed, y))
    (hresult : x.runRanged job conditions placement object.size = (result, x'))
    (hn : n = lowestBad good object.size
      (Plan.new placement.resume object.size run.chunk).ranges) :
    y.tracker.watermark.reached = n ∧
    (n = object.size →
      ((y.sink.tryFlush conditions.syncFault).1 = .ok () →
        result = .ok (placement.outcome .parallel object.size run.chunk run.workers)) ∧
      (Truthful ρ job.request.url object →
        Agrees (IsByte object) (placement.byteAt x.store) 0 placement.resume →
        placement.Clear run.shared.sink.store object.size → placement.HoldsJust x'.store object n)) ∧
    (n ≠ object.size → (y.sink.truncate n).1 = .ok () →
      (∃ e, result = .error (.failed e n)) ∧
      (Truthful ρ job.request.url object →
        Agrees (IsByte object) (placement.byteAt x.store) 0 placement.resume →
        (placement.HoldsJust x'.store object n ↔
          placement.NoLong run.shared.sink.store n ∧ ¬ placement.Stranded y.sink.store n))) := by
  obtain ⟨hle, htracker, kind, store, hsink⟩ := opened_of_prepareRun hopen
  obtain ⟨-, hof, hsound, -⟩ := Placement.openSink_spec hs hsink
  have hpersisted : y.tracker.persisted = n := by
    rw [hn, ← run.strategy.persisted_pool hpool htracker hle hfit hthreads hadvance hfate, hexecute]
  have hno : ∀ abort, executed ≠ .error (.aborted abort) := fun abort heq =>
    run.strategy.execute_ne_aborted hpool abort (by rw [hexecute, heq])
  have hany := run.strategy.executed (serves_any ρ job.request.url object.size)
    conditions.moves conditions.granted hsound htracker hle hfit
  have hright : Truthful ρ job.request.url object →
      Agrees (IsByte object) (placement.byteAt x.store) 0 placement.resume →
      Agrees (IsByte object) y.sink.byteAt 0 n := fun htruthful hresumed => by
    have hgood := run.strategy.executed htruthful.serves conditions.moves conditions.granted hsound
      htracker hle hfit
    rw [hexecute] at hgood
    exact hpersisted ▸ hgood.agrees (Placement.agrees_openSink hs hsink hresumed)
  rw [hexecute] at hany
  have hof' : placement.Of y.sink := hof.samePlace hany.follows.place
  rw [runRanged_eq hopen, hexecute] at hresult
  refine ⟨hpersisted, fun hfull => ?_, fun hshort htrim => ?_⟩
  · rw [settleRun_eq _ placement object.size hany.complete hno, if_pos (hpersisted.trans hfull)] at hresult
    have hholds : Truthful ρ job.request.url object →
        Agrees (IsByte object) (placement.byteAt x.store) 0 placement.resume →
        placement.Clear run.shared.sink.store object.size →
        placement.HoldsJust (y.sink.tryFlush conditions.syncFault).2.store object n :=
      fun htruthful hresumed hclear => by
        have hwithin : run.shared.sink.Within object.size :=
          Placement.within_openSink hs hsink hle hclear
        rw [hfull]
        exact Placement.holdsJust_whole hof' hany.sound (hany.follows.within hwithin)
          (hfull ▸ hright htruthful hresumed) _
    generalize y.sink.tryFlush conditions.syncFault = flushed at hresult hholds ⊢
    obtain ⟨answer, sink'⟩ := flushed
    cases answer with
    | error e =>
      cases hresult
      refine ⟨fun hok => ?_, hholds⟩
      cases hok
    | ok _ =>
      cases hresult
      exact ⟨fun _ => congrArg (fun k => Except.ok (placement.outcome k _ _ _)) hpool, hholds⟩
  · obtain ⟨e, hsettle⟩ := settleRun_failed run placement conditions.syncFault hany.complete hno
      (hpersisted ▸ hshort) (hpersisted ▸ htrim)
    rw [hsettle] at hresult
    cases hresult
    refine ⟨⟨e, by rw [hpersisted]⟩, fun htruthful hresumed => ?_⟩
    rw [hpersisted, Placement.holdsJust_truncate hof' hany.sound (hpersisted ▸ hany.persisted_le)
      (hright htruthful hresumed) htrim, Placement.noLong_follows hof hsound hany.follows]

/-- The directory of the sample, in parts of one byte, and the store in which it has just been
made. -/
abbrev sampleParts : SplitLayout := .new ⟨[97]⟩ 1

abbrev madeParts : Store := (SplitSink.openAt (.fresh []) sampleParts 0).2

theorem writable_madeParts : (⟨.split ⟨sampleParts, none⟩, madeParts⟩ : Sink).Sound ∧
    (⟨.split ⟨sampleParts, none⟩, madeParts⟩ : Sink).Writable sample.size := by
  have hopen : SplitSink.openAt (.fresh []) sampleParts 0 = (.ok ⟨sampleParts, none⟩, madeParts) := by
    rfl
  have hplace : sampleParts.At madeParts [[97]] := by rfl
  obtain ⟨-, d, hd, -⟩ := SplitSink.openAt_of_absent (wellFormed_fresh []) hopen fun d hd => by
    rw [hd.inj hplace]
    rfl
  obtain rfl := hd.here.inj hplace
  exact ⟨⟨_, hd⟩, Sink.writable_split hd (SplitLayout.free_of_lt 4 (by decide) (by decide +kernel))
    (by decide) (by decide)⟩

/-- A transfer into an empty store of what an archive has of the sample. -/
abbrev sampled (m : Archive sample) : Transfer (Archive sample) := m.transfer (.fresh [])

/-- Two workers that get the first two bytes. -/
theorem kept_by_pool_firstTwo :
    ∃ run, ((sampled (.upTo 2)).prepareRun (sampleJob .split 1 1 2) samplePlace sample.size).1 =
        .ok run ∧
      run.strategy.kind = .parallel ∧ (run.strategy.crew none run.shared).workers.length = 2 ∧
      (run.strategy.execute [] none run.shared).2.tracker.watermark.reached = 2 ∧
      ∃ e, ((sampled (.upTo 2)).runRanged (sampleJob .split 1 1 2) .calm samplePlace sample.size).1 =
        .error (.failed e 2) := by
  obtain ⟨run, session, hopen, hpool, hchunk, hcrew, hcalm, hremote, htrim⟩ : ∃ run session,
      ((sampled (.upTo 2)).prepareRun (sampleJob .split 1 1 2) samplePlace sample.size).1 = .ok run ∧
      run.strategy.kind = .parallel ∧ run.chunk = 1 ∧
      run.strategy.crew none run.shared = .new ⟨session, ⟨.split ⟨sampleParts, none⟩, madeParts⟩,
        .new "http://h/f" 0 sample.size 1⟩ 2 ∧
      session.cancelled = false ∧ session.remote = .upTo 2 ∧
      ((run.strategy.execute [] none run.shared).2.sink.truncate 2).1 = .ok () :=
    ⟨_, _, rfl, rfl, rfl, rfl, rfl, rfl, by decide +kernel⟩
  have hrules : run.strategy.rules.acceptWhole = false := by
    cases hstrategy : run.strategy with
    | sequential policy => rw [hstrategy] at hpool; cases hpool
    | parallel workers policy spawn => rfl
  have hfate : ∀ i, ((run.strategy.crew none run.shared).after run.strategy.rules
      ((run.strategy.schedule [] none run.shared).take i)).Fated fun r => r.first < 2 := by
    have hserving : (run.strategy.crew none run.shared).Serving "http://h/f" (fun r => r.first < 2)
        ⟨.split ⟨sampleParts, none⟩, madeParts⟩ [] [] [] := by
      rw [hcrew]
      refine Crew.serving_new hcalm (fun r => ?_) writable_madeParts.1 (by decide) (by decide) 2
      rw [hremote]
      exact (decide_eq_decide.mpr Nat.not_lt.symm).trans decide_not
    exact fun i => hserving.fated_after hrules writable_madeParts.2
      (fun m hm => (Crew.mem_schedule hm).resolve_left List.not_mem_nil) i
  have hthreads : (run.strategy.crew Conditions.calm.granted run.shared).workers ≠ [] := by
    rw [show Conditions.calm.granted = none from rfl, hcrew]
    simp [Crew.new]
  have hbad : 2 = lowestBad (fun r => r.first < 2) sample.size
      (Plan.new samplePlace.resume sample.size run.chunk).ranges := by
    rw [hchunk]
    rfl
  obtain ⟨hreached, -, hshort⟩ := kept_by_pool (wellFormed_fresh []) (by decide) hopen hpool hthreads
    (fun m hm => absurd hm List.not_mem_nil) hfate (Prod.eta _).symm (Prod.eta _).symm hbad
  exact ⟨run, hopen, hpool, by rw [hcrew]; rfl, hreached, (hshort (by decide) htrim).1⟩

/-- An attempt with two connections at an archive that withholds the first range, with as many
threads as the system grants. -/
abbrev lastTwo (granted : Option Nat) : Except AttemptHalt Outcome × Transfer (Archive sample) :=
  (sampled ⟨fun r => r.last = 1⟩).runRanged (sampleJob .split 1 2 2) { Conditions.calm with granted }
    samplePlace sample.size

/-- With two threads the last two bytes arrive before the attempt fails, and the trim does not get
to their parts; with one thread nothing is fetched. -/
theorem kept_depends_on_threads :
    (∃ run, ((sampled ⟨fun r => r.last = 1⟩).prepareRun (sampleJob .split 1 2 2) samplePlace
        sample.size).1 = .ok run ∧ run.strategy.kind = .parallel ∧
      ∀ granted ∈ [none, some 1],
        ((run.strategy.execute [] granted run.shared).2.sink.truncate 0).1 = .ok ()) ∧
      (lastTwo none).1 = .error (.failed (.transport "archive" "withheld") 0) ∧
      (lastTwo (some 1)).1 = .error (.failed (.transport "archive" "withheld") 0) ∧
      sampleParts.partBody (lastTwo none).2.store 2 = ⟨#[2]⟩ ∧
      sampleParts.partBody (lastTwo (some 1)).2.store 2 = .empty :=
  ⟨⟨_, rfl, rfl, by decide +kernel⟩, by decide +kernel, by decide +kernel, by decide +kernel,
    by decide +kernel⟩

end Transfer

end RangeTransfer
