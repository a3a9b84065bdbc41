import RangeTransfer.Proofs.Attempt.Arithmetic
import RangeTransfer.Proofs.Sink.Overflow
import RangeTransfer.Proofs.Transfer.Cancelled
import RangeTransfer.Proofs.Transfer.Setup
/-!
# The arithmetic of an attempt

The numbers of an attempt are its resume offset, what its workers compute, and the steps over a
split directory. The resume offset is at most the size, and the workers stay within the object at
every moment. So an attempt leaves 64 bits in a split directory only, at one of three points
(`Transfer.Overflows`), and it does so there for sure (`Transfer.overflow_iff`): when it counts the
bytes of a directory in which no part is missing, and when it opens or trims a sink behind whose cut
no part is missing. Whatever else aborts it is a crash.
-/

namespace RangeTransfer
open Store

/-! ## Places -/

namespace Placement

variable {p : Placement} {s : Store} {abort : Abort}

/-- The place is a split directory whose bytes cannot be counted. -/
def Overfull (p : Placement) (s : Store) (size : Nat) : Prop :=
  match p with
  | direct _ _ => False
  | split l _ => l.Overfull s size

/-- The place is a split directory, and what is discarded when it is opened is endless. -/
def Endless (p : Placement) (s : Store) : Prop :=
  match p with
  | direct _ _ => False
  | split l resume => ∃ s₁, l.claimDirectory s = (.ok (), s₁) ∧ l.Endless s₁ resume

theorem openSink_aborted_iff {kind : StrategyKind} {size : Nat} (hs : s.WellFormed) :
    (p.openSink s kind size).1 = .error (.aborted abort) ↔
      abort = .overflow .add ∧ p.Endless s := by
  cases p with
  | direct path resume =>
    refine iff_of_false ?_ fun hright => hright.2
    unfold openSink
    simp only
    split <;> nofun
  | split l resume =>
    refine Iff.trans ?_ (SplitSink.openAt_aborted_iff hs)
    unfold openSink
    simp only
    cases SplitSink.openAt s l resume with
    | mk r s₁ =>
      cases r with
      | error halt => simp only [Except.error.injEq]
      | ok k => exact iff_of_false nofun nofun

end Placement

theorem Site.resumeAt_eq_error_iff {site : Site} {moved : Option Path} {s : Store} {size : Nat}
    {abort : Abort} (hfit : size < Offset.limit) : site.resumeAt moved s size = .error abort ↔
      abort = .overflow .multiply ∧ (site.placement moved 0).Overfull s size := by
  obtain ⟨url, target, layout, partSize, fallback⟩ := site
  cases layout with
  | direct => exact iff_of_false nofun fun hright => hright.2
  | split => exact SplitLayout.existingSize_eq_error_iff hfit

/-! ## Crews -/

namespace Strategy

variable {ρ : Type} [Remote ρ] {url : String} {resume total chunk : Nat} {x : Shared ρ Sink}

theorem inRange (strategy : Strategy) (granted : Option Nat) (hs : x.sink.Sound)
    (htracker : x.tracker = .new url resume total chunk) (hle : resume ≤ total)
    (hfit : total < Offset.limit) (moves : List Move) :
    ((strategy.crew granted x).after strategy.rules moves).InRange := by
  obtain ⟨session, n, hcrew, -⟩ := strategy.crew_eq granted x
  have hsolitary := strategy.solitary_crew granted x
  rw [hcrew] at hsolitary ⊢
  have hstart : (Crew.new { x with session } n).shared.tracker =
      .new url resume total chunk := htracker
  refine Crew.inRange_after (serves_any ρ url total) hsolitary
    (Crew.accounted_new (x := { x with session }) htracker hle hfit n)
    (Crew.faithful_new (x := { x with session }) hs htracker n) (fun abort hmem => ?_) ?_ hfit moves
  · cases List.eq_of_mem_replicate hmem
  · rw [hstart]
    exact hle

theorem crash_of_aborted (strategy : Strategy) (moves : List Move) (granted : Option Nat)
    (hs : x.sink.Sound) (htracker : x.tracker = .new url resume total chunk) (hle : resume ≤ total)
    (hfit : total < Offset.limit) {abort : Abort}
    (h : (strategy.execute moves granted x).1 = .error (.aborted abort)) :
    ∃ reason, abort = .crash reason :=
  (strategy.inRange granted hs htracker hle hfit _).crashes abort
    (strategy.died_of_aborted moves granted h)

end Strategy

namespace Transfer

variable {ρ : Type}

/-! ## Settling -/

theorem trim_eq_error_iff {k : Sink} {n : Nat} {fault : Option StorageError} {abort : Abort} :
    trim k n fault = .error abort ↔ (k.truncate n).1 = .error (.aborted abort) := by
  unfold trim
  rcases k.truncate n with ⟨halt | _, k'⟩
  · cases halt with
    | failed e => exact iff_of_false nofun nofun
    | aborted abort' => simp only [Except.error.injEq, Halt.aborted.injEq]
  · exact iff_of_false nofun nofun

theorem settleRun_aborted_iff {run : Run ρ} {p : Placement} {size : Nat}
    {fault : Option StorageError} {executed : Except Halt Unit} {y : Shared ρ Sink} {abort : Abort}
    (hcomplete : y.tracker.isComplete = .ok (decide (y.tracker.persisted = size)))
    (hno : ∀ abort, executed ≠ .error (.aborted abort)) :
    (settleRun run p size fault executed y).1 = .error (.aborted abort) ↔
      y.tracker.persisted ≠ size ∧
        (y.sink.truncate y.tracker.persisted).1 = .error (.aborted abort) := by
  rw [settleRun_eq run p size hcomplete hno, ← trim_eq_error_iff]
  by_cases hfull : y.tracker.persisted = size
  · rw [if_pos hfull]
    refine iff_of_false (fun h => ?_) fun h => h.1 hfull
    split at h <;> cases h
  · obtain ⟨e, he⟩ := exists_shortfall hcomplete hno
    rw [if_neg hfull, he]
    simp only [ne_eq, hfull, not_false_eq_true, true_and]
    cases trim y.sink y.tracker.persisted fault with
    | error abort' => simp only [Except.error.injEq, AttemptHalt.aborted.injEq]
    | ok sink => exact iff_of_false nofun nofun

/-! ## Attempts -/

variable [Remote ρ] {job : Job} {conditions : Conditions} {size : Nat} {x y : Transfer ρ}
  {p : Placement} {run : Run ρ} {abort : Abort}

theorem choosePlace_aborted_iff (hfit : size < Offset.limit) :
    (x.choosePlace job conditions size).1 = .error (.aborted abort) ↔
      abort = .overflow .multiply ∧ ∃ moved s,
        x.store.usableParent (Site.ofJob job size).fallback (Site.ofJob job size).path =
          (.ok moved, s) ∧ ((Site.ofJob job size).placement moved 0).Overfull s size := by
  obtain ⟨z, hchoose, -⟩ := x.choosePlace_eq job conditions size
  have hplace := (Site.ofJob job size).place_of_settings job.settings rfl rfl x.store size
  rw [hchoose, show job.request.target = (Site.ofJob job size).target from rfl, hplace]
  cases x.store.usableParent (Site.ofJob job size).fallback (Site.ofJob job size).path with
  | mk usable s =>
    cases usable with
    | error e => exact iff_of_false nofun fun ⟨_, _, _, h, _⟩ => nomatch h
    | ok moved =>
      have herror : (Site.ofJob job size).resumeAt moved s size = .error abort ↔
          abort = .overflow .multiply ∧ ((Site.ofJob job size).placement moved 0).Overfull s size :=
        Site.resumeAt_eq_error_iff hfit
      have hsome : (∃ moved' s', ((Except.ok moved : Except TransferError (Option Path)), s) =
          (.ok moved', s') ∧ ((Site.ofJob job size).placement moved' 0).Overfull s' size) ↔
          ((Site.ofJob job size).placement moved 0).Overfull s size :=
        ⟨fun ⟨_, _, heq, h⟩ => by cases heq; exact h, fun h => ⟨moved, s, rfl, h⟩⟩
      rw [hsome, ← herror]
      simp only
      cases (Site.ofJob job size).resumeAt moved s size with
      | error abort' => simp only [Except.error.injEq, Halt.aborted.injEq]
      | ok resume => exact iff_of_false nofun nofun

theorem crash_of_findStrategy {workers remaining chunk : Nat}
    (h : (x.findStrategy job workers remaining chunk).1 = .error abort) :
    ∃ reason, abort = .crash reason := by
  unfold findStrategy at h
  split at h
  · split at h
    · rename_i hprobe
      cases h
      unfold Session.probe at hprobe
      simp only at hprobe
      split at hprobe <;> cases hprobe
      exact ⟨_, rfl⟩
    · cases h
  · cases h

theorem crash_of_prepareRun (hle : p.resume ≤ size) (hnone : x.chosenKind? job p size = none)
    (h : (x.prepareRun job p size).1 = .error (.aborted abort)) :
    ∃ reason, abort = .crash reason := by
  unfold chosenKind? at hnone
  unfold prepareRun at h
  simp only [enter] at hnone h
  split at h
  · cases h
  · rename_i session hconnect
    rw [hconnect, Offset.sub_eq_ok hle] at hnone
    rw [Offset.sub_eq_ok hle] at h
    simp only at hnone h
    split at h
    · rename_i hfind
      cases h
      exact crash_of_findStrategy (congrArg Prod.fst hfind)
    · rename_i hfind
      rw [hfind] at hnone
      cases hnone

/-- Where an attempt leaves 64 bits, and by which operation. -/
inductive Overflows (x : Transfer ρ) (job : Job) (conditions : Conditions) (size : Nat) :
    Arithmetic → Prop
  /-- It cannot count the bytes of the directory. -/
  | counting {moved : Option Path} {s : Store}
      (usable : x.store.usableParent (Site.ofJob job size).fallback (Site.ofJob job size).path =
        (.ok moved, s))
      (overfull : ((Site.ofJob job size).placement moved 0).Overfull s size) :
      x.Overflows job conditions size .multiply
  /-- It comes to open its sink, and what is behind the resume offset is endless. -/
  | opening {p : Placement} {y : Transfer ρ} {kind : StrategyKind}
      (chosen : x.choosePlace job conditions size = (.ok p, y)) (calm : y.cancelled = false)
      (lt : p.resume < size) (strategy : y.chosenKind? job p size = some kind)
      (endless : p.Endless y.store) : x.Overflows job conditions size .add
  /-- It has not got all bytes, and what is behind the watermark is endless when it trims its
  sink. -/
  | trimming {p : Placement} {run : Run ρ} (opens : x.Opens job conditions size p run)
      (ended : ∀ abort, (run.strategy.execute conditions.moves conditions.granted run.shared).1 ≠
        .error (.aborted abort))
      (short : (run.strategy.execute conditions.moves conditions.granted
        run.shared).2.tracker.persisted ≠ size)
      (endless : (run.strategy.execute conditions.moves conditions.granted run.shared).2.sink.Endless
        (run.strategy.execute conditions.moves conditions.granted run.shared).2.tracker.persisted) :
      x.Overflows job conditions size .add

theorem not_overflows_multiply (hpart : job.settings.partSize < Offset.limit)
    (hsize : size < lengthLimit) : ¬ x.Overflows job conditions size .multiply := by
  intro h
  cases h with
  | @counting moved s _ hoverfull =>
    unfold Site.placement at hoverfull
    split at hoverfull
    · exact hoverfull
    · refine SplitLayout.not_overfull hsize ?_ hoverfull
      have hpositive : max job.settings.partSize 1 < Offset.limit :=
        Nat.max_lt.mpr ⟨hpart, by decide⟩
      cases moved with
      | none => exact hpositive
      | some parent => exact Nat.max_lt.mpr ⟨hpositive, by decide⟩

namespace Ready

theorem executed (h : Ready p size run) (hfit : size < Offset.limit) (conditions : Conditions) :
    let executed := run.strategy.execute conditions.moves conditions.granted run.shared
    executed.2.sink.Sound ∧
      executed.2.tracker.isComplete = .ok (decide (executed.2.tracker.persisted = size)) ∧
      ∀ abort, executed.1 = .error (.aborted abort) → ∃ reason, abort = .crash reason := by
  intro executed
  obtain ⟨url, chunk, htracker⟩ := h.tracker
  have hexecuted := run.strategy.executed (serves_any ρ url size) conditions.moves
    conditions.granted h.sound htracker h.resume_le hfit
  exact ⟨hexecuted.sound, hexecuted.complete, fun abort =>
    run.strategy.crash_of_aborted conditions.moves conditions.granted h.sound htracker
      h.resume_le hfit⟩

end Ready

theorem aborted_of_overflows {operation : Arithmetic} (hs : x.store.WellFormed)
    (hsize : x.size? job = some size) (hfit : size < Offset.limit)
    (h : x.Overflows job conditions size operation) :
    (attempt job conditions x).1 = .error (.aborted (.overflow operation)) := by
  cases h with
  | counting husable hoverfull =>
    have habort : (x.choosePlace job conditions size).1 =
        .error (.aborted (.overflow .multiply)) :=
      (choosePlace_aborted_iff hfit).mpr ⟨rfl, _, _, husable, hoverfull⟩
    rw [attempt_of_size hsize]
    cases hchoose : x.choosePlace job conditions size with
    | mk chosen y =>
      rw [hchoose] at habort
      cases habort
      rfl
  | @opening p y kind hchoose hcalm hlt hkind hendless =>
    have habort : (p.openSink y.store kind size).1 = .error (.aborted (.overflow .add)) :=
      (Placement.openSink_aborted_iff (wellFormed_of_chosen hs hchoose)).mpr ⟨rfl, hendless⟩
    rw [attempt_of_chosen hsize hchoose hcalm hlt]
    unfold runRanged
    obtain ⟨session, -, hprepares⟩ := y.prepares job p size
    cases hprepares with
    | early hnone _ => cases hkind.symm.trans hnone
    | closed _ hkind' hopening hresult =>
      cases hkind.symm.trans hkind'
      rw [hopening] at habort
      cases habort
      rw [hresult]
      rfl
    | ready _ hkind' _ hopening _ =>
      cases hkind.symm.trans hkind'
      rw [hopening] at habort
      cases habort
  | @trimming p run hopens hended hshort hendless =>
    obtain ⟨hsound, hcomplete, -⟩ := (hopens.ready hs).executed hfit conditions
    rw [hopens.attempt_eq hsize]
    exact (settleRun_aborted_iff hcomplete hended).mpr
      ⟨hshort, (Sink.truncate_aborted_iff hsound).mpr ⟨rfl, hendless⟩⟩

theorem overflows_or_crash_of_opens (hs : x.store.WellFormed) (hsize : x.size? job = some size)
    (hfit : size < Offset.limit) (hopens : x.Opens job conditions size p run)
    (h : (attempt job conditions x).1 = .error (.aborted abort)) :
    (∃ operation, abort = .overflow operation ∧ x.Overflows job conditions size operation) ∨
      ∃ reason, abort = .crash reason := by
  obtain ⟨hsound, hcomplete, hcrash⟩ := (hopens.ready hs).executed hfit conditions
  rw [hopens.attempt_eq hsize] at h
  by_cases habort : ∃ abort', (run.strategy.execute conditions.moves conditions.granted
      run.shared).1 = .error (.aborted abort')
  · obtain ⟨abort', hexecuted⟩ := habort
    rw [hexecuted] at h
    cases h
    exact Or.inr (hcrash _ hexecuted)
  · have hended := not_exists.mp habort
    obtain ⟨hshort, htruncate⟩ := (settleRun_aborted_iff hcomplete hended).mp h
    obtain ⟨rfl, hendless⟩ := (Sink.truncate_aborted_iff hsound).mp htruncate
    exact Or.inl ⟨_, rfl, .trimming hopens hended hshort hendless⟩

theorem overflows_or_crash_of_unopened (hs : x.store.WellFormed)
    (hchoose : x.choosePlace job conditions size = (.ok p, y)) (hcalm : y.cancelled = false)
    (hlt : p.resume < size) (hunopened : ¬ ∃ run, x.Opens job conditions size p run)
    (h : (y.runRanged job conditions p size).1 = .error (.aborted abort)) :
    (∃ operation, abort = .overflow operation ∧ x.Overflows job conditions size operation) ∨
      ∃ reason, abort = .crash reason := by
  obtain ⟨session, -, hprepares⟩ := y.prepares job p size
  unfold runRanged at h
  cases hprepares with
  | early hnone hresult =>
    have hprepare : (y.prepareRun job p size).1 = .error (.aborted abort) := by
      rw [hresult] at h ⊢
      exact congrArg Except.error (Except.error.inj h)
    exact Or.inr (crash_of_prepareRun (Nat.le_of_lt hlt) hnone hprepare)
  | @closed kind halt _ _ hkind hopening hresult =>
    rw [hresult] at h
    cases halt with
    | failed e => cases h
    | aborted abort' =>
      cases h
      obtain ⟨rfl, hendless⟩ :=
        (Placement.openSink_aborted_iff (wellFormed_of_chosen hs hchoose)).mp
          (congrArg Prod.fst hopening)
      exact Or.inl ⟨_, rfl, .opening hchoose hcalm hlt hkind hendless⟩
  | ready _ _ _ _ hresult =>
    exact absurd ⟨_, y, hchoose, hcalm, hlt, congrArg Prod.fst hresult⟩ hunopened

theorem overflows_or_crash (hs : x.store.WellFormed) (hsize : x.size? job = some size)
    (hfit : size < Offset.limit) (h : (attempt job conditions x).1 = .error (.aborted abort)) :
    (∃ operation, abort = .overflow operation ∧ x.Overflows job conditions size operation) ∨
      ∃ reason, abort = .crash reason := by
  by_cases hopened : ∃ p run, x.Opens job conditions size p run
  · obtain ⟨p, run, hopens⟩ := hopened
    exact overflows_or_crash_of_opens hs hsize hfit hopens h
  · rw [attempt_of_size hsize] at h
    cases hchoose : x.choosePlace job conditions size with
    | mk chosen y =>
      rw [hchoose] at h
      cases chosen with
      | error halt =>
        cases halt with
        | failed e => cases h
        | aborted abort' =>
          cases h
          obtain ⟨rfl, moved, s, husable, hoverfull⟩ :=
            (choosePlace_aborted_iff hfit).mp (congrArg Prod.fst hchoose)
          exact Or.inl ⟨_, rfl, .counting husable hoverfull⟩
      | ok p =>
        simp only at h
        split at h
        · cases h
        · rename_i hcalm
          split at h
          · cases h
          · rename_i hlt
            exact overflows_or_crash_of_unopened hs hchoose (Bool.eq_false_iff.mpr hcalm)
              (Nat.not_le.mp hlt) (fun hrun => hopened ⟨p, hrun⟩) h

/-- An attempt at an object of `size` bytes leaves 64 bits exactly at one of these points. Otherwise
it is aborted by a crash only, and everything that its workers compute is in range, at every moment
of every schedule. -/
theorem overflow_iff (conditions : Conditions) (hs : x.store.WellFormed)
    (hsize : x.size? job = some size) (hfit : size < Offset.limit) :
    (∀ operation, (attempt job conditions x).1 = .error (.aborted (.overflow operation)) ↔
      x.Overflows job conditions size operation) ∧
    (∀ abort, (attempt job conditions x).1 = .error (.aborted abort) →
      (∃ operation, abort = .overflow operation) ∨ ∃ reason, abort = .crash reason) ∧
    ∀ p run, x.Opens job conditions size p run → p.resume ≤ size ∧ ∀ moves,
      ((run.strategy.crew conditions.granted run.shared).after run.strategy.rules moves).InRange := by
  refine ⟨fun operation => ⟨fun h => ?_, aborted_of_overflows hs hsize hfit⟩, fun abort h => ?_,
    fun p run hopens => ?_⟩
  · rcases overflows_or_crash hs hsize hfit h with ⟨operation', heq, hoverflows⟩ | ⟨reason, heq⟩
    · cases heq
      exact hoverflows
    · cases heq
  · exact (overflows_or_crash hs hsize hfit h).imp_left fun ⟨operation, heq, _⟩ => ⟨operation, heq⟩
  · have hready := hopens.ready hs
    obtain ⟨url, chunk, htracker⟩ := hready.tracker
    exact ⟨hready.resume_le, run.strategy.inRange conditions.granted hready.sound htracker
      hready.resume_le hfit⟩

/-- An attempt at the sample in a fresh directory stays within 64 bits. -/
theorem overflow_iff_firstTwo :
    firstTwo.store.WellFormed ∧ firstTwo.size? twiceJob = some sample.size ∧
    sample.size < Offset.limit ∧
    (∀ operation, ¬ firstTwo.Overflows twiceJob .calm sample.size operation) ∧
    ∃ p run, firstTwo.Opens twiceJob .calm sample.size p run ∧ p.resume ≤ sample.size ∧ ∀ moves,
      ((run.strategy.crew none run.shared).after run.strategy.rules moves).InRange := by
  have hs : firstTwo.store.WellFormed := wellFormed_fresh []
  have hsize : firstTwo.size? twiceJob = some sample.size := rfl
  have hfit : sample.size < Offset.limit := by decide
  obtain ⟨hoverflow, -, hrange⟩ := overflow_iff .calm hs hsize hfit
  have hfailed : (attempt twiceJob .calm firstTwo).1 =
      .error (.failed (.transport "archive" "withheld") 2) := by decide +kernel
  have hopens : ∃ run, firstTwo.Opens twiceJob .calm sample.size (byteSite.placement none 0) run :=
    ⟨_, _, rfl, rfl, by decide, rfl⟩
  obtain ⟨run, hopens⟩ := hopens
  refine ⟨hs, hsize, hfit, fun operation h => ?_, _, run, hopens, hrange _ run hopens⟩
  have haborted := (hoverflow operation).mpr h
  rw [hfailed] at haborted
  cases haborted

/-- Parts of a third of all numbers, rounded up. -/
abbrev thirds : SplitLayout := .new ⟨[100]⟩ 6148914691236517206

/-- Two such parts, and a third one of one byte. -/
abbrev threeThirds : Store :=
  let made := (SplitSink.openAt (.fresh []) thirds 0).2
  let first := extended made (thirds.partPath 0) thirds.partSize
  extended (extended first (thirds.partPath 1) thirds.partSize) (thirds.partPath 2) 1

abbrev thirdsJob : Job :=
  ⟨⟨"http://h/f", ⟨[100]⟩, 2 * thirds.partSize + 1, 1, 1, .split⟩,
    { TransferSettings.standard with retry := .single, partSize := thirds.partSize }⟩

/-- An attempt that finds the three parts complete, which hold less than 64-bit numbers can count,
multiplies by the length of a full part and overflows. -/
theorem overflows_threeThirds :
    let size := 2 * thirds.partSize + 1
    size < Offset.limit ∧ thirds.partSize < lengthLimit ∧ thirds.partCount size = 3 ∧
    (∀ j < 3, thirds.partComplete threeThirds size j = true) ∧
    (attempt thirdsJob .calm ((Archive.upTo 0 : Archive sample).transfer threeThirds)).1 =
      .error (.aborted (.overflow .multiply)) := by
  refine ⟨by decide, by decide, by decide, ?_, ?_⟩
  · decide +kernel
  · decide +kernel

end Transfer

end RangeTransfer
