import RangeTransfer.Proofs.Layout.Scan
import RangeTransfer.Proofs.Remote.Archive
import RangeTransfer.Proofs.Transfer.Execution
/-!
# What a failed attempt leaves

An attempt that fails for missing bytes after its sink was opened is cut at the watermark, which it
reports. The bytes that are left are just those below the watermark (`Placement.KeepsJust`), and these
are the greatest prefix of the object that was resumed or recorded (`Transfer.kept_of_failed`). One
that fails because its bytes cannot be made durable is not cut at all. In a split directory
this needs that no part below the cut is longer than a part may be: a cut does not look at parts
behind a gap, and a write does not shorten the part that it finds.
-/

namespace RangeTransfer
open Store

/-- The store holds the bytes of the object below `n` at this place, and a reader of it finds
no more. -/
def Placement.KeepsJust (p : Placement) (s : Store) (object : ByteArray) (n : Nat) : Prop :=
  match p with
  | .direct path _ => (s.file? path).map Content.bytes = some (object.extract 0 n)
  | .split layout _ => layout.scanned s = object.extract 0 n

/-- No part of the directory below part `index` is longer than a part may be. -/
def Placement.NoLong (p : Placement) (s : Store) (index : Nat) : Prop :=
  match p with
  | .direct _ _ => True
  | .split layout _ => ∀ j < index / layout.partSize, ¬ layout.Long s j

theorem Content.bytes_setSize {object : ByteArray} {c : Content} {n : Nat} (hle : n ≤ object.size)
    (hright : Agrees (IsByte object) c.byteAt 0 n) : (c.setSize n).bytes = object.extract 0 n := by
  refine Content.bytes_eq_extract (Content.size_setSize c n) hle fun i hi => ?_
  obtain ⟨x, hx, hgood⟩ := hright i (Nat.zero_le _) hi
  rw [Nat.zero_add, Content.byteAt_setSize, if_pos (Content.size_setSize c n ▸ hi), hx]
  exact ⟨x, rfl, hgood⟩

/-- A cut of bytes of the object keeps just these, if no part below is too long. -/
theorem Placement.keepsJust_truncate {p : Placement} {k : Sink} {object : ByteArray} {n : Nat}
    (hof : p.Of k) (hs : k.Sound) (hle : n ≤ object.size)
    (hright : Agrees (IsByte object) k.byteAt 0 n) (hok : (k.truncate n).1 = .ok ())
    (fault : Option StorageError) :
    p.KeepsJust ((k.truncate n).2.tryFlush fault).2.store object n ↔ p.NoLong k.store n := by
  obtain ⟨output, s⟩ := k
  cases p <;> cases output <;> simp only [Of] at hof
  · rename_i path resume d
    obtain ⟨r, s', heq, ⟨-, place, hfind⟩, -, -, -, hcut, -⟩ := Sink.truncate_direct hs n
    rw [heq] at hok ⊢
    refine iff_of_true ?_ trivial
    show (((⟨.direct d, s'⟩ : Sink).tryFlush fault).2.store.file? path).map Content.bytes = _
    rw [(Sink.alike_tryFlush _ fault).file?, ← hof, file?_of_find hfind, Option.map_some]
    exact congrArg some (by rw [hcut hok, Content.bytes_setSize hle hright])
  · rename_i layout resume q
    obtain ⟨r, s', heq, ⟨d, -, hd, -⟩, -, -, hcut, hgap⟩ := Sink.truncate_split hs n
    rw [heq] at hok ⊢
    obtain ⟨m, hparts⟩ := hd.cutParts (hcut (Or.inl hok)) (hgap hok) fun o ho hnone => by
      obtain ⟨x, hx, -⟩ := hright o (Nat.zero_le _) ho
      exact absurd hnone (by rw [show byteOf _ _ o = some x from hx]; simp)
    rw [← hof]
    exact hparts.scanned_eq hright hle

theorem Placement.noLong_follows {p : Placement} {k k' : Sink} {total : Nat} (hof : p.Of k)
    (hs : k.Sound) (h : k.Follows total k') (n : Nat) :
    p.NoLong k'.store n ↔ p.NoLong k.store n := by
  have hlong := h.long hs
  have hof' := hof.samePlace h.place
  obtain ⟨output, s⟩ := k
  obtain ⟨output', s'⟩ := k'
  cases p <;> cases output <;> cases output' <;> simp only [Of] at hof hof'
  · exact Iff.rfl
  · rename_i layout resume q q'
    subst hof
    exact forall_congr' fun j => forall_congr' fun _ => not_congr (by
      have := hlong j
      simp only [Sink.Long, hof'] at this
      exact this)

namespace Transfer

variable {ρ : Type} [Remote ρ] {x : Transfer ρ} {job : Job} {conditions : Conditions}
  {placement : Placement} {run : Run ρ} {object : ByteArray} {e : TransferError} {n : Nat}

/-- What an attempt reports that failed for missing ranges is the greatest prefix that was resumed or
recorded as written, and just this prefix is left, unless a part below it was too long when the sink
was opened. -/
theorem kept_of_failed (htruthful : Truthful ρ job.request.url object) (hs : x.store.WellFormed)
    (hfit : object.size < Offset.limit)
    (hresumed : Agrees (IsByte object) (placement.byteAt x.store) 0 placement.resume)
    (hopen : (x.prepareRun job placement object.size).1 = .ok run)
    (hfailed : (x.runRanged job conditions placement object.size).1 = .error (.failed e n))
    (hmissing : ¬ Covered placement.resume
      (run.strategy.recorded conditions.moves conditions.granted run.shared) object.size)
    (htrim : ((run.strategy.execute conditions.moves conditions.granted run.shared).2.sink.truncate
      n).1 = .ok ()) :
    (∀ m, Covered placement.resume
        (run.strategy.recorded conditions.moves conditions.granted run.shared) m ↔ m ≤ n) ∧
      n < object.size ∧
      (placement.KeepsJust (x.runRanged job conditions placement object.size).2.store object n ↔
        placement.NoLong run.shared.sink.store n) := by
  obtain ⟨hle, htracker, kind, store, hsink⟩ := opened_of_prepareRun hopen
  obtain ⟨-, hof, hsound, -⟩ := Placement.openSink_spec hs hsink
  have hexecuted := run.strategy.executed htruthful.serves conditions.moves conditions.granted hsound
    htracker hle hfit
  have hright := hexecuted.agrees (Placement.agrees_openSink hs hsink hresumed)
  rw [runRanged_eq hopen] at hfailed ⊢
  generalize run.strategy.execute conditions.moves conditions.granted run.shared = executed at *
  have hsettled := settled run placement object.size conditions.syncFault executed.1
    hexecuted.complete
  generalize settleRun run placement object.size conditions.syncFault executed.1 executed.2 = result
    at hsettled hfailed ⊢
  cases hsettled with
  | aborted | stored => cases hfailed
  | unflushed full => exact absurd ((hexecuted.covered _).mpr (Nat.le_of_eq full.symm)) hmissing
  | trimmed short =>
    cases hfailed
    refine ⟨hexecuted.covered, Nat.lt_of_le_of_ne hexecuted.persisted_le short, ?_⟩
    rw [Placement.keepsJust_truncate (hof.samePlace hexecuted.follows.place) hexecuted.sound
      hexecuted.persisted_le hright htrim]
    exact Placement.noLong_follows hof hsound hexecuted.follows _

/-- A directory of parts of one byte. -/
abbrev samplePlace : Placement := .split (.new ⟨[97]⟩ 1) 0

/-- A transfer into an empty store that gets the first two bytes of the sample. -/
abbrev firstTwo : Transfer (Archive sample) := (Archive.upTo 2).transfer (.fresh [])

theorem kept_of_failed_firstTwo :
    ∃ run, (firstTwo.prepareRun (sampleJob .split 1 1 1) samplePlace sample.size).1 = .ok run ∧
      (firstTwo.runRanged (sampleJob .split 1 1 1) .calm samplePlace sample.size).1 =
        .error (.failed (.transport "archive" "withheld") 2) ∧
      ¬ Covered 0 (run.strategy.recorded [] none run.shared) sample.size ∧
      (∀ m, Covered 0 (run.strategy.recorded [] none run.shared) m ↔ m ≤ 2) ∧
      2 < sample.size ∧
      (samplePlace.KeepsJust (firstTwo.runRanged (sampleJob .split 1 1 1) .calm samplePlace
          sample.size).2.store sample 2 ↔
        samplePlace.NoLong run.shared.sink.store 2) := by
  have hresumed : Agrees (IsByte sample) (samplePlace.byteAt firstTwo.store) 0
      samplePlace.resume := fun o _ h => absurd h (Nat.not_lt_zero o)
  have hfailed : (firstTwo.runRanged (sampleJob .split 1 1 1) .calm samplePlace sample.size).1 =
      .error (.failed (.transport "archive" "withheld") 2) := by rfl
  obtain ⟨run, hopen, hrecorded, htrim⟩ : ∃ run,
      (firstTwo.prepareRun (sampleJob .split 1 1 1) samplePlace sample.size).1 = .ok run ∧
        (∀ r ∈ run.strategy.recorded [] none run.shared, r.pastEnd ≤ 2) ∧
        ((run.strategy.execute [] none run.shared).2.sink.truncate 2).1 = .ok () :=
    ⟨_, rfl, by decide +kernel, rfl⟩
  have hmissing : ¬ Covered 0 (run.strategy.recorded [] none run.shared) sample.size := by
    intro hcov
    rcases hcov 2 (by decide) with hlow | ⟨r, hr, -, hpast⟩
    · exact absurd hlow (Nat.not_lt_zero 2)
    · exact absurd hpast (Nat.not_lt.mpr (hrecorded r hr))
  exact ⟨run, hopen, hfailed, hmissing, kept_of_failed (Archive.truthful sample _)
    (wellFormed_fresh []) (by decide) hresumed hopen hfailed hmissing htrim⟩

/-- A store with a part `02` of two bytes in the directory, and nothing else. -/
abbrev longPart : Store := (storeWhole (.fresh []) ⟨[97, 47, 48, 50]⟩ ⟨#[120, 120]⟩ none).2

/-- A transfer into this store that gets the first three bytes of the sample. -/
abbrev firstThree : Transfer (Archive sample) := (Archive.upTo 3).transfer longPart

/-- The write of the third byte does not shorten the long part, and neither does the cut, which is
at the start of the next part. -/
theorem not_kept_firstThree :
    (longPart.place (sampleJob .split 1 1 1).settings ⟨[97]⟩ .split sample.size).1 =
        .ok samplePlace ∧
      (∃ run, (firstThree.prepareRun (sampleJob .split 1 1 1) samplePlace sample.size).1 =
          .ok run ∧
        ((run.strategy.execute [] none run.shared).2.sink.truncate 3).1 = .ok ()) ∧
      (firstThree.runRanged (sampleJob .split 1 1 1) .calm samplePlace sample.size).1 =
        .error (.failed (.transport "archive" "withheld") 3) ∧
      ¬ samplePlace.KeepsJust (firstThree.runRanged (sampleJob .split 1 1 1) .calm samplePlace
        sample.size).2.store sample 3 := by
  refine ⟨by rfl, ⟨_, rfl, rfl⟩, by rfl, fun hjust => ?_⟩
  have hsize : 4 = 3 := congrArg ByteArray.size hjust
  exact absurd hsize (by decide)

end Transfer

end RangeTransfer
