import RangeTransfer.Proofs.Transfer.Attempts
import RangeTransfer.Proofs.Transfer.KeptPrefix
/-!
# What a retry loses

The next attempt knows nothing of the one before but what is on disk. A single file that was trimmed
is as long as what was kept, so the next attempt resumes just there; a split directory counts by
whole parts, so it resumes from the start of the part in which the kept bytes end
(`Transfer.resumes_next`). In a split directory this needs that no part below is longer than a part
may be: a part that is too long does not count, and the attempts that follow start over from there.

Proof. An attempt that is followed by another one either left the place as it found it or trimmed
its sink to what it reports (`attempt_failed`). All bytes below that are there: those below its own
resume offset because the directory was counted (`Site.byteAt_of_resumes`), the others because they
were recorded. So the trim tells what the next attempt counts (`Site.resumes_truncate`), and since no
directory has gone, the next attempt comes to the same place.
-/

namespace RangeTransfer
open Store

/-- Where an attempt takes up an object of which `n` bytes are at this place: behind the bytes in a
single file, behind the last whole part in a split directory. -/
def Placement.restart (p : Placement) (n : Nat) : Nat :=
  match p with
  | .direct _ _ => n
  | .split l _ => n / l.partSize * l.partSize

theorem Store.directResume_of_find {s : Store} {path : Path} {place : Location} {fd : Handle}
    {size : Nat} (h : s.find path = .ok (place, .file fd.number)) (hlt : (s.content fd).size < size) :
    s.directResume path size = (s.content fd).size := by
  simp only [directResume, reportedSize?, h, Option.getD_some]
  exact if_pos hlt

namespace Site

variable {x : Site} {moved : Option Path} {resume n size : Nat} {k : Sink}

theorem resumes_truncate (hof : (x.placement moved resume).Of k) (hs : k.Sound) (hlt : n < size)
    (hfit : size < Offset.limit) (hok : (k.truncate n).1 = .ok ())
    (hthere : x.layout = .split → ∀ o < n, k.byteAt o ≠ none) (fault : Option StorageError) :
    ∃ resume',
      (x.placement moved resume').Resumes ((k.truncate n).2.tryFlush fault).2.store size ∧
      resume' ≤ (x.placement moved resume).restart n ∧
      (resume' = (x.placement moved resume).restart n ↔
        (x.placement moved resume).NoLong k.store n) := by
  obtain ⟨url, target, layout, partSize, fallback⟩ := x
  obtain ⟨output, s⟩ := k
  cases layout with
  | direct =>
    cases output with
    | split q => exact hof.elim
    | direct d =>
      have hpath : d.path = target.movedTo moved := hof
      obtain ⟨r, s', heq, ⟨-, place, hfind⟩, -, -, -, hcut, -⟩ := Sink.truncate_direct hs n
      rw [heq] at hok ⊢
      have halike := Sink.alike_tryFlush ⟨.direct d, s'⟩ fault
      have hsize : (((⟨.direct d, s'⟩ : Sink).tryFlush fault).2.store.content d.handle).size = n := by
        rw [halike.content, hcut hok, Content.size_setSize]
      refine ⟨n, ?_, Nat.le_refl n, iff_of_true rfl trivial⟩
      show n = Store.directResume _ (target.movedTo moved) size
      rw [← hpath, directResume_of_find ((halike.find _).trans hfind) (by rw [hsize]; exact hlt), hsize]
  | split =>
    cases output with
    | direct d => exact hof.elim
    | split q =>
      have hlayout : q.layout = (SplitLayout.forTarget target partSize).movedTo moved := hof
      obtain ⟨r, s', heq, -, -, -, hcut, -⟩ := Sink.truncate_split hs n
      rw [heq] at hok ⊢
      have hthere : ∀ o < n, byteOf q.layout.partSize (q.layout.part? s) o ≠ none := hthere rfl
      have hcut := hcut (Or.inl hok)
      rw [hlayout] at hcut hthere
      exact hcut.existingSize hlt hfit hthere

theorem byteAt_of_resumes {s : Store} (hresumes : (x.placement moved resume).Resumes s size)
    (hlt : resume < size) (hfit : size < Offset.limit) (hsplit : x.layout = .split) {o : Nat}
    (ho : o < resume) : (x.placement moved resume).byteAt s o ≠ none := by
  obtain ⟨url, target, layout, partSize, fallback⟩ := x
  obtain rfl : layout = .split := hsplit
  exact SplitLayout.byteOf_of_existingSize hresumes hlt hfit ho

end Site

namespace Transfer

variable {ρ : Type} [Remote ρ] {site : Site} {moved : Option Path} {job : Job} {size resume n : Nat}

theorem Failed.resumes {s s' : Store} {conditions : Conditions} {run : Run ρ}
    (h : Failed (site.placement moved resume) s size conditions run n s') (hs : s.WellFormed)
    (hfit : size < Offset.limit) (hlt : resume < size)
    (hresumes : (site.placement moved resume).Resumes s size)
    (htrim : ((run.strategy.execute conditions.moves conditions.granted run.shared).2.sink.truncate
      n).1 = .ok ()) :
    ∃ resume', (site.placement moved resume').Resumes s' size ∧
      resume' ≤ (site.placement moved resume).restart n ∧
      (resume' = (site.placement moved resume).restart n ↔
        (site.placement moved resume).NoLong run.shared.sink.store n) := by
  obtain ⟨hof, hsound, -, hexecuted⟩ := h.sink hs hfit
  have hthere : site.layout = .split → ∀ o < n,
      (run.strategy.execute conditions.moves conditions.granted run.shared).2.sink.byteAt o ≠ none := by
    intro hsplit o ho
    obtain ⟨kind, store, hopen⟩ := h.opened
    have hopened : Agrees (fun _ _ => True) run.shared.sink.byteAt 0
        (site.placement moved resume).resume :=
      Placement.agrees_openSink hs hopen fun o _ ho => by
        have ho' : o < resume := by rwa [Site.resume_placement] at ho
        obtain ⟨b, hb⟩ := Option.ne_none_iff_exists'.mp
          (Site.byteAt_of_resumes hresumes hlt hfit hsplit ho')
        exact ⟨b, hb, trivial⟩
    obtain ⟨b, hb, -⟩ := hexecuted.agrees hopened o (Nat.zero_le o) (h.reported ▸ ho)
    rw [hb]
    exact Option.some_ne_none b
  rw [h.left]
  have hnext := Site.resumes_truncate (hof.samePlace hexecuted.follows.place) hexecuted.sound
    h.incomplete hfit htrim hthere conditions.syncFault
  simp only [Placement.noLong_follows hof hsound hexecuted.follows] at hnext
  exact hnext

variable {conditions : Nat → Conditions} {x₀ x x' y : Transfer ρ} {k : Nat} {e : TransferError}
  {s : Store}

/-- The attempt after one that had opened its sink resumes where the bytes that were kept end, or
the last whole part of these, unless a part below was too long; else it resumes from where the one
before did. It asks for nothing below that. -/
theorem resumes_next (hasks : site.Asks ρ size job) (hpos : 0 < size) (hfit : size < Offset.limit)
    (hs : x₀.store.WellFormed) (hstart : Starts job conditions x₀ k x)
    (hfailed : attempt job (conditions k) x = (.error (.failed e n), y))
    (hnext : Starts job conditions x₀ (k + 1) x')
    (husable : x.store.usableParent site.fallback site.path = (.ok moved, s))
    (hstays : moved = none ∨
      x'.store.usableParent site.fallback site.path = (.ok moved, x'.store)) :
    (∃ resume z, x.choosePlace job (conditions k) size = (.ok (site.placement moved resume), z) ∧
      (∀ run, x.Opens job (conditions k) size (site.placement moved resume) run →
        ((run.strategy.execute (conditions k).moves (conditions k).granted
          run.shared).2.sink.truncate n).1 = .ok () →
        ∃ resume' z',
          x'.choosePlace job (conditions (k + 1)) size = (.ok (site.placement moved resume'), z') ∧
          resume' ≤ (site.placement moved resume).restart n ∧
          (resume' = (site.placement moved resume).restart n ↔
            (site.placement moved resume).NoLong run.shared.sink.store n)) ∧
      ((∀ run, ¬ x.Opens job (conditions k) size (site.placement moved resume) run) →
        ∃ z', x'.choosePlace job (conditions (k + 1)) size =
          (.ok (site.placement moved resume), z'))) ∧
    ∀ p z', x'.choosePlace job (conditions (k + 1)) size = (.ok p, z') →
      x'.RequestsFrom job (conditions (k + 1)) size p := by
  have hsx := hstart.wellFormed hasks hpos hfit hs
  obtain ⟨hretry, hstore⟩ := hstart.retryable hnext hfailed
  obtain ⟨moved', resume, s', husable', hresumes, ⟨z, hchoose⟩, hhow⟩ :=
    attempt_failed hasks hpos hfit hsx hfailed hretry
  rw [husable] at husable'
  cases husable'
  have hs₁ := (usableParent_spec hsx husable).1.wellFormed hsx
  -- the next attempt makes no directory, as the one before has left those that it found
  have hagain : x'.store.usableParent site.fallback site.path = (.ok moved, x'.store) := by
    refine hstays.elim (fun hnone => ?_) id
    subst hnone
    refine usableParent_again hsx husable ?_
    rw [hstore]
    rcases hhow with ⟨hsame, -⟩ | ⟨run, -, hleft⟩
    · exact hsame ▸ Keeps.refl s
    · exact (hleft.wellFormed hs₁ hfit).2
  refine ⟨⟨resume, z, hchoose, fun run hopens htrim => ?_, fun hno => ?_⟩,
    fun p z' hchoose' => requestsFrom_attempt hasks hpos hfit hchoose'⟩
  · rcases hhow with ⟨-, hno⟩ | ⟨run', hopens', hleft⟩
    · exact absurd hopens (hno run)
    · obtain rfl := hopens.unique hopens'
      have hlt : resume < size := by
        obtain ⟨_, -, -, hlt, -⟩ := hopens
        rwa [Site.resume_placement] at hlt
      obtain ⟨resume', hresumes', hle, hiff⟩ := hleft.resumes hs₁ hfit hlt hresumes htrim
      rw [← hstore] at hresumes'
      obtain ⟨z', hchoose', -⟩ := choosePlace_of_resumes hasks (conditions (k + 1)) hagain
        hresumes'
      exact ⟨resume', z', hchoose', hle, hiff⟩
  · rcases hhow with ⟨hsame, -⟩ | ⟨run, hopens, -⟩
    · obtain ⟨z', hchoose', -⟩ := choosePlace_of_resumes hasks (conditions (k + 1)) hagain
        (by rw [hstore, hsame]; exact hresumes)
      exact ⟨z', hchoose'⟩
    · exact absurd hopens (hno run)

/-- A job for the sample in parts of one byte, which is tried twice. -/
abbrev twiceJob : Job :=
  let job := sampleJob .split 1 1 1
  { job with settings := { job.settings with retry := { RetryPolicy.single with transferAttempts := 2 } } }

/-- The place for these parts. -/
abbrev byteSite : Site := ⟨"http://h/f", ⟨[97]⟩, .split, 1, none⟩

theorem byteSite_asks : byteSite.Asks (Archive sample) sample.size twiceJob :=
  ⟨rfl, rfl, rfl, rfl, rfl, Or.inl rfl⟩

theorem byteSite_usable (s : Store) :
    s.usableParent byteSite.fallback byteSite.path = (.ok none, s) := by
  have hparent : byteSite.path.parentDirectory? = none := by decide +kernel
  rw [usableParent, hparent]

/-- The second attempt at the job, if the first one has left `y`. -/
abbrev secondTry (y : Transfer (Archive sample)) : Transfer (Archive sample) := y.pause .zero false

/-- The second attempt takes up behind the two bytes that the first one got. -/
theorem resumes_next_firstTwo : ∃ y,
    attempt twiceJob .calm firstTwo =
      (.error (.failed (.transport "archive" "withheld") 2), y) ∧
    Starts twiceJob (fun _ => .calm) firstTwo 2 (secondTry y) ∧
    ∃ z', (secondTry y).choosePlace twiceJob .calm sample.size =
      (.ok (byteSite.placement none 2), z') := by
  have hfailed : attempt twiceJob .calm firstTwo =
      (.error (.failed (.transport "archive" "withheld") 2), (attempt twiceJob .calm firstTwo).2) :=
    Prod.fst_eq_iff.mp (by decide +kernel)
  have hnext : Starts twiceJob (fun _ => .calm) firstTwo 2
      (secondTry (attempt twiceJob .calm firstTwo).2) :=
    .next .first hfailed (by decide +kernel) (by decide +kernel)
  have hs : firstTwo.store.WellFormed := wellFormed_fresh []
  have hstart : Starts twiceJob (fun _ => .calm) firstTwo 1 firstTwo := .first
  obtain ⟨⟨resume, z, hchoose, hopened, -⟩, -⟩ := resumes_next byteSite_asks (by decide) (by decide)
    hs hstart hfailed hnext (byteSite_usable _) (Or.inl rfl)
  obtain rfl : resume = 0 := by
    have hplace : (firstTwo.choosePlace twiceJob .calm sample.size).1 =
        .ok (byteSite.placement none 0) := by decide +kernel
    rw [hchoose] at hplace
    exact congrArg Placement.resume (Except.ok.inj hplace)
  obtain ⟨run, hopens, htrim, hnone⟩ : ∃ run,
      firstTwo.Opens twiceJob .calm sample.size (byteSite.placement none 0) run ∧
      ((run.strategy.execute [] none run.shared).2.sink.truncate 2).1 = .ok () ∧
      ∀ j < 2, ((SplitLayout.forTarget ⟨[97]⟩ 1).part? run.shared.sink.store j).isNone = true :=
    ⟨_, ⟨_, rfl, rfl, by decide, rfl⟩, by decide +kernel, by decide +kernel⟩
  obtain ⟨resume', z', hchoose', -, hiff⟩ := hopened run hopens htrim
  obtain rfl : resume' = 2 := hiff.mpr fun j hj ⟨c, hc, _⟩ => by
    have hnone := hnone j hj
    rw [show (SplitLayout.forTarget ⟨[97]⟩ 1).part? run.shared.sink.store j = some c from hc] at hnone
    cases hnone
  exact ⟨_, hfailed, hnext, z', hchoose'⟩

/-- A part `02` that was two bytes long before the download keeps the second attempt from counting
the third byte, which the first one got, trimmed to and reported. -/
theorem not_resumes_firstThree : ∃ y,
    attempt twiceJob .calm firstThree =
      (.error (.failed (.transport "archive" "withheld") 3), y) ∧
    Starts twiceJob (fun _ => .calm) firstThree 2 (secondTry y) ∧
    (∃ run, firstThree.Opens twiceJob .calm sample.size (byteSite.placement none 0) run ∧
      ((run.strategy.execute [] none run.shared).2.sink.truncate 3).1 = .ok ()) ∧
    (∃ z', (secondTry y).choosePlace twiceJob .calm sample.size =
      (.ok (byteSite.placement none 2), z')) ∧
    2 ≠ (byteSite.placement none 0).restart 3 := by
  have hfailed : attempt twiceJob .calm firstThree =
      (.error (.failed (.transport "archive" "withheld") 3), (attempt twiceJob .calm firstThree).2) :=
    Prod.fst_eq_iff.mp (by decide +kernel)
  have hnext : Starts twiceJob (fun _ => .calm) firstThree 2
      (secondTry (attempt twiceJob .calm firstThree).2) :=
    .next .first hfailed (by decide +kernel) (by decide +kernel)
  exact ⟨_, hfailed, hnext, ⟨_, ⟨_, rfl, rfl, by decide, rfl⟩, by decide +kernel⟩,
    ⟨_, Prod.fst_eq_iff.mp (by decide +kernel)⟩, by decide⟩

end Transfer

end RangeTransfer
