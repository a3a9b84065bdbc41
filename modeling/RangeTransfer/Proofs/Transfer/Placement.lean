import RangeTransfer.Proofs.Sink.Good
import RangeTransfer.Proofs.Sink.Open
import RangeTransfer.Transfer.Attempt
/-!
# What a place holds

`Placement.byteAt` is the view of an object through its place: the bytes of the single file, or
those of the parts. Opening a sink at a place keeps the bytes below the resume offset
(`openSink_spec`), and cutting it at an offset keeps those below that offset
(`Sink.truncate_direct`, `Sink.truncate_split`).
-/

namespace RangeTransfer
open Store

namespace Placement

/-- The byte that the place holds at an absolute offset of the object. -/
def byteAt (p : Placement) (s : Store) : Nat → Option UInt8 :=
  match p with
  | direct path _ => fun o => (s.file? path).bind (·.byteAt o)
  | split layout _ => byteOf layout.partSize (layout.part? s)

/-- The sink writes to this place. -/
def Of (p : Placement) (k : Sink) : Prop :=
  match p, k.output with
  | direct path _, .direct d => d.path = path
  | split layout _, .split q => q.layout = layout
  | _, _ => False

variable {p : Placement} {k k' : Sink} {s s' : Store}

theorem byteAt_of (h : p.Of k) (hs : k.Sound) : p.byteAt k.store = k.byteAt := by
  obtain ⟨output, s⟩ := k
  cases p <;> cases output <;> simp only [Of] at h
  · rename_i path resume d
    obtain ⟨-, place, hfind⟩ := hs
    rw [h] at hfind
    funext o
    show (s.file? path).bind (·.byteAt o) = (s.content d.handle).byteAt o
    rw [file?_of_find hfind]
    rfl
  · rw [← h]
    rfl

theorem Of.samePlace (h : p.Of k) (hk : k.SamePlace k') : p.Of k' := by
  obtain ⟨output, s⟩ := k
  obtain ⟨output', s'⟩ := k'
  cases p <;> cases output <;> cases output' <;> simp only [Of, Sink.SamePlace] at h hk ⊢ <;>
    rw [hk, h]

theorem openSink_direct {path : Path} {resume : Nat} {kind : StrategyKind} {size : Nat}
    (hs : s.WellFormed) (h : (direct path resume).openSink s kind size = (.ok k, s')) :
    ∃ fd s₁, s.Grows s₁ ∧ k = ⟨.direct ⟨path, fd⟩, s'⟩ ∧ k.Sound ∧
      DirectSink.Prepared resume (if kind = .parallel then some size else none)
        ((s₁.file? path).getD .empty) (s'.content fd) := by
  obtain ⟨made, s₁, hmade, hopen⟩ := DirectSink.openAt_spec hs path resume
    (if kind = .parallel then some size else none)
  have hgrows : s.Grows s₁ := by
    have := grows_createDirectories hs (path.parentDirectory?.getD ⟨[]⟩)
    rwa [hmade] at this
  unfold openSink at h
  rcases hopen with ⟨e, hopen⟩ | ⟨fd, place, r, s₂, hopen, hs₂, -, hfind, ⟨rfl, hprep⟩ | ⟨⟨e, rfl⟩, -⟩⟩
  · simp only [hopen] at h
    cases h
  · simp only [hopen] at h
    cases h
    exact ⟨fd, s₁, hgrows, rfl, ⟨hs₂, place, hfind⟩, hprep⟩
  · simp only [hopen] at h
    cases h

theorem openSink_split {layout : SplitLayout} {resume : Nat} {kind : StrategyKind} {size : Nat}
    (hs : s.WellFormed) (h : (split layout resume).openSink s kind size = (.ok k, s')) :
    ∃ s₁, layout.claimDirectory s = (.ok (), s₁) ∧ k = ⟨.split ⟨layout, none⟩, s'⟩ ∧ k.Sound ∧
      layout.Made s₁ ∧ (∀ d, layout.At s₁ d → s₁.Steady layout.Addressable d s') ∧ layout.Discarded s₁ s' resume ∧
      layout.UpToGap s₁ s' (resume / layout.partSize) ∧ (layout.Short s₁ → layout.Short s') := by
  unfold openSink SplitSink.openAt at h
  simp only at h
  cases hclaim : layout.claimDirectory s with
  | mk claimed s₁ =>
    obtain ⟨hs₁, hmade, -⟩ := SplitLayout.claimDirectory_spec hs hclaim
    rw [hclaim] at h
    cases claimed with
    | error e => simp only at h; cases h
    | ok _ =>
      obtain ⟨d, hd⟩ := (hmade rfl).at
      obtain ⟨r, s₂, hdiscard, hs₂, hsteady, hshort, hcut, hgap⟩ :=
        SplitLayout.discardFrom_spec resume hd hs₁
      simp only [hdiscard] at h
      cases r with
      | error halt => simp only at h; cases h
      | ok _ =>
        cases h
        exact ⟨s₁, rfl, rfl, ⟨d, hs₂, hd.keeps hsteady.toKeeps, nofun⟩, hmade rfl,
          fun d' hd' => by rw [hd'.inj hd]; exact hsteady,
          hcut (Or.inl rfl), hgap rfl, hshort⟩

theorem keeps_openSink {kind : StrategyKind} {size : Nat} (hs : s.WellFormed)
    (h : p.openSink s kind size = (.ok k, s')) : s.Keeps s' := by
  cases p with
  | direct path resume =>
    obtain ⟨made, s₁, hmade, hopen⟩ := DirectSink.openAt_spec hs path resume
      (if kind = .parallel then some size else none)
    have hgrows := grows_createDirectories hs (path.parentDirectory?.getD ⟨[]⟩)
    rw [hmade] at hgrows
    unfold openSink at h
    rcases hopen with ⟨e, hopen⟩ | ⟨fd, place, r, s₂, hopen, -, hretains, -⟩
    · simp only [hopen] at h
      cases h
    · simp only [hopen] at h
      cases r <;> cases h
      exact hgrows.keeps.trans hretains.keeps
  | split layout resume =>
    obtain ⟨s₁, hclaim, -, -, hmade, hsteady, -⟩ := openSink_split hs h
    have hkeeps := SplitLayout.keeps_claimDirectory hs layout
    rw [hclaim] at hkeeps
    obtain ⟨d, hd⟩ := hmade.at
    exact hkeeps.trans (hsteady d hd).toKeeps

theorem openSink_spec {kind : StrategyKind} {size : Nat} (hs : s.WellFormed)
    (h : p.openSink s kind size = (.ok k, s')) :
    k.store = s' ∧ p.Of k ∧ k.Sound ∧
      ∀ o < p.resume, ∀ b, p.byteAt s o = some b → k.byteAt o = some b := by
  cases p with
  | direct path resume =>
    obtain ⟨fd, s₁, hgrows, rfl, hsound, hprep⟩ := openSink_direct hs h
    refine ⟨rfl, rfl, hsound, fun o ho b hb => ?_⟩
    obtain ⟨c, hc, hb⟩ := Option.bind_eq_some_iff.mp hb
    show (s'.content fd).byteAt o = some b
    rw [hprep.below o ho, hgrows.file? hc, Option.getD_some, hb]
    rfl
  | split layout resume =>
    obtain ⟨s₁, hclaim, rfl, hsound, -, -, hcut, -⟩ := openSink_split hs h
    refine ⟨rfl, rfl, hsound, fun o ho b hb => ?_⟩
    have hview : (layout.part? s (o / layout.partSize)).bind (·.byteAt (o % layout.partSize)) =
      some b := hb
    obtain ⟨c, hc, -⟩ := Option.bind_eq_some_iff.mp hview
    obtain rfl := (SplitLayout.claimDirectory_spec hs hclaim).2.2 _ _ hc
    exact hcut.byteOf ho hb

theorem agrees_openSink {kind : StrategyKind} {size : Nat} {good : Nat → UInt8 → Prop}
    (hs : s.WellFormed) (h : p.openSink s kind size = (.ok k, s'))
    (hresumed : Agrees good (p.byteAt s) 0 p.resume) : Agrees good k.byteAt 0 p.resume := by
  obtain ⟨-, -, -, hkept⟩ := openSink_spec hs h
  intro o hlow ho
  obtain ⟨b, hb, hgood⟩ := hresumed o hlow ho
  exact ⟨b, hkept o ho b hb, hgood⟩

end Placement

/-- The same tree with the same contents. -/
structure Store.Alike (s s' : Store) : Prop where
  working : s'.workingDirectory = s.workingDirectory
  entries : s'.entries = s.entries
  nextFile : s'.nextFile = s.nextFile
  content : ∀ fd, s'.content fd = s.content fd

namespace Store.Alike

variable {s s' : Store}

theorem refl (s : Store) : s.Alike s := ⟨rfl, rfl, rfl, fun _ => rfl⟩

theorem find (h : s.Alike s') (path : Path) : s'.find path = s.find path :=
  find_congr h.working h.entries path

theorem file? (h : s.Alike s') (path : Path) : s'.file? path = s.file? path := by
  unfold Store.file?
  rw [h.find]
  cases s.find path with
  | error e => rfl
  | ok found =>
    obtain ⟨place, entry⟩ := found
    cases entry with
    | directory => rfl
    | file n => simp only [h.content]

theorem part? (h : s.Alike s') (l : SplitLayout) : l.part? s' = l.part? s := by
  funext i
  rw [SplitLayout.part?_eq_file?, SplitLayout.part?_eq_file?, h.file?]

theorem of_sync {h : Handle} {fault : Option StorageError} (hok : s.sync h fault = .ok s') :
    s.Alike s' := by
  have hcontent := content_sync hok
  obtain rfl := sync_eq_ok hok
  exact ⟨rfl, rfl, rfl, hcontent⟩

end Store.Alike

theorem Placement.byteAt_alike {p : Placement} {s s' : Store} (h : s.Alike s') :
    p.byteAt s' = p.byteAt s := by
  cases p with
  | direct path resume => simp only [byteAt, h.file?]
  | split l resume => simp only [byteAt, h.part?]

namespace Sink

variable {k k' : Sink} {n : Nat}

theorem tryFlush_of_no_fault (k : Sink) : k.tryFlush none = (.ok (), k.flush) := by
  obtain ⟨output, s⟩ := k
  cases output with
  | direct d => rfl
  | split q =>
    obtain ⟨layout, current⟩ := q
    cases current <;> rfl

/-- Neither a flush nor its failure changes what a reader finds. -/
theorem alike_tryFlush (k : Sink) (fault : Option StorageError) :
    k.store.Alike (k.tryFlush fault).2.store := by
  obtain ⟨output, s⟩ := k
  cases output with
  | direct d =>
    simp only [tryFlush, DirectSink.flush]
    cases hsync : s.sync d.handle fault with
    | error e => exact .refl s
    | ok s' => exact .of_sync hsync
  | split q =>
    obtain ⟨layout, current⟩ := q
    cases current with
    | none => exact .refl s
    | some part =>
      simp only [tryFlush, SplitSink.flush]
      cases hsync : s.sync part.handle fault with
      | error e => exact .refl s
      | ok s' => exact .of_sync hsync

theorem truncate_direct {d : DirectSink} {s : Store} (h : (⟨.direct d, s⟩ : Sink).Sound) (n : Nat) :
    ∃ r s', (⟨.direct d, s⟩ : Sink).truncate n = (r, ⟨.direct d, s'⟩) ∧
      (⟨.direct d, s'⟩ : Sink).Sound ∧ s'.entries = s.entries ∧
      s'.workingDirectory = s.workingDirectory ∧ (n < lengthLimit → r = .ok ()) ∧
      (r = .ok () → s'.content d.handle = (s.content d.handle).setSize n) ∧
      (∀ abort, r ≠ .error (.aborted abort)) := by
  obtain ⟨hs, place, hfind⟩ := h
  unfold truncate
  simp only [DirectSink.truncate, atPath]
  cases hset : s.setSize d.handle n with
  | error e =>
    refine ⟨_, s, rfl, ⟨hs, place, hfind⟩, rfl, rfl, fun hlt => ?_, fun h => (by cases h),
      fun _ h => (by cases h)⟩
    unfold setSize at hset
    rw [if_neg (Nat.not_le.mpr hlt)] at hset
    cases hset
  | ok s' =>
    obtain ⟨-, rfl⟩ := setSize_eq_ok hset
    refine ⟨_, _, rfl, ⟨hs.of_entries rfl rfl rfl, place, ?_⟩, rfl, rfl,
      fun _ => rfl, fun _ => ?_, fun _ h => (by cases h)⟩
    · show (s.setContent d.handle _).find d.path = _
      rw [← hfind]
      exact find_congr
        (show (s.setContent d.handle _).workingDirectory = s.workingDirectory from rfl) rfl d.path
    · rw [content_setContent, if_pos rfl]

theorem truncate_split {q : SplitSink} {s : Store} (h : (⟨.split q, s⟩ : Sink).Sound) (n : Nat) :
    ∃ r s', (⟨.split q, s⟩ : Sink).truncate n = (r, ⟨.split ⟨q.layout, none⟩, s'⟩) ∧
      (⟨.split ⟨q.layout, none⟩, s'⟩ : Sink).Sound ∧ (∀ d, q.layout.At s d → s.Steady q.layout.Addressable d s') ∧
      (q.layout.Short s → q.layout.Short s') ∧
      (r = .ok () ∨ n % q.layout.partSize < lengthLimit → q.layout.Discarded s s' n) ∧
      (r = .ok () → q.layout.UpToGap s s' (n / q.layout.partSize)) := by
  obtain ⟨d, hs, hd, -⟩ := h
  obtain ⟨r, s', heq, hs', hsteady, hshort, hcut, hgap⟩ :=
    SplitLayout.discardFrom_spec n hd hs
  refine ⟨r, s', ?_, ⟨d, hs', hd.keeps hsteady.toKeeps, nofun⟩,
    fun d' hd' => by rw [hd'.inj hd]; exact hsteady, hshort, hcut, hgap⟩
  unfold truncate
  simp only [SplitSink.truncate, heq]

theorem keeps_truncate (h : k.Sound) (n : Nat) (fault : Option StorageError) :
    ((k.truncate n).2.tryFlush fault).2.store.WellFormed ∧
      k.store.Keeps ((k.truncate n).2.tryFlush fault).2.store := by
  have halike := (k.truncate n).2.alike_tryFlush fault
  suffices (k.truncate n).2.store.WellFormed ∧ k.store.Keeps (k.truncate n).2.store from
    ⟨this.1.of_entries halike.working halike.entries halike.nextFile,
      this.2.trans (keeps_of_entries halike.working halike.entries)⟩
  obtain ⟨output, s⟩ := k
  cases output with
  | direct d =>
    obtain ⟨r, s', heq, ⟨hs', -⟩, hentries, hworking, -⟩ := truncate_direct h n
    rw [heq]
    exact ⟨hs', keeps_of_entries hworking hentries⟩
  | split q =>
    obtain ⟨r, s', heq, ⟨-, hs', -⟩, hsteady, -⟩ := truncate_split h n
    obtain ⟨d, hd⟩ := h
    rw [heq]
    exact ⟨hs', (hsteady d hd.here).toKeeps⟩

end Sink

end RangeTransfer
