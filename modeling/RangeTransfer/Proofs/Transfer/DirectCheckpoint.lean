import RangeTransfer.Proofs.Attempt.Orderly
import RangeTransfer.Proofs.Transfer.Moments
/-!
# A single file can be resumed at every moment

The offset at which a new attempt would take up a single file is the length of the file, or 0 if the
file is as long as the object. At every moment of an attempt all bytes below that offset are those
of the object (`Transfer.resumable_attemptMoments`): after every call of the storage that opening and
trimming make, between the steps of the workers and inside their writes. What a trim that fails
leaves is what the workers left. There are two reasons for it. A pool stores its
ranges in any order, but only in a file that has been extended to the length of the object, which
counts for nothing. A worker that is alone stores them in order, so that the file holds nothing but
right bytes.
-/

namespace RangeTransfer
open Store

/-! ## Files -/

theorem Content.agrees_of_clean {c : Content} {good : Nat → UInt8 → Prop}
    (h : Clean good c.byteAt) : Agrees good c.byteAt 0 c.size := by
  intro o _ ho
  obtain ⟨x, hx⟩ := Content.byteAt_of_lt ho
  exact ⟨x, hx, h o x hx⟩

namespace Store

variable {s s' : Store} {path : Path} {place : Location} {h : Handle} {object : ByteArray}

/-- All bytes below the offset at which a new attempt would take up the file are right. -/
def Resumable (s : Store) (path : Path) (object : ByteArray) : Prop :=
  Agrees (IsByte object) ((Placement.direct path 0).byteAt s) 0 (s.directResume path object.size)

theorem resumable_of_find (hfind : s.find path = .ok (place, .file h.number))
    (hright : object.size ≤ (s.content h).size ∨
      Agrees (IsByte object) (s.content h).byteAt 0 (s.content h).size) :
    s.Resumable path object := by
  intro o _ ho
  rcases Nat.lt_or_ge (s.content h).size object.size with hlt | hge
  · rw [Placement.directResume_of_file (Keeps.refl s) hfind, file?_of_find hfind, Option.getD_some,
      if_pos hlt] at ho
    obtain ⟨x, hx, hgood⟩ := hright.resolve_left (Nat.not_le.mpr hlt) o (Nat.zero_le o) ho
    exact ⟨x, by simp only [Placement.byteAt, file?_of_find hfind, Option.bind_some, hx], hgood⟩
  · rw [Placement.directResume_of_file (Keeps.refl s) hfind, file?_of_find hfind, Option.getD_some,
      if_neg (Nat.not_lt.mpr hge)] at ho
    exact absurd ho (Nat.not_lt_zero o)

theorem resumable_of_trusted (hdir : s.isDirectory path = false)
    (hright : ∀ c, s.file? path = some c →
      object.size ≤ c.size ∨ Agrees (IsByte object) c.byteAt 0 c.size) :
    s.Resumable path object := by
  cases hfind : s.find path with
  | error e =>
    intro o _ ho
    simp only [directResume, reportedSize?, hfind, Option.getD_none, ite_self] at ho
    exact absurd ho (Nat.not_lt_zero o)
  | ok found =>
    obtain ⟨place, entry⟩ := found
    cases entry with
    | directory => rw [isDirectory_iff.mpr ⟨place, hfind⟩] at hdir; cases hdir
    | file n => exact resumable_of_find (h := ⟨n⟩) hfind (hright _ (file?_of_find (h := ⟨n⟩) hfind))

theorem Alike.resumable (hs : s.Alike s') (h : s.Resumable path object) :
    s'.Resumable path object := by
  have hbytes : (Placement.direct path 0).byteAt s' = (Placement.direct path 0).byteAt s := by
    simp only [Placement.byteAt, hs.file?]
  have hresume : s'.directResume path object.size = s.directResume path object.size := by
    unfold directResume reportedSize?
    rw [hs.find]
    cases s.find path with
    | error e => rfl
    | ok found =>
      obtain ⟨place, entry⟩ := found
      cases entry with
      | directory => rfl
      | file n => simp only [hs.content]
  rw [Resumable, hbytes, hresume]
  exact h

end Store

theorem Sink.resumable {k : Sink} {path : Path} {resume : Nat} {object : ByteArray}
    (hof : (Placement.direct path resume).Of k) (hs : k.Sound)
    (h : Agrees (fun _ _ => True) k.byteAt 0 object.size ∨ Clean (IsByte object) k.byteAt) :
    k.store.Resumable path object := by
  obtain ⟨output, s⟩ := k
  cases output with
  | split q => exact hof.elim
  | direct d =>
    obtain ⟨-, place, hfind⟩ := hs
    obtain rfl : d.path = path := hof
    exact resumable_of_find hfind (h.imp Placement.le_size_of_agrees Content.agrees_of_clean)

/-! ## Opening -/

theorem DirectSink.mem_opening {s s' : Store} {path : Path} {resume : Nat} {presize : Option Nat}
    (hs : s.WellFormed) (hroot : s.Rooted path) (hmem : s' ∈ opening s path resume presize) :
    s' = s ∨ ∃ place fd, s.Keeps s' ∧ s'.find path = .ok (place, .file (Handle.number fd)) ∧
      (s'.content fd = (s.file? path).getD .empty ∨
        s'.content fd = ((s.file? path).getD .empty).setSize resume ∨
        ∃ size, presize = some size ∧
          s'.content fd = (((s.file? path).getD .empty).setSize resume).setSize size) := by
  have hmade := hroot.createDirectories_eq
  unfold opening at hmem
  cases hcreate : s.createDirectories (path.parentDirectory?.getD ⟨[]⟩) with
  | mk made s₁ =>
    rw [hcreate] at hmem hmade
    obtain rfl : s₁ = s := hmade
    cases made with
    | error e => exact Or.inl (List.mem_singleton.mp hmem)
    | ok _ =>
      rcases List.mem_cons.mp hmem with rfl | hmem
      · exact Or.inl rfl
      · cases hopen : s₁.openFile path true with
        | error e => rw [hopen] at hmem; cases hmem
        | ok opened =>
          obtain ⟨fd, s₂⟩ := opened
          rw [hopen] at hmem
          obtain ⟨-, hretains, place, hfind⟩ := openFile_spec hs hopen
          have hcontent := content_openFile hopen
          have hkeeps := hretains.keeps
          -- setting the length of the file leaves the tree as it is
          have hset : ∀ {s₃ s₄ : Store} {size : Nat}, s₃.setSize fd size = .ok s₄ →
              s₁.Keeps s₃ → s₃.find path = .ok (place, .file fd.number) →
              s₁.Keeps s₄ ∧ s₄.find path = .ok (place, .file fd.number) ∧
                s₄.content fd = (s₃.content fd).setSize size := by
            intro s₃ s₄ size hset hkeeps hfind
            obtain ⟨-, rfl⟩ := setSize_eq_ok hset
            refine ⟨hkeeps.trans (keeps_of_entries rfl rfl), ?_, by rw [content_setContent, if_pos rfl]⟩
            rw [← hfind]
            exact find_congr
              (show (s₃.setContent fd _).workingDirectory = s₃.workingDirectory from rfl) rfl path
          right
          rcases List.mem_cons.mp hmem with rfl | hmem
          · exact ⟨place, fd, hkeeps, hfind, Or.inl hcontent⟩
          · unfold preparing at hmem
            cases hcut : s₂.setSize fd resume with
            | error e => simp only [hcut] at hmem; cases hmem
            | ok s₃ =>
              obtain ⟨hkeeps₃, hfind₃, hcontent₃⟩ := hset hcut hkeeps hfind
              rw [hcontent] at hcontent₃
              simp only [hcut] at hmem
              rcases List.mem_cons.mp hmem with rfl | hmem
              · exact ⟨place, fd, hkeeps₃, hfind₃, Or.inr (Or.inl hcontent₃)⟩
              · cases hpresize : presize.filter (resume < ·) with
                | none => rw [hpresize] at hmem; cases hmem
                | some size =>
                  rw [hpresize] at hmem
                  cases hextend : s₃.setSize fd size with
                  | error e => simp only [hextend] at hmem; cases hmem
                  | ok s₄ =>
                    simp only [hextend] at hmem
                    obtain rfl := List.mem_singleton.mp hmem
                    obtain ⟨hkeeps₄, hfind₄, hcontent₄⟩ := hset hextend hkeeps₃ hfind₃
                    exact ⟨place, fd, hkeeps₄, hfind₄, Or.inr (Or.inr ⟨size,
                      (Option.filter_eq_some_iff.mp hpresize).1, by rw [hcontent₄, hcontent₃]⟩)⟩

theorem Placement.resumable_opening {s s' : Store} {path : Path} {resume : Nat} {object : ByteArray}
    {kind : StrategyKind} (hs : s.WellFormed) (hroot : s.Rooted path)
    (hdir : s.isDirectory path = false)
    (hprior : ∀ c, s.file? path = some c →
      object.size ≤ c.size ∨ Agrees (IsByte object) c.byteAt 0 c.size)
    (hresume : resume = s.directResume path object.size)
    (hmem : s' ∈ (direct path resume).opening s kind object.size) : s'.Resumable path object := by
  rcases DirectSink.mem_opening hs hroot hmem with rfl | ⟨place, fd, hkeeps, hfind, hcontent⟩
  · exact resumable_of_trusted hdir hprior
  · have hstart : object.size ≤ ((s.file? path).getD .empty).size ∨ Agrees (IsByte object)
        ((s.file? path).getD .empty).byteAt 0 ((s.file? path).getD .empty).size := by
      cases hfile : s.file? path with
      | none => exact Or.inr fun o _ ho => absurd ho (Nat.not_lt_zero o)
      | some c => exact hprior c hfile
    rw [directResume_of_file hkeeps hfind] at hresume
    refine resumable_of_find hfind ?_
    rcases hcontent with heq | heq | ⟨size, hsize, heq⟩ <;> rw [heq]
    · exact hstart
    · rw [Content.size_setSize, hresume]
      exact Or.inr (agrees_setSize hstart)
    · left
      rw [Content.size_setSize]
      split at hsize
      · exact Nat.le_of_eq (Option.some.inj hsize)
      · cases hsize

/-- A file that is opened for a pool is as long as the object; one that is opened for a worker alone
ends at its resume offset. -/
theorem Placement.openSink_direct_bytes {s s' : Store} {path : Path} {resume : Nat}
    {object : ByteArray} {kind : StrategyKind} {k : Sink} (hs : s.WellFormed)
    (hopen : (direct path resume).openSink s kind object.size = (.ok k, s'))
    (hright : Agrees (IsByte object) k.byteAt 0 resume) :
    if kind = .parallel then Agrees (fun _ _ => True) k.byteAt 0 object.size
    else Clean (IsByte object) k.byteAt := by
  obtain ⟨fd, s₁, -, rfl, -, hprepared⟩ := openSink_direct hs hopen
  split
  · rename_i hparallel
    intro o _ ho
    have hle := hprepared.presize_le object.size (if_pos hparallel)
    obtain ⟨x, hx⟩ := Content.byteAt_of_lt (Nat.lt_of_lt_of_le ho hle)
    exact ⟨x, hx, trivial⟩
  · rename_i halone
    have hsize : (s'.content fd).size = resume := hprepared.size.resolve_right fun ⟨h, _⟩ => by
      rw [if_neg halone] at h
      cases h
    intro o x hx
    have hx : (s'.content fd).byteAt o = some x := hx
    have ho : o < resume := Nat.lt_of_not_le fun hge => by
      rw [Content.byteAt_of_le (hsize ▸ hge)] at hx
      cases hx
    obtain ⟨y, hy, hgood⟩ := hright o (Nat.zero_le o) ho
    rw [show (s'.content fd).byteAt o = some y from hy] at hx
    exact Option.some.inj hx ▸ hgood

/-! ## Executing -/

namespace Strategy

variable {ρ : Type} [Remote ρ] {url : String} {path : Path} {resume r chunk : Nat}
  {object : ByteArray}

/-- A file that is as long as the object, or that a worker alone adds right bytes to, can be resumed
at every point of an execution. -/
theorem resumable_points (htruthful : Truthful ρ url object) (strategy : Strategy)
    (moves : List Move) (granted : Option Nat) {x : Shared ρ Sink}
    (hof : (Placement.direct path r).Of x.sink) (hs : x.sink.Sound)
    (htracker : x.tracker = .new url resume object.size chunk) (hle : resume ≤ object.size)
    (hfit : object.size < Offset.limit) (hstart : resume ≤ x.session.progress.bytes)
    (hright : Agrees (IsByte object) x.sink.byteAt 0 resume)
    (hmode : Agrees (fun _ _ => True) x.sink.byteAt 0 object.size ∨
      (∃ policy, strategy = .sequential policy) ∧ Clean (IsByte object) x.sink.byteAt) :
    ∀ y ∈ (strategy.crew granted x).points strategy.rules (strategy.schedule moves granted x),
      y.sink.store.Resumable path object := by
  intro y hy
  have hpoint := strategy.points (serves_any ρ url object.size) moves granted hs htracker hle hfit
    hstart y hy
  refine Sink.resumable (hof.samePlace hpoint.follows.place) hpoint.sound ?_
  rcases hmode with hlong | ⟨⟨policy, rfl⟩, hclean⟩
  · exact Or.inl (hlong.keeps hpoint.keeps)
  · have horderly : (Crew.new x 1).Orderly url (IsByte object) x.session.progress.bytes resume
        object.size (rules (.sequential policy)) x.sink [] :=
      Crew.orderly_new hs htracker hle hfit hstart hclean
    exact Or.inr (horderly.points htruthful.serves hright _ y hy)

end Strategy

/-! ## Attempts -/

namespace Transfer

variable {ρ : Type} [Remote ρ] {job : Job} {object : ByteArray}

theorem resumable_run (run : Run ρ) {base : Store} {path : Path} {resume : Nat} {url : String}
    (conditions : Conditions) (htruthful : Truthful ρ url object) (hbase : base.WellFormed)
    (hopened : (Placement.direct path resume).Open base run.shared.sink object)
    (htracker : run.shared.tracker = .new url resume object.size run.chunk)
    (hle : resume ≤ object.size) (hfit : object.size < Offset.limit)
    (hstart : resume ≤ run.shared.session.progress.bytes)
    (hright : Agrees (IsByte object) run.shared.sink.byteAt 0 resume)
    (hmode : Agrees (fun _ _ => True) run.shared.sink.byteAt 0 object.size ∨
      (∃ policy, run.strategy = .sequential policy) ∧ Clean (IsByte object) run.shared.sink.byteAt) :
    (∀ y ∈ (run.strategy.crew conditions.granted run.shared).points run.strategy.rules
        (run.strategy.schedule conditions.moves conditions.granted run.shared),
      y.moment.store.Resumable path object) ∧
    ∀ m ∈ settling run (.direct path resume) object.size conditions.syncFault
        (run.strategy.execute conditions.moves conditions.granted run.shared).1
        (run.strategy.execute conditions.moves conditions.granted run.shared).2,
      m.store.Resumable path object := by
  have hpoints := run.strategy.resumable_points htruthful conditions.moves conditions.granted
    hopened.of hopened.sound htracker hle hfit hstart hright hmode
  refine ⟨hpoints, fun m hm => ?_⟩
  obtain ⟨hsink, -⟩ := run.strategy.execute_spec conditions.moves conditions.granted run.shared
  have hexecuted := run.strategy.executed htruthful.serves conditions.moves conditions.granted
    hopened.sound htracker hle hfit
  have hlast := hpoints _ (List.mem_of_getLast? (Crew.getLast?_points _))
  rw [← hsink] at hlast
  obtain ⟨-, s, halike, rfl | ⟨hne, htrim⟩⟩ := mem_settling hexecuted.complete hm
  · exact halike.resumable hlast
  · refine halike.resumable ?_
    have hopened' := hopened.follows hbase hexecuted.follows
    have hready := hopened'.ready_truncate hbase hfit
      (Nat.lt_of_le_of_ne hexecuted.persisted_le hne) (hexecuted.agrees hright)
    have hof := hopened'.of
    have hsound := hopened'.sound
    revert hof hsound hready htrim
    generalize (run.strategy.execute conditions.moves conditions.granted run.shared).2.sink = k
    intro htrim hready hof hsound
    obtain ⟨output, s'⟩ := k
    cases output with
    | split q => exact hof.elim
    | direct d =>
      obtain rfl := List.mem_singleton.mp htrim
      obtain ⟨r, s'', heq, ⟨-, place, hfind⟩, -⟩ := Sink.truncate_direct hsound
        (run.strategy.execute conditions.moves conditions.granted run.shared).2.tracker.persisted
      rw [heq] at hready ⊢
      obtain rfl : d.path = path := hof
      exact resumable_of_find hfind (hready.trusted _ (file?_of_find hfind))

theorem resumable_runMoments {path : Path} {resume : Nat} {x : Transfer ρ} (conditions : Conditions)
    (htruthful : Truthful ρ job.request.url object) (hs : x.store.WellFormed)
    (hroot : x.store.Rooted path) (hfit : object.size < Offset.limit)
    (hdir : x.store.isDirectory path = false)
    (hprior : (Placement.direct path resume).Untouched x.store object)
    (hresume : resume = x.store.directResume path object.size) (hlt : resume < object.size) :
    ∀ m ∈ x.runMoments job conditions (.direct path resume) object.size,
      m.store.Resumable path object := by
  intro m hm
  cases ofRun_of_mem hm with
  | counted => exact resumable_of_trusted hdir hprior
  | opening _ mem => exact Placement.resumable_opening hs hroot hdir hprior hresume mem
  | @running kind run store m chosen opened le alone tracker bytes mem =>
    obtain ⟨r, s', hopen, hopening⟩ : ∃ r s',
        (Placement.direct path resume).openSink x.store kind object.size = (r, s') ∧
          (Placement.direct path resume).Opening x.store object r s' :=
      (hprior.ready hs).opening_direct hroot hresume hlt
    rw [opened] at hopen
    cases hopen
    obtain ⟨-, hopened, hright⟩ := hopening
    have hmode : Agrees (fun _ _ => True) run.shared.sink.byteAt 0 object.size ∨
        (∃ policy, run.strategy = .sequential policy) ∧
          Clean (IsByte object) run.shared.sink.byteAt := by
      have hbytes := Placement.openSink_direct_bytes hs opened hright
      split at hbytes
      · exact Or.inl hbytes
      · exact Or.inr ⟨alone.resolve_left ‹_›, hbytes⟩
    obtain ⟨hpoints, hsettling⟩ := resumable_run run conditions htruthful hs hopened tracker le hfit
      (bytes ▸ Nat.le_max_right _ _) hright hmode
    rcases mem with ⟨y, hy, rfl⟩ | hm
    · exact hpoints y hy
    · exact hsettling m hm

/-- At every moment of an attempt at a single file, all bytes below the offset at which a new
attempt would take it up are those of the object. -/
theorem resumable_attemptMoments {site : Site} {moved : Option Path} {base : Store}
    {x : Transfer ρ} (conditions : Conditions) (htruthful : Truthful ρ site.url object)
    (hasks : site.Asks ρ object.size job) (hdirect : site.layout = .direct)
    (hpos : 0 < object.size) (hfit : object.size < Offset.limit) (hs : x.store.WellFormed)
    (husable : x.store.usableParent site.fallback site.path = (.ok moved, base))
    (hdir : base.isDirectory (site.target.movedTo moved) = false)
    (hprior : (site.placement moved 0).Untouched base object) :
    ∀ m ∈ attemptMoments job conditions object.size x,
      m.store.Resumable (site.target.movedTo moved) object := by
  have hplacement : ∀ resume, site.placement moved resume =
      .direct (site.target.movedTo moved) resume := fun resume => by
    rw [Site.placement, hdirect]
  have hpath : site.path = site.target := by rw [Site.path, hdirect]
  obtain ⟨hgrows, hroot⟩ := usableParent_spec hs husable
  have hbase := hgrows.wellFormed hs
  rw [hpath] at hroot
  rw [hplacement] at hprior
  have hresume : base.directResume (site.target.movedTo moved) object.size < object.size := by
    unfold Store.directResume
    simp only
    split
    · assumption
    · exact hpos
  have hresumes : (site.placement moved (base.directResume (site.target.movedTo moved)
      object.size)).Resumes base object.size := by
    rw [hplacement]
    rfl
  obtain ⟨y, hchoose, hy⟩ := choosePlace_of_resumes hasks conditions husable hresumes
  subst hy
  rw [hplacement] at hchoose
  intro m hm
  cases ofAttempt_of_mem hm with
  | start =>
    refine resumable_of_trusted (Bool.eq_false_iff.mpr fun h => ?_)
      fun c hc => hprior c (hgrows.file? hc)
    rw [hgrows.keeps.isDirectory h] at hdir
    cases hdir
  | placed place =>
    cases hchoose.symm.trans place
    exact resumable_of_trusted hdir hprior
  | complete place _ le =>
    cases hchoose.symm.trans place
    exact absurd le (Nat.not_le.mpr hresume)
  | run place _ _ mem =>
    cases hchoose.symm.trans place
    have hprior : (Placement.direct (site.target.movedTo moved) (y.store.directResume
        (site.target.movedTo moved) object.size)).Untouched y.store object := hprior
    exact resumable_runMoments conditions (hasks.url ▸ htruthful) hbase hroot hfit hdir hprior
      rfl hresume m mem

/-- A transfer from an archive that has two bytes of the sample. -/
abbrev pooledStart : Transfer (Archive sample) := (Archive.upTo 2).transfer (.fresh [])

/-- The moments of an attempt with a pool of two. -/
abbrev pooledMoments : List Moment :=
  attemptMoments (sampleJob .direct 1 1 2) .calm sample.size pooledStart

/-- The file is as long as the object while the pool works, and counts for nothing; after the trim it
counts for two bytes. -/
theorem resumable_pooledMoments :
    (∀ m ∈ pooledMoments, m.store.Resumable ⟨[97]⟩ sample) ∧
      (some 4, 0) ∈ pooledMoments.map (fun m =>
        (m.store.fileSize? ⟨[97]⟩, m.store.directResume ⟨[97]⟩ sample.size)) ∧
      (some 2, 2) ∈ pooledMoments.map fun m =>
        (m.store.fileSize? ⟨[97]⟩, m.store.directResume ⟨[97]⟩ sample.size) := by
  have husable : pooledStart.store.usableParent none ⟨[97]⟩ = (.ok none, .fresh []) := by
    have hparent : (⟨[97]⟩ : Path).parentDirectory? = none := by decide +kernel
    rw [usableParent, hparent]
    rfl
  have hnone : ((Store.fresh []).file? ⟨[97]⟩).isNone = true := by decide +kernel
  have hsite : Site.Asks ⟨"http://h/f", ⟨[97]⟩, .direct, 1, none⟩ (Archive sample) sample.size
    (sampleJob .direct 1 1 2) := ⟨rfl, rfl, rfl, rfl, rfl, Or.inl rfl⟩
  have hprior : (Placement.direct ⟨[97]⟩ 0).Untouched (.fresh []) sample := fun c hc => by
    rw [show (Store.fresh []).file? ⟨[97]⟩ = some c from hc] at hnone
    cases hnone
  have hresumable := resumable_attemptMoments .calm (Archive.truthful sample _) hsite rfl
    (by decide) (by decide) (wellFormed_fresh []) husable (by decide +kernel) hprior
  exact ⟨hresumable, by decide +kernel, by decide +kernel⟩

end Transfer

end RangeTransfer
