import RangeTransfer.Proofs.Layout.DirectoryNames
import RangeTransfer.Proofs.Storage.Ways
import RangeTransfer.Proofs.Transfer.Backed
import RangeTransfer.Proofs.Transfer.Journal
/-!
# Setting up an attempt

Until it opens its sink, an attempt makes directories and changes nothing else. They lie on the way
to the directory above the target, or to the fallback directory (`Site.ways`): so it is where the
place is chosen (`growsOn_choosePlace`), and where the file for an object of unknown size is chosen
(`growsOn_chooseFile`). An attempt at an object of known size that fails before it fetches ranges does
so in one of four ways (`halts_of_failed`).
-/

namespace RangeTransfer
open Store

/-! ## Making the parent -/

/-- What is made is on the way to the parent or to the fallback directory, whether it helps or not. -/
theorem Store.growsOn_usableParent {s : Store} (hs : s.WellFormed) (fallback : Option Path)
    (p : Path) : s.GrowsOn (p.parentDirectory?.toList ++ fallback.toList)
      (s.usableParent fallback p).2 := by
  unfold usableParent
  cases p.parentDirectory? with
  | none => exact GrowsOn.refl s _
  | some parent =>
    have hparent := growsOn_createDirectories hs parent
    simp only
    cases hmade : s.createDirectories parent with
    | mk made s₁ =>
      rw [hmade] at hparent
      cases made with
      | ok _ => exact hparent.subset (List.subset_append_left _ _)
      | error e =>
        cases fallback with
        | none => exact hparent.subset (List.subset_append_left _ _)
        | some f =>
          have hfallback := growsOn_createDirectories (hparent.wellFormed hs) f
          simp only
          cases hmade' : s₁.createDirectories f with
          | mk made' s₂ =>
            rw [hmade'] at hfallback
            have hboth := (hparent.subset (List.subset_append_left [parent] [f])).trans
              (hfallback.subset (List.subset_append_right [parent] [f]))
            cases made' <;> exact hboth

theorem Store.place_direct (s : Store) (settings : TransferSettings) (target : Path) (size : Nat) :
    s.place settings target .direct size =
      match s.usableParent settings.fallbackDirectory target with
      | (.error e, s') => (.error (.failed e), s')
      | (.ok moved, s') =>
        (.ok (.direct (target.movedTo moved) (s'.directResume (target.movedTo moved) size)), s') := by
  unfold place placeDirect
  obtain ⟨e | _ | parent, s'⟩ := s.usableParent settings.fallbackDirectory target <;> rfl

namespace Site

variable {x : Site} {s : Store}

/-- The directories along which an attempt makes others: the one above the target, and the fallback
directory. -/
def ways (x : Site) : List Path := x.target.parent?.getD ⟨[]⟩ :: x.fallback.toList

theorem leads_parentDirectory? {q : Path} (h : x.path.parentDirectory? = some q) :
    Leads q (x.target.parent?.getD ⟨[]⟩) := by
  obtain ⟨hparent, hne⟩ := Option.filter_eq_some_iff.mp h
  have hne : q.bytes ≠ [] := of_decide_eq_true hne
  obtain ⟨url, target, layout, partSize, fallback⟩ := x
  cases layout with
  | direct =>
    have hparent : target.parent? = some q := hparent
    rw [show Option.getD _ _ = q from congrArg (Option.getD · _) hparent]
    exact ⟨rfl, List.prefix_rfl⟩
  | split =>
    obtain ⟨hnames, habsolute⟩ := SplitLayout.names_forTarget target partSize
    obtain ⟨habove, hfirst⟩ := Path.names_parent? hparent hne
    have hfirst : q.names <+: (SplitLayout.forTarget target partSize).directory.names.dropLast :=
      hfirst
    rw [hnames, List.dropLast_concat] at hfirst
    exact ⟨habove.trans habsolute, hfirst⟩

theorem growsOn_usableParent (x : Site) (hs : s.WellFormed) :
    s.GrowsOn x.ways (s.usableParent x.fallback x.path).2 := by
  refine (Store.growsOn_usableParent hs x.fallback x.path).mono fun q hq => ?_
  rcases List.mem_append.mp hq with hq | hq
  · exact ⟨_, List.mem_cons_self, leads_parentDirectory? (Option.mem_toList.mp hq)⟩
  · exact ⟨q, List.mem_cons_of_mem _ hq, rfl, List.prefix_rfl⟩

theorem growsOn_place (x : Site) (hs : s.WellFormed) (settings : TransferSettings)
    (hpart : settings.partSize = x.partSize) (hfallback : settings.fallbackDirectory = x.fallback)
    (size : Nat) : s.GrowsOn x.ways (s.place settings x.target x.layout size).2 := by
  have hgrows := x.growsOn_usableParent hs
  rw [x.place_of_settings settings hpart hfallback]
  cases husable : s.usableParent x.fallback x.path with
  | mk usable s' =>
    rw [husable] at hgrows
    cases usable with
    | error e => exact hgrows
    | ok moved =>
      simp only
      cases x.resumeAt moved s' size <;> exact hgrows

end Site

namespace Transfer

variable {ρ : Type} [Remote ρ] {job : Job} {conditions : Conditions} {size n : Nat}
  {x y : Transfer ρ} {p : Placement}

/-! ## Choosing a place -/

theorem growsOn_choosePlace (hs : x.store.WellFormed) (job : Job) (conditions : Conditions)
    (size : Nat) : x.store.GrowsOn (Site.ofJob job size).ways
      (x.choosePlace job conditions size).2.store := by
  obtain ⟨y, hchoose, hstore⟩ := x.choosePlace_eq job conditions size
  rw [hchoose, hstore]
  exact (Site.ofJob job size).growsOn_place hs job.settings rfl rfl size

theorem wellFormed_of_chosen {chosen : Except Halt Placement} (hs : x.store.WellFormed)
    (h : x.choosePlace job conditions size = (chosen, y)) : y.store.WellFormed := by
  have hgrows := growsOn_choosePlace hs job conditions size
  rw [h] at hgrows
  exact hgrows.wellFormed hs

theorem resumes_of_chosen (h : x.choosePlace job conditions size = (.ok p, y)) :
    p.Resumes y.store size := by
  rcases x.choosePlace_cases job conditions size with
    ⟨halt, z, hchoose, -⟩ | ⟨moved, resume, z, hchoose, -, hresumes⟩
  · cases h.symm.trans hchoose
  · cases h.symm.trans hchoose
    exact hresumes

/-- What an attempt starts to fetch ranges with. -/
structure Ready (p : Placement) (size : Nat) (run : Run ρ) : Prop where
  of : p.Of run.shared.sink
  sound : run.shared.sink.Sound
  tracker : ∃ url chunk, run.shared.tracker = .new url p.resume size chunk
  resume_le : p.resume ≤ size

theorem Opens.ready {run : Run ρ} (hs : x.store.WellFormed)
    (h : x.Opens job conditions size p run) : Ready p size run := by
  obtain ⟨y, hchoose, -, -, hopen⟩ := h
  obtain ⟨hle, htracker, kind, store, hsink⟩ := opened_of_prepareRun hopen
  obtain ⟨-, hof, hsound, -⟩ := Placement.openSink_spec (wellFormed_of_chosen hs hchoose) hsink
  exact ⟨hof, hsound, ⟨_, _, htracker⟩, hle⟩

/-- The file that an attempt at an object of unknown size chooses, and the transfer by then. -/
def chooseFile (x : Transfer ρ) (job : Job) (conditions : Conditions) :
    Except Halt Path × Transfer ρ :=
  let x := ((x.enter .sizeUnknown).findSize job.request).2
  if job.request.layout.requiresSplit job.settings.forceSplit then
    (.error (.failed (.configuration (.unknownSize job.request.url))), x)
  else
    let x := { x with session := x.session.cancelIf conditions.stopsEarly }
    if x.cancelled then (.error (.failed .cancelled), x)
    else match x.store.place job.settings job.request.target .direct Offset.last with
      | (.error halt, store) => (.error halt, { x with store })
      | (.ok placement, store) => (.ok placement.path, { x with store }.enter .downloading)

theorem attempt_of_unsized (hsize : x.size? job = none) (conditions : Conditions) :
    attempt job conditions x =
      match x.chooseFile job conditions with
      | (.error halt, y) => (.error (halt.leaving 0), y)
      | (.ok path, y) => y.fetchTo job.request.url path conditions.syncFault := by
  rw [attempt_of_unknown hsize]
  unfold attemptUnsized chooseFile
  simp only
  split
  · rfl
  · split
    · rfl
    · generalize Store.place _ _ _ _ _ = place
      obtain ⟨halt | placement, store⟩ := place <;> rfl

theorem chooseFile_spec (x : Transfer ρ) (job : Job) (conditions : Conditions) :
    ((x.chooseFile job conditions).2.store = x.store ∧
        ∃ halt, (x.chooseFile job conditions).1 = .error halt) ∨
      ∃ usable, x.store.usableParent job.settings.fallbackDirectory job.request.target =
          (usable, (x.chooseFile job conditions).2.store) ∧
        (x.chooseFile job conditions).1 =
          (usable.map job.request.target.movedTo).mapError .failed := by
  obtain ⟨session, hfound⟩ := (x.enter .sizeUnknown).findSize_snd job.request
  unfold chooseFile
  simp only [hfound]
  split
  · exact Or.inl ⟨rfl, _, rfl⟩
  · split
    · exact Or.inl ⟨rfl, _, rfl⟩
    · right
      rw [show (x.enter .sizeUnknown).store = x.store from rfl, Store.place_direct]
      obtain ⟨e | moved, s⟩ :=
        x.store.usableParent job.settings.fallbackDirectory job.request.target
      · exact ⟨.error e, rfl, rfl⟩
      · exact ⟨.ok moved, rfl, rfl⟩

theorem chooseFile_eq_ok {path : Path} (h : x.chooseFile job conditions = (.ok path, y)) :
    ∃ moved, x.store.usableParent job.settings.fallbackDirectory job.request.target =
      (.ok moved, y.store) ∧ path = job.request.target.movedTo moved := by
  rcases x.chooseFile_spec job conditions with ⟨-, halt, herror⟩ | ⟨usable, husable, hpath⟩
  · rw [h] at herror
    cases herror
  · rw [h] at husable hpath
    cases usable with
    | error e => cases hpath
    | ok moved => exact ⟨moved, husable, Except.ok.inj hpath⟩

theorem growsOn_chooseFile (hs : x.store.WellFormed) (job : Job) (conditions : Conditions)
    (size : Nat) : x.store.GrowsOn (Site.ofJob job size).ways (x.chooseFile job conditions).2.store := by
  rcases x.chooseFile_spec job conditions with ⟨hstore, -⟩ | ⟨usable, husable, -⟩
  · rw [hstore]
    exact GrowsOn.refl _ _
  · have hgrows := Site.growsOn_usableParent { Site.ofJob job size with layout := .direct } hs
    have hsame : x.store.usableParent (Site.ofJob job size).fallback
      (Site.ofJob job size).target = _ := husable
    rw [Site.path, hsame] at hgrows
    exact hgrows

/-! ## Failing early -/

theorem resume_of_prepareRun {e : TransferError}
    (h : (x.prepareRun job p size).1 = .error (.failed e n)) : n = p.resume := by
  unfold prepareRun at h
  simp only at h
  split at h
  · cases h
    rfl
  · split at h
    · cases h
    · split at h
      · cases h
      · unfold openRun at h
        simp only at h
        split at h
        · rename_i halt _ _
          cases halt <;> cases h
          rfl
        · cases h

/-- How an attempt at an object of `size` bytes fails that does not come to fetch ranges: with which
error, byte count and transfer. -/
inductive Halts (x : Transfer ρ) (job : Job) (conditions : Conditions) (size : Nat) :
    TransferError → Nat → Transfer ρ → Prop
  /-- There is no place. -/
  | misplaced {e : TransferError} {y : Transfer ρ}
      (chosen : x.choosePlace job conditions size = (.error (.failed e), y)) :
      Halts x job conditions size e 0 y
  /-- The flag is up when the place is chosen. -/
  | cancelled {p : Placement} {y : Transfer ρ}
      (chosen : x.choosePlace job conditions size = (.ok p, y)) (up : y.cancelled = true) :
      Halts x job conditions size .cancelled p.resume y
  /-- The connection is refused. -/
  | refused {e : TransferError} {p : Placement} {y : Transfer ρ} {session : Session ρ}
      (chosen : x.choosePlace job conditions size = (.ok p, y))
      (bytes : session.progress.bytes = max x.session.progress.bytes p.resume) :
      Halts x job conditions size e p.resume { y with session }
  /-- The sink cannot be opened. -/
  | closed {e : TransferError} {p : Placement} {kind : StrategyKind} {y : Transfer ρ}
      {session : Session ρ} {store : Store}
      (chosen : x.choosePlace job conditions size = (.ok p, y)) (lt : p.resume < size)
      (opening : p.openSink y.store kind size = (.error (.failed e), store))
      (bytes : session.progress.bytes = max x.session.progress.bytes p.resume) :
      Halts x job conditions size e p.resume ⟨session, store⟩

theorem halts_of_failed {e : TransferError} (hsize : x.size? job = some size)
    (hclosed : ∀ p run, ¬ x.Opens job conditions size p run)
    (hfailed : attempt job conditions x = (.error (.failed e n), y)) :
    x.Halts job conditions size e n y := by
  have hbytes := x.bytes_choosePlace job conditions size
  rw [attempt_of_size hsize] at hfailed
  cases hchoose : x.choosePlace job conditions size with
  | mk chosen z =>
    rw [hchoose] at hfailed hbytes
    cases chosen with
    | error halt =>
      cases halt with
      | aborted abort => cases hfailed
      | failed e' =>
        cases hfailed
        exact .misplaced hchoose
    | ok p =>
      simp only at hfailed
      split at hfailed
      · rename_i hup
        cases hfailed
        exact .cancelled hchoose hup
      · rename_i hcalm
        split at hfailed
        · cases hfailed
        · rename_i hlt
          have hlt := Nat.not_le.mp hlt
          have hbytes : z.session.progress.bytes = x.session.progress.bytes := hbytes
          obtain ⟨session, hcount, hprepares⟩ := z.prepares job p size
          rw [hbytes] at hcount
          unfold runRanged at hfailed
          cases hprepares with
          | early _ hresult =>
            have hresume : (z.prepareRun job p size).1 = .error (.failed e n) → n = p.resume :=
              resume_of_prepareRun
            rw [hresult] at hfailed hresume
            obtain ⟨hhalt, rfl⟩ := Prod.mk.inj hfailed
            obtain rfl := hresume (congrArg Except.error (Except.error.inj hhalt))
            exact .refused hchoose hcount
          | @closed _ halt _ _ _ hopening hresult =>
            rw [hresult] at hfailed
            cases halt with
            | aborted abort => cases hfailed
            | failed e' =>
              cases hfailed
              exact .closed hchoose hlt hopening hcount
          | ready _ _ _ _ hresult =>
            exact absurd ⟨z, hchoose, Bool.eq_false_iff.mpr hcalm, hlt, congrArg Prod.fst hresult⟩
              (hclosed p _)

end Transfer

end RangeTransfer
