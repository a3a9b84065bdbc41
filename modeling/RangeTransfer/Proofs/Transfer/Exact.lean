import Mathlib.Data.Prod.Basic
import RangeTransfer.Proofs.Remote.Archive
import RangeTransfer.Proofs.Transfer.Execution
import RangeTransfer.Proofs.Transfer.Trusted
import RangeTransfer.Transfer.Download
/-!
# A transfer that succeeds has the object

Calls for the same object at the same site, each of which returned, leave the place ready for the
next one, whatever failed, was cut off or cancelled in them. So a call that succeeds has the object
there, byte by byte, and nothing else (`Transfer.holds_of_download`).
-/

namespace RangeTransfer
open Store

/-- Where an object is fetched from and to, which all calls for it agree on. -/
structure Site where
  url : String
  target : Path
  layout : LayoutKind
  partSize : Nat
  /-- Directory to use in place of a parent that cannot be created. -/
  fallback : Option Path

namespace Site

/-- The path whose parent an attempt makes. -/
def path (x : Site) : Path :=
  match x.layout with
  | .direct => x.target
  | .split => (SplitLayout.forTarget x.target x.partSize).directory

/-- Where attempts write that have moved to the directory `moved`, or have not moved. -/
def placement (x : Site) (moved : Option Path) (resume : Nat) : Placement :=
  match x.layout with
  | .direct => .direct (x.target.movedTo moved) resume
  | .split => .split ((SplitLayout.forTarget x.target x.partSize).movedTo moved) resume

/-- The job asks for the object at this site, and its size is known to be `size`. -/
structure Asks (x : Site) (ρ : Type) [Remote ρ] (size : Nat) (job : Job) : Prop where
  url : job.request.url = x.url
  target : job.request.target = x.target
  layout : job.request.layout.resolve size job.settings.singleFileLimit job.settings.forceSplit =
    x.layout
  partSize : job.settings.partSize = x.partSize
  fallback : job.settings.fallbackDirectory = x.fallback
  size : job.request.size = size ∨
    job.request.size = 0 ∧ ∀ m : ρ, (Remote.objectSize m x.url).1 = some size

variable {x : Site} {moved : Option Path} {resume resume' : Nat} {base s s' : Store}
  {object : ByteArray}

theorem path_placement : (x.placement moved resume).path = x.path.movedTo moved := by
  obtain ⟨url, target, layout, partSize, fallback⟩ := x
  cases layout with
  | direct => rfl
  | split => exact SplitLayout.directory_movedTo _ moved

theorem kind_placement : (x.placement moved resume).kind = x.layout := by
  unfold placement
  cases x.layout <;> rfl

theorem resume_placement : (x.placement moved resume).resume = resume := by
  obtain ⟨url, target, layout, partSize, fallback⟩ := x
  cases layout <;> rfl

theorem ready_placement (h : (x.placement moved resume).Ready base s object) :
    (x.placement moved resume').Ready base s object := by
  obtain ⟨url, target, layout, partSize, fallback⟩ := x
  cases layout <;> exact ⟨h.wellFormed, h.retains, h.trusted⟩

theorem holds_placement (h : (x.placement moved resume).Holds s object) :
    (x.placement moved resume').Holds s object := by
  obtain ⟨url, target, layout, partSize, fallback⟩ := x
  cases layout <;> exact h

/-- The resume offset that an attempt finds which has moved to the directory `moved`, or has
not moved. -/
def resumeAt (x : Site) (moved : Option Path) (s : Store) (size : Nat) : Except Abort Nat :=
  match x.layout with
  | .direct => .ok (s.directResume (x.target.movedTo moved) size)
  | .split => ((SplitLayout.forTarget x.target x.partSize).movedTo moved).existingSize s size

theorem resumes_iff {size : Nat} :
    (x.placement moved resume).Resumes s size ↔ x.resumeAt moved s size = .ok resume := by
  obtain ⟨url, target, layout, partSize, fallback⟩ := x
  cases layout with
  | direct => exact ⟨fun h => congrArg Except.ok h.symm, fun h => (Except.ok.inj h).symm⟩
  | split => exact Iff.rfl

/-- The site at which a job asks for an object of `size` bytes. -/
def ofJob (job : Job) (size : Nat) : Site where
  url := job.request.url
  target := job.request.target
  layout := job.request.layout.resolve size job.settings.singleFileLimit job.settings.forceSplit
  partSize := job.settings.partSize
  fallback := job.settings.fallbackDirectory

theorem Asks.ofJob_eq {ρ : Type} [Remote ρ] {size : Nat} {job : Job} (h : x.Asks ρ size job) :
    ofJob job size = x := by
  obtain ⟨url, target, layout, partSize, fallback⟩ := x
  obtain ⟨rfl, rfl, rfl, rfl, rfl, -⟩ := h
  rfl

theorem place_of_settings (settings : TransferSettings) (hpart : settings.partSize = x.partSize)
    (hfallback : settings.fallbackDirectory = x.fallback) (s : Store) (size : Nat) :
    s.place settings x.target x.layout size =
      match s.usableParent x.fallback x.path with
      | (.error e, s') => (.error (.failed e), s')
      | (.ok moved, s') =>
        match x.resumeAt moved s' size with
        | .error abort => (.error (.aborted abort), s')
        | .ok resume => (.ok (x.placement moved resume), s') := by
  obtain ⟨url, target, layout, partSize, fallback⟩ := x
  obtain rfl : settings.partSize = partSize := hpart
  obtain rfl : settings.fallbackDirectory = fallback := hfallback
  cases layout with
  | direct =>
    unfold place placeDirect
    simp only [path, resumeAt]
    generalize s.usableParent settings.fallbackDirectory target = usable
    obtain ⟨e | _ | parent, s'⟩ := usable <;> rfl
  | split =>
    unfold place placeSplit
    simp only [path, resumeAt]
    generalize s.usableParent settings.fallbackDirectory
      (SplitLayout.forTarget target settings.partSize).directory = usable
    obtain ⟨e | _ | parent, s'⟩ := usable
    · rfl
    · cases hfound : (SplitLayout.forTarget target settings.partSize).existingSize s' size <;>
        simp only [SplitLayout.movedTo, placement, hfound]
    · cases hfound : ((SplitLayout.forTarget target settings.partSize).relocated
          parent).existingSize s' size <;> simp only [SplitLayout.movedTo, placement, hfound]

theorem place_eq {ρ : Type} [Remote ρ] {size : Nat} {job : Job} (hasks : x.Asks ρ size job)
    (s : Store) : s.place job.settings job.request.target x.layout size =
      match s.usableParent x.fallback x.path with
      | (.error e, s') => (.error (.failed e), s')
      | (.ok moved, s') =>
        match x.resumeAt moved s' size with
        | .error abort => (.error (.aborted abort), s')
        | .ok resume => (.ok (x.placement moved resume), s') := by
  rw [hasks.target]
  exact place_of_settings _ hasks.partSize hasks.fallback s size

theorem place_cases {ρ : Type} [Remote ρ] {size : Nat} {job : Job} (hasks : x.Asks ρ size job)
    (husable : s.usableParent x.fallback x.path = (.ok moved, s')) :
    (∃ halt, s.place job.settings job.request.target x.layout size = (.error halt, s')) ∨
      ∃ resume, s.place job.settings job.request.target x.layout size =
          (.ok (x.placement moved resume), s') ∧
        (x.placement moved resume).Resumes s' size := by
  rw [place_eq hasks, husable]
  cases hresume : x.resumeAt moved s' size with
  | error abort => exact Or.inl ⟨.aborted abort, by simp only [hresume]⟩
  | ok resume => exact Or.inr ⟨resume, by simp only [hresume], resumes_iff.mpr hresume⟩

end Site

/-- What a place may hold before the first call: a single file that is missing, right as far as it
goes or too long to be counted; no split directory. The empty path names the working directory. -/
def Placement.Untouched (p : Placement) (s : Store) (object : ByteArray) : Prop :=
  match p with
  | .direct path _ => ∀ c, s.file? path = some c →
      object.size ≤ c.size ∨ Agrees (IsByte object) c.byteAt 0 c.size
  | .split l _ => l.directory.bytes ≠ [] ∧ s.pathExists l.directory = false

theorem Placement.Untouched.ready {p : Placement} {s : Store} {object : ByteArray}
    (h : p.Untouched s object) (hs : s.WellFormed) : p.Ready s s object := by
  refine ⟨hs, Retains.refl s, ?_⟩
  cases p with
  | direct path resume => exact h
  | split l resume => exact Or.inl h

namespace Transfer

variable {ρ : Type} {site : Site} {moved : Option Path} {base s : Store} {object : ByteArray}
  {job : Job} {p : Placement}

/-- How an attempt or a call ends that started at a ready place: it has succeeded and the place
holds the object, or it has failed and the place is ready again, unless it was aborted. -/
def Leaves {ε : Type} (aborted : ε → Prop) (p : Placement) (base : Store) (object : ByteArray) :
    Except ε Outcome × Transfer ρ → Prop
  | (.ok _, x) => p.Ready base x.store object ∧ p.Holds x.store object
  | (.error e, x) => aborted e ∨ p.Ready base x.store object

/-- How an attempt leaves a place. -/
abbrev AttemptLeaves (p : Placement) (base : Store) (object : ByteArray) :
    Except AttemptHalt Outcome × Transfer ρ → Prop :=
  Leaves (fun e => ∃ abort, e = .aborted abort) p base object

theorem leaves_ite {ε : Type} {aborted : ε → Prop} {c : Prop} [Decidable c]
    {r r' : Except ε Outcome × Transfer ρ} (h : c → Leaves aborted p base object r)
    (h' : ¬ c → Leaves aborted p base object r') :
    Leaves aborted p base object (if c then r else r') := by
  split
  · exact h (by assumption)
  · exact h' (by assumption)

theorem leaves_placement {ε : Type} {aborted : ε → Prop} {resume resume' : Nat}
    {r : Except ε Outcome × Transfer ρ}
    (h : Leaves aborted (site.placement moved resume) base object r) :
    Leaves aborted (site.placement moved resume') base object r := by
  obtain ⟨r, x⟩ := r
  cases r with
  | ok outcome => exact ⟨Site.ready_placement h.1, Site.holds_placement h.2⟩
  | error e => exact h.imp_right Site.ready_placement

/-- How a call leaves a place. -/
abbrev CallLeaves (p : Placement) (base : Store) (object : ByteArray) :
    Except DownloadHalt Outcome × Transfer ρ → Prop :=
  Leaves (fun e => ∃ abort, e = .aborted abort) p base object

theorem leaves_complete {x : Transfer ρ} (outcome : Outcome) (hready : p.Ready base x.store object)
    (hholds : p.Holds x.store object) :
    CallLeaves p base object (.ok outcome, x.complete outcome) := by
  unfold complete
  split <;> exact ⟨hready, hholds⟩

theorem leaves_retry_of_attempt {policy : RetryPolicy} {stops : Nat → Bool}
    {attempt : Nat → Transfer ρ → Except AttemptHalt Outcome × Transfer ρ} {left number : Nat}
    {x : Transfer ρ}
    (hleaves : AttemptLeaves p base object (attempt number x))
    (hmore : ∀ left' delay (x' : Transfer ρ), left = left' + 1 → p.Ready base x'.store object →
      CallLeaves p base object
        (retry policy attempt stops left' (number + 1) (x'.pause delay (stops number)))) :
    CallLeaves p base object (retry policy attempt stops left number x) := by
  rw [retry.eq_def]
  cases hr : attempt number x with
  | mk r x' =>
    rw [hr] at hleaves
    cases r with
    | ok outcome => exact leaves_complete _ hleaves.1 hleaves.2
    | error halt =>
      cases halt with
      | aborted abort => exact Or.inl ⟨abort, rfl⟩
      | failed e persisted =>
        have hready := hleaves.resolve_left fun ⟨_, h⟩ => by cases h
        simp only
        cases waitAfter policy e number with
        | error abort => exact Or.inl ⟨abort, rfl⟩
        | ok delay =>
          cases delay with
          | none => exact Or.inr hready
          | some delay =>
            cases left with
            | zero => exact Or.inr hready
            | succ left => exact leaves_ite (fun _ => Or.inr hready) fun _ => hmore left _ _ rfl hready

theorem leaves_retry {policy : RetryPolicy} {stops : Nat → Bool}
    {attempt : Nat → Transfer ρ → Except AttemptHalt Outcome × Transfer ρ} {P : Store → Prop}
    (hagain : ∀ s, p.Ready base s object → P s)
    (hattempt : ∀ number x, P x.store → AttemptLeaves p base object (attempt number x)) (left : Nat) :
    ∀ number x, P x.store → CallLeaves p base object (retry policy attempt stops left number x) := by
  induction left with
  | zero => exact fun number x hx => leaves_retry_of_attempt (hattempt number x hx) nofun
  | succ left ih =>
    refine fun number x hx => leaves_retry_of_attempt (hattempt number x hx) fun left' _ x' heq h => ?_
    obtain rfl := Nat.succ.inj heq
    exact ih _ _ (hagain x'.store h)

variable [Remote ρ]

theorem leaves_runRanged {x : Transfer ρ} (conditions : Conditions)
    (htruthful : Truthful ρ job.request.url object) (hbase : base.WellFormed)
    (hroot : base.Rooted p.path) (hfit : object.size < Offset.limit)
    (hready : p.Ready base x.store object) (hresume : p.Resumes x.store object.size)
    (hlt : p.resume < object.size) :
    AttemptLeaves p base object (x.runRanged job conditions p object.size) := by
  unfold runRanged
  rcases x.prepareRun_cases job p object.size with
    ⟨halt, session, hprepare⟩ | ⟨hle, kind, session, hopen⟩
  · rw [hprepare]
    exact Or.inr hready
  · obtain ⟨r, store, hsink, hopening⟩ : ∃ r store,
        p.openSink x.store kind object.size = (r, store) ∧ p.Opening base object r store :=
      hready.opening hbase hroot hfit hresume hlt
    rcases hopen with ⟨halt, store', hsink', hprepare⟩ |
      ⟨sink, store', strategy, workers, chunk, hsink', hprepare⟩
    · rw [hsink] at hsink'
      cases hsink'
      rw [hprepare]
      exact Or.inr hopening
    · rw [hsink] at hsink'
      cases hsink'
      obtain ⟨-, hopened, hright⟩ := hopening
      let shared : Shared ρ Sink :=
        ⟨session, sink, .new job.request.url p.resume object.size chunk⟩
      have hexecuted := strategy.executed htruthful.serves conditions.moves conditions.granted
        (x := shared) hopened.sound rfl hle hfit
      rw [hprepare]
      simp only
      generalize strategy.execute conditions.moves conditions.granted shared = executed at *
      have hopened' := hopened.follows hbase hexecuted.follows
      have hright' := hexecuted.agrees hright
      have hsettled := settled ⟨strategy, workers, chunk, shared⟩ p object.size conditions.syncFault
        executed.1 hexecuted.complete
      generalize settleRun _ p object.size conditions.syncFault executed.1 executed.2 = result
        at hsettled ⊢
      cases hsettled with
      | aborted => exact Or.inl ⟨_, rfl⟩
      | stored full =>
        obtain ⟨hready', hholds⟩ := hopened'.holds (full ▸ hright')
        exact ⟨hready'.alike (Sink.alike_tryFlush _ _), hholds.alike (Sink.alike_tryFlush _ _)⟩
      | unflushed full =>
        exact Or.inr ((hopened'.holds (full ▸ hright')).1.alike (Sink.alike_tryFlush _ _))
      | trimmed short =>
        exact Or.inr ((hopened'.ready_truncate hbase hfit
          (Nat.lt_of_le_of_ne hexecuted.persisted_le short) hright').alike (Sink.alike_tryFlush _ _))

/-- The place of the site is ready once an attempt has made its parent or moved. -/
def Arrives (site : Site) (moved : Option Path) (base : Store) (object : ByteArray) (s : Store) :
    Prop :=
  ∃ s', s.usableParent site.fallback site.path = (.ok moved, s') ∧
    (site.placement moved 0).Ready base s' object

theorem leaves_attemptSized {x : Transfer ρ} (conditions : Conditions)
    (htruthful : Truthful ρ site.url object) (hasks : site.Asks ρ object.size job)
    (hbase : base.WellFormed) (hroot : base.Rooted (site.path.movedTo moved))
    (hpos : 0 < object.size) (hfit : object.size < Offset.limit)
    (harrives : Arrives site moved base object x.store) :
    AttemptLeaves (site.placement moved 0) base object
      (x.attemptSized job conditions object.size) := by
  obtain ⟨s, husable, hready⟩ := harrives
  unfold attemptSized
  simp only [enter, hasks.layout]
  rcases site.place_cases hasks husable with ⟨halt, hplace⟩ | ⟨resume, hplace, hresume⟩
  · rw [hplace]
    exact Or.inr hready
  · rw [hplace]
    have hready' : (site.placement _ resume).Ready _ _ _ := Site.ready_placement hready
    simp only
    refine leaves_ite (fun _ => Or.inr hready) fun _ => leaves_ite (fun hle => ?_) fun hle => ?_
    · exact ⟨hready, Site.holds_placement (hready'.holds hpos hresume hle)⟩
    · refine leaves_placement (leaves_runRanged conditions (hasks.url ▸ htruthful) hbase ?_ hfit
        hready' hresume (Nat.not_le.mp hle))
      rw [Site.path_placement]
      exact hroot

theorem findSize_spec {size : Nat} (hasks : site.Asks ρ size job) (hpos : 0 < size)
    (x : Transfer ρ) : ∃ session, x.findSize job.request = (some size, { x with session }) := by
  unfold findSize TransferRequest.knownSize?
  rcases hasks.size with hsize | ⟨hzero, hremote⟩
  · rw [if_neg (by omega), hsize]
    exact ⟨_, rfl⟩
  · have hanswer := hremote x.session.remote
    rw [← hasks.url] at hanswer
    simp only [if_pos hzero, Session.objectSize, hanswer, Option.filter, decide_eq_true hpos, if_true]
    exact ⟨_, rfl⟩

theorem leaves_attempt {x : Transfer ρ} (conditions : Conditions)
    (htruthful : Truthful ρ site.url object) (hasks : site.Asks ρ object.size job)
    (hbase : base.WellFormed) (hroot : base.Rooted (site.path.movedTo moved))
    (hpos : 0 < object.size) (hfit : object.size < Offset.limit)
    (harrives : Arrives site moved base object x.store) :
    AttemptLeaves (site.placement moved 0) base object (attempt job conditions x) := by
  obtain ⟨session, hfound⟩ := findSize_spec hasks hpos (x.enter .sizeUnknown)
  unfold attempt
  rw [hfound]
  exact leaves_attemptSized conditions htruthful hasks hbase hroot hpos hfit harrives

/-! ## Calls -/

theorem leaves_download {x : Transfer ρ} (conditions : Nat → Conditions)
    (htruthful : Truthful ρ site.url object) (hasks : site.Asks ρ object.size job)
    (hbase : base.WellFormed) (hroot : base.Rooted (site.path.movedTo moved))
    (hpos : 0 < object.size) (hfit : object.size < Offset.limit)
    (hagain : ∀ s, (site.placement moved 0).Ready base s object → Arrives site moved base object s)
    (harrives : Arrives site moved base object x.store) :
    CallLeaves (site.placement moved 0) base object (download job conditions x) :=
  leaves_retry hagain (fun number _ => leaves_attempt (conditions number) htruthful hasks hbase hroot
    hpos hfit) _ 1 x harrives

/-- The stores that calls for the object of `size` bytes lead to, from the store `s₀`. Each call
starts with a session of its own, and has returned. -/
inductive Reached (ρ : Type) [Remote ρ] (site : Site) (size : Nat) (s₀ : Store) : Store → Prop
  | start : Reached ρ site size s₀ s₀
  | call {s : Store} {job : Job} {r : Except DownloadHalt Outcome} {x : Transfer ρ}
      (before : Reached ρ site size s₀ s) (asks : site.Asks ρ size job) (session : Session ρ)
      (conditions : Nat → Conditions) (made : download job conditions ⟨session, s⟩ = (r, x))
      (returned : ∀ abort, r ≠ .error (.aborted abort)) : Reached ρ site size s₀ x.store

theorem arrives_of_reached {s₀ : Store} (htruthful : Truthful ρ site.url object)
    (hbase : base.WellFormed) (hroot : base.Rooted (site.path.movedTo moved))
    (hpos : 0 < object.size) (hfit : object.size < Offset.limit)
    (hagain : ∀ s, (site.placement moved 0).Ready base s object → Arrives site moved base object s)
    (hstart : Arrives site moved base object s₀) (h : Reached ρ site object.size s₀ s) :
    Arrives site moved base object s := by
  induction h with
  | start => exact hstart
  | @call s job r x _ asks session conditions made returned ih =>
    have hleaves := leaves_download (x := ⟨session, s⟩) conditions htruthful asks hbase hroot hpos
      hfit hagain ih
    rw [made] at hleaves
    cases r with
    | ok outcome => exact hagain _ hleaves.1
    | error e => exact hagain _ (hleaves.resolve_left fun ⟨abort, h⟩ => returned abort (h ▸ rfl))

/-- A call that succeeds has the object at its place, whatever calls returned before it. -/
theorem holds_of_download {s₀ : Store} (htruthful : Truthful ρ site.url object)
    (hpos : 0 < object.size) (hfit : object.size < Offset.limit) (hs : s₀.WellFormed)
    (husable : s₀.usableParent site.fallback site.path = (.ok moved, base))
    (hstays : moved = none ∨ ∀ s, base.Retains s →
      s.usableParent site.fallback site.path = (.ok moved, s))
    (hstart : (site.placement moved 0).Untouched base object)
    (hreached : Reached ρ site object.size s₀ s) (hasks : site.Asks ρ object.size job)
    (session : Session ρ) (conditions : Nat → Conditions) {outcome : Outcome} {x : Transfer ρ}
    (hok : download job conditions ⟨session, s⟩ = (.ok outcome, x)) :
    (site.placement moved 0).Holds x.store object := by
  obtain ⟨hgrows, hroot⟩ := usableParent_spec hs husable
  have hbase := hgrows.wellFormed hs
  have hagain : ∀ s, (site.placement moved 0).Ready base s object →
      Arrives site moved base object s := by
    intro s hready
    refine ⟨s, ?_, hready⟩
    rcases hstays with rfl | hstays
    · exact usableParent_again hs husable hready.retains.keeps
    · exact hstays s hready.retains
  have harrives := arrives_of_reached htruthful hbase hroot hpos hfit hagain
    ⟨base, husable, hstart.ready hbase⟩ hreached
  have hleaves := leaves_download (x := ⟨session, s⟩) conditions htruthful hasks hbase hroot hpos hfit
    hagain harrives
  rw [hok] at hleaves
  exact hleaves.2

/-- A place for the sample, in parts of three bytes. -/
abbrev sampleSite : Site := ⟨"http://h/f", ⟨[97]⟩, .split, 3, none⟩

/-- A call of two workers that start from nothing and get two bytes of the sample. -/
abbrev firstCall : Except DownloadHalt Outcome × Transfer (Archive sample) :=
  download (sampleJob .split 3 1 2) (fun _ => .calm) ((Archive.upTo 2).transfer (.fresh []))

/-- The next call, which gets all of it. -/
abbrev secondCall : Except DownloadHalt Outcome × Transfer (Archive sample) :=
  download (sampleJob .split 3 1 2) (fun _ => .calm) ((Archive.upTo 4).transfer firstCall.2.store)

theorem sample_asks : sampleSite.Asks (Archive sample) sample.size (sampleJob .split 3 1 2) :=
  ⟨rfl, rfl, rfl, rfl, rfl, Or.inl rfl⟩

theorem holds_of_download_sample :
    (∃ outcome, secondCall.1 = .ok outcome) ∧
      (sampleSite.placement none 0).Holds secondCall.2.store sample := by
  have husable : (Store.fresh []).usableParent sampleSite.fallback sampleSite.path =
      (.ok none, .fresh []) := by
    have hparent : sampleSite.path.parentDirectory? = none := by decide +kernel
    rw [usableParent, hparent]
  have hfailed : firstCall.1 = .error (.failed ⟨.transport "archive" "withheld", 2, 1⟩) := by
    decide +kernel
  have hok : secondCall.1 = .ok ⟨⟨[97]⟩, .split, .parallel, 4, 0, 1, some 2, 1, 2⟩ := by
    decide +kernel
  have hreached : Reached (Archive sample) sampleSite sample.size (.fresh []) firstCall.2.store :=
    .call .start sample_asks ⟨.upTo 2, .fresh, []⟩ (fun _ => .calm) (Prod.fst_eq_iff.mp hfailed)
      nofun
  exact ⟨⟨_, hok⟩, holds_of_download (Archive.truthful sample _) (by decide) (by decide)
    (wellFormed_fresh []) husable (Or.inl rfl) ⟨by decide +kernel, by decide +kernel⟩ hreached sample_asks _ _
    (Prod.fst_eq_iff.mp hok)⟩

end Transfer

end RangeTransfer
