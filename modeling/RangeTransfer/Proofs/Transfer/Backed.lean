import RangeTransfer.Proofs.Transfer.OnDisk
import RangeTransfer.Proofs.Transfer.Rising
/-!
# Reported bytes that are on disk

The byte counter is a running maximum, while the bytes on disk get fewer when a sink is opened or
trimmed. `Backed f` says that they still back `f` of the counter, where `f` rounds down
(`RoundsDown`): for a single file it is the counter itself, for a split directory the whole parts
below it. Once an attempt opens its sink where `f` of the counter is not past the resume offset,
this is true at all of its moments (`backed_attemptMoments`): the bytes below the resume offset stay
(`Placement.Ready.agrees_opening`), and the workers raise the counter no further than the watermark
(`Strategy.points`), which is also where the sink is trimmed.
-/

namespace RangeTransfer
open Store

/-! ## Rounding -/

/-- The function keeps the order and makes no number larger. -/
structure RoundsDown (f : Nat → Nat) : Prop where
  le : ∀ n, f n ≤ n
  mono : ∀ {m n}, m ≤ n → f m ≤ f n

namespace RoundsDown

theorem id : RoundsDown (fun n => n) := ⟨Nat.le_refl, fun h => h⟩

theorem restart (p : Placement) : RoundsDown p.restart where
  le := p.restart_le_self
  mono h := by
    cases p with
    | direct path resume => exact h
    | split l resume => exact Nat.mul_le_mul_right _ (Nat.div_le_div_right h)

variable {f : Nat → Nat}

theorem max_le (hf : RoundsDown f) (m n : Nat) : f (max m n) ≤ max (f m) n := by
  rcases Nat.le_total m n with h | h
  · rw [Nat.max_eq_right h]
    exact Nat.le_trans (hf.le n) (Nat.le_max_right _ _)
  · rw [Nat.max_eq_left h]
    exact Nat.le_max_left _ _

end RoundsDown

/-! ## Places -/

namespace Site

variable {x : Site} {moved : Option Path} {resume resume' size : Nat} {s : Store}

theorem byteAt_placement :
    (x.placement moved resume).byteAt = (x.placement moved 0).byteAt := by
  unfold placement
  cases x.layout <;> rfl

theorem restart_placement :
    (x.placement moved resume).restart = (x.placement moved 0).restart := by
  unfold placement
  cases x.layout <;> rfl

theorem vacant_placement (h : (x.placement moved resume).Vacant s size) :
    (x.placement moved resume').Vacant s size := by
  obtain ⟨url, target, layout, partSize, fallback⟩ := x
  cases layout <;> exact h

end Site

namespace Transfer

variable {ρ : Type} {p : Placement} {base : Store} {object : ByteArray} {f : Nat → Nat}

/-- The byte counter stands within the object, whose bytes up to `f` of it are on disk. -/
def Backed (f : Nat → Nat) (p : Placement) (object : ByteArray) (m : Moment) : Prop :=
  m.bytes ≤ object.size ∧ Agrees (IsByte object) (p.byteAt m.store) 0 (f m.bytes)

theorem Backed.of_site {site : Site} {moved : Option Path} {resume : Nat} {m : Moment}
    (h : Backed f (site.placement moved resume) object m) :
    Backed f (site.placement moved 0) object m := by
  rwa [Backed, Site.byteAt_placement] at h

variable [Remote ρ] {job : Job}

/-! ## One attempt -/

theorem backed_run (hf : RoundsDown f) (run : Run ρ) {url : String} (conditions : Conditions)
    (htruthful : Truthful ρ url object) (hopened : p.Open base run.shared.sink object)
    (htracker : run.shared.tracker = .new url p.resume object.size run.chunk)
    (hbase : base.WellFormed) (hle : p.resume ≤ object.size) (hfit : object.size < Offset.limit)
    (hstart : p.resume ≤ run.shared.session.progress.bytes)
    (hbound : run.shared.session.progress.bytes ≤ object.size)
    (hcount : f run.shared.session.progress.bytes ≤ p.resume)
    (hright : Agrees (IsByte object) run.shared.sink.byteAt 0 p.resume) :
    (∀ y ∈ (run.strategy.crew conditions.granted run.shared).points run.strategy.rules
        (run.strategy.schedule conditions.moves conditions.granted run.shared),
      Backed f p object y.moment) ∧
    ∀ m ∈ settling run p object.size conditions.syncFault
        (run.strategy.execute conditions.moves conditions.granted run.shared).1
        (run.strategy.execute conditions.moves conditions.granted run.shared).2,
      Backed f p object m := by
  have hpoints := run.strategy.points htruthful.serves conditions.moves conditions.granted
    hopened.sound htracker hle hfit hstart
  -- the counter is behind the watermark, or where it was when the sink was opened
  have hreached : ∀ {bytes reached : Nat}, p.resume ≤ reached → reached ≤ object.size →
      bytes ≤ max run.shared.session.progress.bytes reached →
      bytes ≤ object.size ∧ f bytes ≤ reached := by
    intro bytes reached hresume htotal hbytes
    have := hf.mono hbytes
    have := hf.max_le run.shared.session.progress.bytes reached
    omega
  refine ⟨fun y hy => ?_, fun m hm => ?_⟩
  · have hpoint := hpoints y hy
    obtain ⟨hsize, hcounted⟩ := hreached hpoint.resume_le hpoint.reached_le hpoint.bytes_le
    refine ⟨hsize, ?_⟩
    rw [show y.moment.store = y.sink.store from rfl,
      Placement.byteAt_of (hopened.of.samePlace hpoint.follows.place) hpoint.sound]
    exact (hpoint.right hright).mono (Nat.le_refl _) hcounted
  · obtain ⟨hsink, e, htracker'⟩ :=
      run.strategy.execute_spec conditions.moves conditions.granted run.shared
    have hexecuted := run.strategy.executed htruthful.serves conditions.moves conditions.granted
      hopened.sound htracker hle hfit
    have hlast := hpoints _ (List.mem_of_getLast? (Crew.getLast?_points _))
    obtain ⟨hbytes, s, halike, hs⟩ := mem_settling hexecuted.complete hm
    rw [run.strategy.bytes_execute] at hbytes
    have hpersisted : (run.strategy.execute conditions.moves conditions.granted
        run.shared).2.tracker.persisted = ((run.strategy.crew conditions.granted run.shared).after
          run.strategy.rules (run.strategy.schedule conditions.moves conditions.granted
            run.shared)).shared.tracker.watermark.reached := by
      rw [htracker']
      rfl
    obtain ⟨hsize, hcounted⟩ := hreached hlast.resume_le hlast.reached_le hlast.bytes_le
    rw [← hpersisted] at hcounted
    rw [Backed, hbytes, Placement.byteAt_alike halike]
    refine ⟨hsize, ?_⟩
    have hopened' := hopened.follows hbase hexecuted.follows
    have hright' := hexecuted.agrees hright
    rcases hs with rfl | ⟨-, htrim⟩
    · rw [Placement.byteAt_of hopened'.of hopened'.sound]
      exact hright'.mono (Nat.le_refl _) hcounted
    · exact (hopened'.agrees_trimming hright' htrim).mono (Nat.le_refl _) hcounted

theorem backed_runMoments (hf : RoundsDown f) {x : Transfer ρ} (conditions : Conditions)
    (htruthful : Truthful ρ job.request.url object) (hbase : base.WellFormed)
    (hroot : base.Rooted p.path) (hfit : object.size < Offset.limit)
    (hready : p.Ready base x.store object) (hvacant : p.Vacant x.store object.size)
    (hresume : p.Resumes x.store object.size) (hlt : p.resume < object.size)
    (hbacked : Backed f p object x.moment)
    (hopens : (x.chosenKind? job p object.size).isSome = true →
      f x.session.progress.bytes ≤ p.resume) :
    ∀ m ∈ x.runMoments job conditions p object.size, Backed f p object m := by
  obtain ⟨hbound, hstart⟩ := hbacked
  have hbound : x.session.progress.bytes ≤ object.size := hbound
  have hbytes : max x.session.progress.bytes p.resume ≤ object.size := by omega
  have hresumed := hready.agrees hvacant hresume
  -- an attempt that opens its sink leaves the whole parts below the counter alone
  have hcounted : ∀ {kind}, x.chosenKind? job p object.size = some kind →
      f (max x.session.progress.bytes p.resume) ≤ p.resume := fun hkind =>
    Nat.le_trans (hf.max_le _ _) (Nat.max_le.mpr ⟨hopens (by rw [hkind]; rfl), Nat.le_refl _⟩)
  intro m hm
  cases ofRun_of_mem hm with
  | counted =>
    -- what the counter is raised to was counted on disk
    refine ⟨hbytes, ?_⟩
    rcases Nat.le_total x.session.progress.bytes p.resume with h | h
    · exact hresumed.mono (Nat.le_refl _)
        (Nat.le_trans (hf.le _) (Nat.le_of_eq (Nat.max_eq_right h)))
    · exact hstart.mono (Nat.le_refl _) (Nat.le_of_eq (congrArg f (Nat.max_eq_left h)))
  | opening chosen mem =>
    exact ⟨hbytes, (hready.agrees_opening hroot hvacant hresume hlt mem).mono (Nat.le_refl _)
      (hcounted chosen)⟩
  | @running kind run store m chosen opened le alone tracker bytes mem =>
    obtain ⟨r, s', hopen, hopened⟩ : ∃ r s',
        p.openSink x.store kind object.size = (r, s') ∧ p.Opening base object r s' :=
      hready.opening hbase hroot hfit hresume hlt
    rw [opened] at hopen
    cases hopen
    obtain ⟨-, hopened, hright⟩ := hopened
    obtain ⟨hpoints, hsettling⟩ := backed_run hf run conditions htruthful hopened tracker hbase le
      hfit (bytes ▸ Nat.le_max_right _ _) (bytes ▸ hbytes) (bytes ▸ hcounted chosen) hright
    rcases mem with ⟨y, hy, rfl⟩ | hm
    · exact hpoints y hy
    · exact hsettling m hm

/-- The attempt that starts from `x` comes so far as to open its sink at the place `p`. -/
def ComesToOpen (x : Transfer ρ) (job : Job) (conditions : Conditions) (size : Nat)
    (p : Placement) : Prop :=
  ∃ y, x.choosePlace job conditions size = (.ok p, y) ∧ y.cancelled = false ∧ p.resume < size ∧
    (y.chosenKind? job p size).isSome = true

variable {site : Site} {moved : Option Path} {s : Store}

/-- The place of the site between two attempts, when the counter stands at `bytes`. -/
structure Rests (f : Nat → Nat) (p : Placement) (base s : Store) (object : ByteArray)
    (bytes : Nat) : Prop where
  ready : p.Ready base s object
  vacant : p.Vacant s object.size
  backed : Backed f p object ⟨bytes, s⟩

theorem backed_attemptMoments (hf : RoundsDown f) {x : Transfer ρ} (conditions : Conditions)
    (htruthful : Truthful ρ site.url object) (hasks : site.Asks ρ object.size job)
    (hbase : base.WellFormed) (hroot : base.Rooted (site.path.movedTo moved))
    (hpos : 0 < object.size) (hfit : object.size < Offset.limit)
    (husable : x.store.usableParent site.fallback site.path = (.ok moved, s))
    (hbefore : Backed f (site.placement moved 0) object x.moment)
    (hrests : Rests f (site.placement moved 0) base s object x.session.progress.bytes)
    (hopens : ∀ resume, x.ComesToOpen job conditions object.size (site.placement moved resume) →
      f x.session.progress.bytes ≤ resume) :
    ∀ m ∈ attemptMoments job conditions object.size x,
      Backed f (site.placement moved 0) object m := by
  have hbytes := x.bytes_choosePlace job conditions object.size
  obtain ⟨y, hchoose, hstore⟩ := x.choosePlace_eq job conditions object.size
  rw [hasks.ofJob_eq] at hchoose hstore
  have hchosen : y.moment = ⟨x.session.progress.bytes, s⟩ := by
    have hs : (x.store.place job.settings job.request.target site.layout object.size).2 = s := by
      rcases site.place_cases hasks husable with ⟨halt, hplace⟩ | ⟨resume, hplace, -⟩ <;> rw [hplace]
    rw [hchoose] at hbytes
    rw [moment, hstore, hs]
    exact congrArg (Moment.mk · s) hbytes
  have hy : Backed f (site.placement moved 0) object y.moment := hchosen ▸ hrests.backed
  -- an attempt that has found its place has found it at the site
  have hplaced : ∀ {p y'}, x.choosePlace job conditions object.size = (.ok p, y') → y = y' ∧
      ∃ resume, p = site.placement moved resume ∧ y.store = s ∧ p.Resumes s object.size := by
    intro p y' hplace
    rw [hchoose] at hplace
    rcases site.place_cases hasks husable with ⟨halt, heq⟩ | ⟨resume, heq, hresume⟩ <;>
      rw [heq] at hplace hstore <;> cases hplace
    exact ⟨rfl, resume, rfl, hstore, hresume⟩
  intro m hm
  cases ofAttempt_of_mem hm with
  | start => exact hbefore
  | placed place =>
    cases hchoose.symm.trans place
    exact hy
  | complete place calm le =>
    obtain ⟨rfl, resume, rfl, rfl, hresume⟩ := hplaced place
    have heq := attempt_eq hasks hpos conditions x
    rw [place] at heq
    simp only [calm, Bool.false_eq_true, if_false, if_pos le] at heq
    rw [heq]
    have hall := Placement.Ready.agrees (Site.ready_placement hrests.ready)
      (Site.vacant_placement hrests.vacant) hresume
    rw [Site.byteAt_placement] at hall
    have hfull : max y.session.progress.bytes object.size = object.size := Nat.max_eq_right hy.1
    refine ⟨Nat.le_of_eq hfull, hall.mono (Nat.le_refl _) ?_⟩
    exact Nat.le_trans (hf.le _) (Nat.le_trans (Nat.le_of_eq hfull) le)
  | run place calm lt mem =>
    obtain ⟨rfl, resume, rfl, rfl, hresume⟩ := hplaced place
    have hsame : y.session.progress.bytes = x.session.progress.bytes :=
      congrArg Moment.bytes hchosen
    have hrun : ∀ m ∈ y.runMoments job conditions (site.placement moved resume) object.size,
        Backed f (site.placement moved resume) object m := by
      refine backed_runMoments hf conditions (hasks.url ▸ htruthful) hbase
        (by rw [Site.path_placement]; exact hroot) hfit (Site.ready_placement hrests.ready)
        (Site.vacant_placement hrests.vacant) hresume lt
        (by rw [Backed, Site.byteAt_placement]; exact hy) fun hkind => ?_
      rw [Site.resume_placement, hsame]
      exact hopens resume ⟨y, place, calm, lt, hkind⟩
    exact (hrun m mem).of_site

end Transfer

end RangeTransfer
