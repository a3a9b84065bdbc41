import RangeTransfer.Proofs.Transfer.Backed
/-!
# What a download reports

The byte counter of a download that starts from nothing never decreases, stays within the object and
stands at its end when the download succeeds; what it stands for is on disk up to the last whole part
(`Transfer.reported_moments`). The bytes behind that part are lost when the next attempt opens its
sink in a split directory, since it counts whole parts, while the counter stays
(`Transfer.not_reported_lastingTwo`).

Proof. Before each attempt the place `Rests`: it is ready, and backs the rounded counter. So the
attempt resumes where the counter, rounded, stands or behind it (`Transfer.Rests.restart_le`), all of
its moments are `Backed`, and if it fails and is followed by another one the place rests again
(`Transfer.rests_of_failed`). With the identity for the rounding, the same argument gives every byte
below the counter, if attempts do not open their sinks before it.
-/

namespace RangeTransfer
open Store

/-! ## Success -/

theorem Strategy.bytes_executed {ρ : Type} [Remote ρ] (strategy : Strategy) (moves : List Move)
    (granted : Option Nat) {url : String} {resume total chunk : Nat} {x : Shared ρ Sink}
    (hs : x.sink.Sound) (htracker : x.tracker = .new url resume total chunk) (hle : resume ≤ total)
    (hfit : total < Offset.limit) (hstart : resume ≤ x.session.progress.bytes) :
    (strategy.execute moves granted x).2.session.progress.bytes =
      max x.session.progress.bytes (strategy.execute moves granted x).2.tracker.persisted := by
  obtain ⟨-, e, htracker'⟩ := strategy.execute_spec moves granted x
  obtain ⟨session, n, hcrew, hone⟩ := strategy.crew_eq granted x
  have hbytes := strategy.bytes_crew granted x
  rw [strategy.bytes_execute, htracker', schedule]
  rw [hcrew] at hbytes ⊢
  have hbytes : session.progress.bytes = x.session.progress.bytes := hbytes
  have hwork : (Crew.new { x with session } n).AtWork url (fun _ _ => True) session.progress.bytes
      resume total strategy.rules x.sink [] :=
    Crew.atWork_new (x := { x with session }) hs htracker hle hfit (hbytes.symm ▸ hstart) hone
  obtain ⟨marked, hleft⟩ := hwork.after (serves_any ρ url total)
    ((Crew.new { x with session } n).schedule strategy.rules moves)
  have hfin : ((Crew.new { x with session } n).run strategy.rules moves).finished = true :=
    Crew.finished_run _ moves
  rw [Crew.run_eq_after] at hfin
  rw [← hbytes]
  exact hleft.bytes_eq hfin

namespace Transfer

variable {ρ : Type} [Remote ρ] {job : Job} {site : Site} {size : Nat}

theorem bytes_of_runRanged {x y : Transfer ρ} {conditions : Conditions} {p : Placement}
    {outcome : Outcome} (hs : x.store.WellFormed) (hfit : size < Offset.limit)
    (hle : x.session.progress.bytes ≤ size)
    (hok : x.runRanged job conditions p size = (.ok outcome, y)) :
    y.session.progress.bytes = size := by
  obtain ⟨session, hsession, hprepares⟩ := x.prepares job p size
  unfold runRanged at hok
  cases hprepares with
  | early chosen result => rw [result] at hok; cases hok
  | closed hresume chosen opening result => rw [result] at hok; cases hok
  | @ready kind sink store strategy workers chunk hresume chosen alone opening result =>
    obtain ⟨-, -, hsound, -⟩ := Placement.openSink_spec hs opening
    have hstart : p.resume ≤ session.progress.bytes := hsession ▸ Nat.le_max_right _ _
    let shared : Shared ρ Sink := ⟨session, sink, .new job.request.url p.resume size chunk⟩
    have hexecuted := strategy.executed (serves_any ρ job.request.url size) conditions.moves
      conditions.granted (x := shared) hsound rfl hresume hfit
    have hbytes := strategy.bytes_executed conditions.moves conditions.granted (x := shared) hsound rfl
      hresume hfit hstart
    have hsettled := settled ⟨strategy, workers, chunk, shared⟩ p size conditions.syncFault
      (strategy.execute conditions.moves conditions.granted shared).1 hexecuted.complete
    rw [result] at hok
    simp only at hok
    rw [hok] at hsettled
    cases hsettled with
    | stored full =>
      rw [full] at hbytes
      have hbound : session.progress.bytes ≤ size := by omega
      exact hbytes.trans (Nat.max_eq_right hbound)

theorem bytes_of_attempt {x y : Transfer ρ} {conditions : Conditions} {outcome : Outcome}
    (hasks : site.Asks ρ size job) (hpos : 0 < size) (hfit : size < Offset.limit)
    (hs : x.store.WellFormed) (hle : x.session.progress.bytes ≤ size)
    (hok : attempt job conditions x = (.ok outcome, y)) : y.session.progress.bytes = size := by
  have hbytes := x.bytes_choosePlace job conditions size
  rw [attempt_eq hasks hpos] at hok
  rcases x.choosePlace_cases job conditions size with
    ⟨halt, z, hchoose, -⟩ | ⟨moved, resume, z, hchoose, husable, -⟩
  · rw [hchoose] at hok
    cases hok
  · rw [hchoose] at hok hbytes
    have hz : z.session.progress.bytes ≤ size := Nat.le_trans (Nat.le_of_eq hbytes) hle
    simp only at hok
    split at hok
    · cases hok
    · split at hok
      · cases hok
        exact Nat.max_eq_right hz
      · exact bytes_of_runRanged ((usableParent_spec hs husable).1.wellFormed hs) hfit hz hok

variable {conditions : Nat → Conditions} {x₀ x : Transfer ρ}

theorem download_ok {outcome : Outcome} (hok : download job conditions x₀ = (.ok outcome, x)) :
    ∃ k y z outcome', Starts job conditions x₀ k y ∧
      attempt job (conditions k) y = (.ok outcome', z) ∧
      outcome = { outcome' with attempts := k } ∧ x = z.complete outcome := by
  have hall : ∀ left k y, Starts job conditions x₀ k y →
      retry job.settings.retry (fun number => attempt job (conditions number))
        (fun number => (conditions number).stopsInWait) left k y = (.ok outcome, x) →
      ∃ k y z outcome', Starts job conditions x₀ k y ∧
        attempt job (conditions k) y = (.ok outcome', z) ∧
        outcome = { outcome' with attempts := k } ∧ x = z.complete outcome := by
    intro left
    induction left with
    | zero =>
      intro k y hstart h
      rw [retry.eq_def] at h
      split at h
      · cases h
        exact ⟨k, y, _, _, hstart, by assumption, rfl, rfl⟩
      · cases h
      · split at h
        · cases h
        · cases ‹0 = _ + 1›
        · cases h
    | succ left ih =>
      intro k y hstart h
      rw [retry.eq_def] at h
      split at h
      · cases h
        exact ⟨k, y, _, _, hstart, by assumption, rfl, rfl⟩
      · cases h
      · rename_i e n z hfailed
        split at h
        · cases h
        · rename_i delay left' hwaits heq
          obtain rfl := Nat.succ.inj heq
          simp only at h
          split at h
          · cases h
          · rename_i hcalm
            exact ih (k + 1) _ (.next hstart hfailed hwaits (Bool.eq_false_iff.mpr hcalm)) h
        · cases h
  exact hall _ 1 x₀ .first hok

/-! ## From attempt to attempt -/

variable {moved : Option Path} {base s : Store} {object : ByteArray} {f : Nat → Nat} {y : Transfer ρ}
  {k n : Nat} {e : TransferError}

theorem rests_of_failed {conditions : Conditions}
    (htruthful : Truthful ρ site.url object) (hasks : site.Asks ρ object.size job)
    (hbase : base.WellFormed) (hroot : base.Rooted (site.path.movedTo moved))
    (hpos : 0 < object.size) (hfit : object.size < Offset.limit) (hs : x.store.WellFormed)
    (husable : x.store.usableParent site.fallback site.path = (.ok moved, s))
    (hrests : Rests f (site.placement moved 0) base s object x.session.progress.bytes)
    (hbacked : ∀ m ∈ attemptMoments job conditions object.size x,
      Backed f (site.placement moved 0) object m)
    (hfailed : attempt job conditions x = (.error (.failed e n), y)) (hretry : e.retryable = true) :
    Rests f (site.placement moved 0) base y.store object y.session.progress.bytes := by
  have hlast := getLast?_attemptMoments hasks hpos conditions x
  have hleaves := leaves_attempt conditions htruthful hasks hbase hroot hpos hfit
    ⟨s, husable, hrests.ready⟩
  rw [hfailed] at hlast hleaves
  refine ⟨hleaves.resolve_left fun ⟨_, h⟩ => (by cases h), ?_, hbacked _ (List.mem_of_getLast? hlast)⟩
  obtain ⟨moved', resume, s', husable', hresume, -, hhow⟩ :=
    attempt_failed hasks hpos hfit hs hfailed hretry
  rw [husable] at husable'
  cases husable'
  have hs' := (usableParent_spec hs husable).1.wellFormed hs
  rcases hhow with ⟨hsame, -⟩ | ⟨run, hopens, hleft⟩
  · exact hsame ▸ hrests.vacant
  · obtain ⟨-, -, -, hlt, -⟩ := hopens
    rw [Site.resume_placement] at hlt
    obtain ⟨kind, store, hsink⟩ := hleft.opened
    obtain ⟨-, -, -, hexecuted⟩ := hleft.sink hs' hfit
    obtain ⟨r, store', hsink', hopening⟩ : ∃ r store',
        (site.placement moved resume).openSink s kind object.size = (r, store') ∧
          (site.placement moved resume).Opening base object r store' :=
      (Site.ready_placement hrests.ready).opening hbase (by rw [Site.path_placement]; exact hroot)
        hfit hresume (by rw [Site.resume_placement]; exact hlt)
    rw [hsink] at hsink'
    cases hsink'
    obtain ⟨-, hopened, hright⟩ := hopening
    have hthere : Agrees (fun _ _ => True) run.shared.sink.byteAt 0
        (site.placement moved resume).resume := fun o h₁ h₂ => by
      obtain ⟨b, hb, -⟩ := hright o h₁ h₂
      exact ⟨b, hb, trivial⟩
    have hvacant := (hopened.follows hbase hexecuted.follows).vacant_truncate hleft.incomplete
      (hleft.reported ▸ hexecuted.agrees hthere) conditions.syncFault
    rw [hleft.left]
    exact Site.vacant_placement hvacant

/-- What is on disk before each attempt, and at each of its moments, if no attempt opens its sink
before `f` of the counter. -/
theorem rests_of_starts (hf : RoundsDown f) (htruthful : Truthful ρ site.url object)
    (hasks : site.Asks ρ object.size job) (hpos : 0 < object.size)
    (hfit : object.size < Offset.limit) (hs : x₀.store.WellFormed)
    (husable : x₀.store.usableParent site.fallback site.path = (.ok moved, base))
    (hstays : moved = none ∨ ∀ s, base.Retains s →
      s.usableParent site.fallback site.path = (.ok moved, s))
    (habsent : (site.placement moved 0).Absent base) (hfresh : x₀.session.progress.bytes = 0)
    (hopens : ∀ {k x s resume}, Starts job conditions x₀ k x →
      x.store.usableParent site.fallback site.path = (.ok moved, s) →
      Rests f (site.placement moved 0) base s object x.session.progress.bytes →
      x.ComesToOpen job (conditions k) object.size (site.placement moved resume) →
      f x.session.progress.bytes ≤ resume)
    (hstart : Starts job conditions x₀ k x) :
    ∃ s, x.store.usableParent site.fallback site.path = (.ok moved, s) ∧
      Rests f (site.placement moved 0) base s object x.session.progress.bytes ∧
      ∀ m ∈ attemptMoments job (conditions k) object.size x,
        Backed f (site.placement moved 0) object m := by
  obtain ⟨hgrows, hroot⟩ := usableParent_spec hs husable
  have hbase := hgrows.wellFormed hs
  have hattempt : ∀ {k x s}, Starts job conditions x₀ k x →
      x.store.usableParent site.fallback site.path = (.ok moved, s) →
      Backed f (site.placement moved 0) object x.moment →
      Rests f (site.placement moved 0) base s object x.session.progress.bytes →
      ∀ m ∈ attemptMoments job (conditions k) object.size x,
        Backed f (site.placement moved 0) object m :=
    fun hstart husable hbefore hrests => backed_attemptMoments hf _ htruthful hasks hbase hroot hpos
      hfit husable hbefore hrests fun resume => hopens hstart husable hrests
  induction hstart with
  | first =>
    have hnothing : ∀ s, Backed f (site.placement moved 0) object ⟨x₀.session.progress.bytes, s⟩ := by
      intro s
      rw [hfresh]
      exact ⟨Nat.zero_le _, fun o _ ho => absurd (Nat.lt_of_lt_of_le ho (hf.le 0)) (Nat.not_lt_zero o)⟩
    have hrests : Rests f (site.placement moved 0) base base object x₀.session.progress.bytes :=
      ⟨habsent.untouched.ready hbase, habsent.vacant, hnothing base⟩
    exact ⟨base, husable, hrests, hattempt .first husable (hnothing _) hrests⟩
  | @next k n x y e delay before failed waits calm ih =>
    obtain ⟨s, husable', hrests, hbacked⟩ := ih
    obtain ⟨hretry, -⟩ := before.retryable (.next before failed waits calm) failed
    have hnext := rests_of_failed htruthful hasks hbase hroot hpos hfit
      (before.wellFormed hasks hpos hfit hs) husable' hrests hbacked failed hretry
    have hagain : y.store.usableParent site.fallback site.path = (.ok moved, y.store) := by
      rcases hstays with rfl | hstays
      · exact usableParent_again hs husable hnext.ready.retains.keeps
      · exact hstays _ hnext.ready.retains
    have hbytes : (y.pause delay (conditions k).stopsInWait).session.progress.bytes =
      y.session.progress.bytes := Session.bytes_cancelIf _ _
    rw [← hbytes] at hnext
    exact ⟨y.store, hagain, hnext, hattempt (.next before failed waits calm) hagain hnext.backed hnext⟩

theorem resumes_of_choosePlace {conditions : Conditions} {resume : Nat} (hasks : site.Asks ρ size job)
    (husable : x.store.usableParent site.fallback site.path = (.ok moved, s))
    (hchoose : x.choosePlace job conditions size = (.ok (site.placement moved resume), y)) :
    y.store = s ∧ (site.placement moved resume).Resumes s size := by
  have hcases := x.choosePlace_cases job conditions size
  simp only [hasks.ofJob_eq] at hcases
  rcases hcases with
    ⟨halt, z, hchoose', -⟩ | ⟨moved', resume', z, hchoose', husable', hresume⟩
  · rw [hchoose] at hchoose'
    cases hchoose'
  · rw [hchoose] at hchoose'
    obtain ⟨hplace, rfl⟩ := Prod.mk.inj hchoose'
    rw [husable] at husable'
    obtain ⟨hmoved, rfl⟩ := Prod.mk.inj husable'
    obtain rfl := Except.ok.inj hmoved
    exact ⟨rfl, Except.ok.inj hplace ▸ hresume⟩

theorem Rests.restart_le {resume bytes : Nat} (hfit : object.size < Offset.limit)
    (h : Rests (site.placement moved 0).restart (site.placement moved 0) base s object bytes)
    (hresume : (site.placement moved resume).Resumes s object.size) :
    (site.placement moved 0).restart bytes ≤ resume := by
  have hready : (site.placement moved resume).Ready base s object := Site.ready_placement h.ready
  have hle := hready.restart_le (Site.vacant_placement h.vacant) hfit hresume h.backed.1 (by
    rw [Site.byteAt_placement, Site.restart_placement]
    exact h.backed.2)
  rwa [Site.restart_placement, Site.resume_placement] at hle

/-- Where a sink is open and all bytes below the counter are on disk, the counter has not passed the
resume offset. -/
theorem Rests.le_of_opened {resume bytes : Nat} {kind : StrategyKind} {sink : Sink} {s' : Store}
    (hfit : object.size < Offset.limit)
    (h : Rests (site.placement moved 0).restart (site.placement moved 0) base s object bytes)
    (hresume : (site.placement moved resume).Resumes s object.size) (hlt : resume < object.size)
    (hopen : (site.placement moved resume).openSink s kind object.size = (.ok sink, s'))
    (hright : Agrees (IsByte object) ((site.placement moved 0).byteAt s') 0 (max bytes resume)) :
    bytes ≤ resume := by
  have hle := h.restart_le hfit hresume
  have hs := h.ready.wellFormed
  obtain ⟨url, target, layout, partSize, fallback⟩ := site
  cases layout with
  | direct => exact hle
  | split =>
    refine Nat.le_of_not_lt fun hpast => ?_
    have hnone : (Site.placement ⟨url, target, .split, partSize, fallback⟩ moved 0).byteAt s' resume =
      none := Placement.byteAt_openSink_split hs hresume hlt hopen
    obtain ⟨b, hb, -⟩ :=
      hright resume (Nat.zero_le _) (Nat.lt_of_lt_of_le hpast (Nat.le_max_left _ _))
    rw [hnone] at hb
    cases hb

theorem Opens.moment {conditions : Conditions} {p : Placement} {run : Run ρ}
    (h : x.Opens job conditions size p run) :
    ∃ y kind store, x.choosePlace job conditions size = (.ok p, y) ∧ p.resume < size ∧
      p.openSink y.store kind size = (.ok run.shared.sink, store) ∧
      ⟨max x.session.progress.bytes p.resume, store⟩ ∈ attemptMoments job conditions size x := by
  obtain ⟨y, hchoose, hcalm, hlt, hopen⟩ := h
  have hbytes := x.bytes_choosePlace job conditions size
  rw [hchoose] at hbytes
  obtain ⟨session, hsession, hprepares⟩ := y.prepares job p size
  cases hprepares with
  | early chosen result => rw [result] at hopen; cases hopen
  | closed le chosen opening result => rw [result] at hopen; cases hopen
  | @ready kind sink store strategy workers chunk le chosen alone opening result =>
    rw [result] at hopen
    cases hopen
    refine ⟨y, kind, store, hchoose, hlt, opening, ?_⟩
    have hlast := Placement.getLast?_opening p y.store kind size
    rw [opening] at hlast
    have hmem : (⟨max y.session.progress.bytes p.resume, store⟩ : Moment) ∈
        y.runMoments job conditions p size := by
      unfold runMoments
      rw [chosen]
      exact List.mem_append_left _ (List.mem_cons_of_mem _
        (List.mem_map_of_mem (List.mem_of_getLast? hlast)))
    have hbytes : y.session.progress.bytes = x.session.progress.bytes := hbytes
    rw [hbytes] at hmem
    unfold attemptMoments
    rw [hchoose]
    refine List.mem_cons_of_mem _ (List.mem_cons_of_mem _ ?_)
    rw [if_neg (Bool.eq_false_iff.mp hcalm), if_neg (Nat.not_le.mpr hlt)]
    exact hmem

/-! ## Downloads -/

/-- The byte counter of a download that starts from nothing never decreases, never passes the end of
the object, and stands there on success. The bytes below its `restart` are on disk at every moment,
and all below it if no attempt opens its sink before the counter. -/
theorem reported_moments (conditions : Nat → Conditions) (htruthful : Truthful ρ site.url object)
    (hasks : site.Asks ρ object.size job) (hpos : 0 < object.size)
    (hfit : object.size < Offset.limit) (hs : x₀.store.WellFormed)
    (husable : x₀.store.usableParent site.fallback site.path = (.ok moved, base))
    (hstays : moved = none ∨ ∀ s, base.Retains s →
      s.usableParent site.fallback site.path = (.ok moved, s))
    (habsent : (site.placement moved 0).Absent base) (hfresh : x₀.session.progress.bytes = 0) :
    (moments job conditions object.size x₀).Pairwise (·.bytes ≤ ·.bytes) ∧
    (∀ m ∈ moments job conditions object.size x₀,
      Backed (site.placement moved 0).restart (site.placement moved 0) object m) ∧
    (∀ outcome x, download job conditions x₀ = (.ok outcome, x) →
      x.session.progress.bytes = object.size) ∧
    ((∀ k x resume, Starts job conditions x₀ k x →
        x.ComesToOpen job (conditions k) object.size (site.placement moved resume) →
        x.session.progress.bytes ≤ resume) →
      ∀ m ∈ moments job conditions object.size x₀,
        Backed (fun n => n) (site.placement moved 0) object m) ∧
    ((∀ m ∈ moments job conditions object.size x₀,
        Backed (fun n => n) (site.placement moved 0) object m) →
      ∀ k x resume run, Starts job conditions x₀ k x →
        x.Opens job (conditions k) object.size (site.placement moved resume) run →
        x.session.progress.bytes ≤ resume) := by
  have hrestart : ∀ {k x}, Starts job conditions x₀ k x → ∃ s,
      x.store.usableParent site.fallback site.path = (.ok moved, s) ∧
      Rests (site.placement moved 0).restart (site.placement moved 0) base s object
        x.session.progress.bytes ∧
      ∀ m ∈ attemptMoments job (conditions k) object.size x,
        Backed (site.placement moved 0).restart (site.placement moved 0) object m :=
    rests_of_starts (.restart _) htruthful hasks hpos hfit hs husable hstays habsent hfresh
      fun _ husable hrests ⟨_, hchoose, _⟩ =>
        hrests.restart_le hfit (resumes_of_choosePlace hasks husable hchoose).2
  refine ⟨pairwise_moments hasks hpos conditions x₀, fun m hm => ?_, fun outcome x hok => ?_,
    fun hopens m hm => ?_, fun hbacked k x resume run hstart hopen => ?_⟩
  · obtain ⟨k, x, hstart, hm⟩ := mem_moments.mp hm
    obtain ⟨-, -, -, hbacked⟩ := hrestart hstart
    exact hbacked m hm
  · obtain ⟨k, y, z, outcome', hstart, hattempt, -, rfl⟩ := download_ok hok
    obtain ⟨s, -, hrests, -⟩ := hrestart hstart
    have hbytes := bytes_of_attempt hasks hpos hfit (hstart.wellFormed hasks hpos hfit hs)
      hrests.backed.1 hattempt
    rw [← hbytes]
    unfold complete
    split <;> rfl
  · obtain ⟨k, x, hstart, hm⟩ := mem_moments.mp hm
    obtain ⟨-, -, -, hbacked⟩ := rests_of_starts .id htruthful hasks hpos hfit hs husable hstays
      habsent hfresh (fun hstart _ _ hcomes => hopens _ _ _ hstart hcomes) hstart
    exact hbacked m hm
  · obtain ⟨s, husable', hrests, -⟩ := hrestart hstart
    obtain ⟨y, kind, store, hchoose, hlt, hsink, hm⟩ := hopen.moment
    obtain ⟨rfl, hresume⟩ := resumes_of_choosePlace hasks husable' hchoose
    rw [Site.resume_placement] at hlt hm
    exact hrests.le_of_opened hfit hresume hlt hsink
      (hbacked _ (mem_moments.mpr ⟨k, x, hstart, hm⟩)).2

/-- The moments of two attempts at the sample in parts of one byte, which get two bytes of it. -/
abbrev twiceMoments : List Moment := moments twiceJob (fun _ => .calm) sample.size firstTwo

/-- With parts of one byte the second attempt takes up just where the counter stands. -/
theorem reported_firstTwo :
    (∀ m ∈ twiceMoments, Backed (fun n => n) (byteSite.placement none 0) sample m) ∧
      ∃ m ∈ twiceMoments, m.bytes = 2 := by
  have hs : firstTwo.store.WellFormed := wellFormed_fresh []
  have habsent : (byteSite.placement none 0).Absent firstTwo.store :=
    ⟨by decide +kernel, by decide +kernel⟩
  obtain ⟨-, -, -, hall, -⟩ := reported_moments (fun _ => .calm) (Archive.truthful sample _)
    byteSite_asks (by decide) (by decide) hs (byteSite_usable _) (Or.inl rfl) habsent rfl
  have hfailed : attempt twiceJob .calm firstTwo =
      (.error (.failed (.transport "archive" "withheld") 2), (attempt twiceJob .calm firstTwo).2) :=
    Prod.fst_eq_iff.mp (by decide +kernel)
  have hnext : Starts twiceJob (fun _ => .calm) firstTwo 2
      (secondTry (attempt twiceJob .calm firstTwo).2) :=
    .next .first hfailed (by decide +kernel) (by decide +kernel)
  refine ⟨hall fun k x resume hstart hcomes => ?_, by decide +kernel⟩
  have hpos := hstart.download_eq.1
  have hle : k ≤ 2 := hstart.le_attempts
  obtain rfl | rfl : k = 1 ∨ k = 2 := by omega
  · obtain rfl := hstart.unique .first
    exact Nat.zero_le resume
  · obtain rfl := hstart.unique hnext
    obtain ⟨z, hchoose, -⟩ := hcomes
    have hplace : ((secondTry (attempt twiceJob .calm firstTwo).2).choosePlace twiceJob .calm
      sample.size).1 = .ok (byteSite.placement none 2) := by decide +kernel
    rw [hchoose] at hplace
    obtain rfl : resume = 2 := congrArg Placement.resume (Except.ok.inj hplace)
    decide +kernel

/-- A remote that serves the ranges of an object as they are, until it has answered `left` requests
more. -/
structure Lasting (object : ByteArray) where
  left : Nat

instance {object : ByteArray} : Remote (Lasting object) where
  objectSize m _ := (some object.size, m)
  connect m := (.ok (), m)
  get m q :=
    match m.left, q.range with
    | left + 1, some r => (⟨.response ⟨206, object.extract r.first r.pastEnd, none⟩, false⟩, ⟨left⟩)
    | _, _ => (⟨.failed (.transport "remote" "down"), false⟩, m)

theorem Lasting.truthful (object : ByteArray) (url : String) :
    Truthful (Lasting object) url object := by
  intro m q r response acceptWhole _ hrange _ hanswer
  obtain ⟨left⟩ := m
  simp only [Remote.get, hrange] at hanswer
  cases left with
  | zero => cases hanswer
  | succ left =>
    cases hanswer
    refine ⟨fun body hbody => (classify_part hbody).1, fun body hbody => ?_⟩
    have := (classify_whole hbody).2.1
    simp at this

/-- A job for the sample in parts of three bytes, which is tried twice. -/
abbrev wideJob : Job := { twiceJob with settings := { twiceJob.settings with partSize := 3 } }

/-- The place for these parts. -/
abbrev wideSite : Site := { byteSite with partSize := 3 }

/-- A transfer from a remote that answers two requests. -/
abbrev lastingTwo : Transfer (Lasting sample) := ⟨⟨⟨2⟩, .fresh, []⟩, .fresh []⟩

/-- The first attempt gets two bytes, which are kept and reported; the second one counts whole parts,
discards the two bytes when it opens its sink, and gets none. -/
theorem not_reported_lastingTwo :
    Truthful (Lasting sample) wideSite.url sample ∧
    wideSite.Asks (Lasting sample) sample.size wideJob ∧
    (wideSite.placement none 0).Absent lastingTwo.store ∧
    lastingTwo.session.progress.bytes = 0 ∧
    (download wideJob (fun _ => .calm) lastingTwo).2.session.progress.bytes = 2 ∧
    (wideSite.placement none 0).byteAt (download wideJob (fun _ => .calm) lastingTwo).2.store 0 =
      none ∧
    ¬ ∀ m ∈ moments wideJob (fun _ => .calm) sample.size lastingTwo,
      Backed (fun n => n) (wideSite.placement none 0) sample m := by
  refine ⟨Lasting.truthful sample _, ⟨rfl, rfl, rfl, rfl, rfl, Or.inl rfl⟩,
    ⟨by decide +kernel, by decide +kernel⟩, rfl, by decide +kernel, by decide +kernel,
    fun hall => ?_⟩
  obtain ⟨m, hm, hbytes, hnone⟩ : ∃ m ∈ moments wideJob (fun _ => .calm) sample.size lastingTwo,
      m.bytes = 2 ∧ (wideSite.placement none 0).byteAt m.store 0 = none := by decide +kernel
  obtain ⟨b, hb, -⟩ := (hall m hm).2 0 (Nat.zero_le 0) (by rw [hbytes]; exact Nat.two_pos)
  rw [hnone] at hb
  cases hb

end Transfer

end RangeTransfer
