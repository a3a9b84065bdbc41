import RangeTransfer.Proofs.Remote.Serving
import RangeTransfer.Proofs.Sink.Open
/-!
# The checkpoint of a split directory

A new attempt takes up behind the leading parts that are of full length, whatever is in them. This
is sound at every moment of an attempt if no range can make a part full before the bytes in front of
it are there: each range starts in a part that is not full yet, and reaches the end of that part
unless one worker fetches all ranges in order (`Guarded`). Otherwise there is a remote and an order
of steps in which a part is full and lacks bytes (`checkpointSound_guarded`).

The proof compares lengths. `covered_of_guarded`: the first range not stored starts in a part whose
last byte no other range has stored. `lt_existingSize`: if the last byte of that part is stored and
all ranges in front are, the count gets past the start of the range.
-/

namespace RangeTransfer
open Store

namespace SplitLayout

variable {l : SplitLayout} {s s' : Store} {rs planned : List ByteRange}
  {resume total workers e : Nat}

/-- The end of part `j` of an object of `total` bytes. -/
def partEnd (l : SplitLayout) (total j : Nat) : Nat := min ((j + 1) * l.partSize) total

/-- No part up to part `j` is longer than it should be, so that a count of full parts can get
past it. -/
def Countable (l : SplitLayout) (s : Store) (total j : Nat) : Prop :=
  ∀ i ≤ j, l.partLength s i ≤ l.expectedLength i total

/-- The part in which the range `r` starts can pass for complete only once `r` is stored: it is not
of full length before, and with several workers `r` reaches its end. -/
def Guarded (l : SplitLayout) (s : Store) (total workers : Nat) (r : ByteRange) : Prop :=
  l.Countable s total (r.first / l.partSize) →
    l.partComplete s total (r.first / l.partSize) = false ∧
      (workers ≤ 1 ∨ l.partEnd total (r.first / l.partSize) ≤ r.pastEnd)

theorem covered_of_guarded (hplan : Consecutive resume total planned) (hfit : total < Offset.limit)
    (hfill : l.Filled s s' rs)
    (hrs : ∀ r ∈ rs, r ∈ planned ∨ r.first = 0 ∧ r.pastEnd = total)
    (hguarded : ∀ r ∈ planned, l.Guarded s total workers r)
    (horder : workers ≤ 1 → Crew.InOrder planned rs) (he : l.existingSize s' total = .ok e) :
    Covered resume rs e := by
  obtain ⟨k, -, rfl, hall, -⟩ := existingSize_spec he
  intro o ho
  by_cases hlow : o < resume
  · exact Or.inl hlow
  right
  obtain ⟨r, hr, hro⟩ := hplan.exists_has (Nat.not_lt.mp hlow) (by omega : o < total)
  refine Classical.byContradiction fun hno => ?_
  have hnot : r ∉ rs := fun hmem => hno ⟨r, hmem, hro⟩
  have hpos := l.partSize_pos
  have hbounds := hplan.bounds hr
  have hfirst : r.first < k * l.partSize ∧ r.first < total := by
    have := hro.1
    omega
  -- the part in which `r` starts counts as complete
  have hcomplete : ∀ i ≤ r.first / l.partSize, i * l.partSize < total ∧
      l.partLength s' i = l.expectedLength i total := by
    intro i hi
    have hlt : i * l.partSize < total := by
      have := Nat.mul_le_mul_right l.partSize hi
      have := Nat.div_mul_le_self r.first l.partSize
      omega
    have hik : i < k := Nat.lt_of_le_of_lt hi ((Nat.div_lt_iff_lt_mul hpos).mpr hfirst.1)
    exact ⟨hlt, (partComplete_iff_length hlt hfit).mp (hall i hik)⟩
  obtain ⟨hbefore, hend⟩ := hguarded r hr fun i hi => by
    rw [← (hcomplete i hi).2]
    exact hfill.length_le i
  obtain ⟨hlt, hfull⟩ := hcomplete _ (Nat.le_refl _)
  have hless : l.partLength s (r.first / l.partSize) <
      l.expectedLength (r.first / l.partSize) total := by
    refine Nat.lt_of_le_of_ne (hfull ▸ hfill.length_le _) fun heq => ?_
    rw [(partComplete_iff_length hlt hfit).mpr heq] at hbefore
    cases hbefore
  have hdiv := Nat.div_add_mod r.first l.partSize
  have hmod := Nat.mod_lt r.first hpos
  rw [Nat.mul_comm] at hdiv
  rw [expectedLength_eq hlt hfit] at hfull hless
  -- so a stored range has its last byte
  obtain ⟨-, q, hq, hqfirst, hqpast⟩ := ((hfill.length (r.first / l.partSize)
    (min (total - r.first / l.partSize * l.partSize) l.partSize - 1)).mp (by omega)).resolve_left
      (by omega)
  rw [Nat.succ_mul] at hqfirst
  have hqr : q ∈ planned := (hrs q hq).resolve_right fun ⟨hzero, htotal⟩ =>
    hno ⟨q, hq, by rw [hzero]; exact Nat.zero_le _, by rw [htotal]; omega⟩
  have hafter : r.pastEnd ≤ q.first :=
    (hplan.apart hr hqr fun heq => hnot (heq ▸ hq)).resolve_right fun hbefore => by omega
  rcases hend with hone | hreach
  · exact hnot (horder hone q hq r hr (Nat.lt_of_lt_of_le r.first_lt_pastEnd hafter))
  · have := q.first_lt_pastEnd
    have := (hplan.bounds hqr).2
    rw [partEnd, Nat.succ_mul] at hreach
    omega

theorem Filled.lt_length (h : l.Filled s s' rs) {o : Nat}
    (ho : byteOf l.partSize (l.part? s) o ≠ none ∨ ∃ q ∈ rs, q.Has o) :
    o % l.partSize < l.partLength s' (o / l.partSize) := by
  have hdiv := Nat.div_add_mod o l.partSize
  have hmod := Nat.mod_lt o l.partSize_pos
  rw [Nat.mul_comm] at hdiv
  refine (h.length _ _).mpr (ho.imp (fun hthere => ?_) fun ⟨q, hq, hfirst, hpast⟩ => ?_)
  · rw [byteOf] at hthere
    rw [partLength]
    cases hp : l.part? s (o / l.partSize) with
    | none => rw [hp] at hthere; exact absurd rfl hthere
    | some c =>
      rw [hp, Option.bind_some] at hthere
      exact Nat.lt_of_not_le fun hle => hthere (Content.byteAt_of_le hle)
  · refine ⟨hmod, q, hq, ?_, by omega⟩
    rw [Nat.succ_mul]
    omega

/-- If the bytes before `r` are there, and the last byte of the part in which `r` starts, then a
count of full parts gets past the start of `r`. -/
theorem lt_existingSize (hfit : total < Offset.limit) (hfill : l.Filled s s' rs)
    (hrs : ∀ q ∈ rs, q.pastEnd ≤ total)
    (hresumed : ∀ o < resume, byteOf l.partSize (l.part? s) o ≠ none) {r : ByteRange}
    (hr : r.first < total) (hcountable : l.Countable s total (r.first / l.partSize))
    (hlast : l.partComplete s total (r.first / l.partSize) = true ∨
      ∃ q ∈ rs, q.Has (l.partEnd total (r.first / l.partSize) - 1))
    (hbefore : ∀ o, resume ≤ o → o < r.first → ∃ q ∈ rs, q.Has o)
    (he : l.existingSize s' total = .ok e) : r.first < e := by
  have hpos := l.partSize_pos
  have hdiv := Nat.div_mul_le_self r.first l.partSize
  have hmod := Nat.lt_div_mul_add hpos (a := r.first)
  have hcomplete : ∀ i ≤ r.first / l.partSize, l.partComplete s' total i = true := by
    intro i hi
    have hmul := Nat.mul_le_mul_right l.partSize hi
    have hlt : i * l.partSize < total := by omega
    refine (partComplete_iff_length hlt hfit).mpr (Nat.le_antisymm
      (hfill.length_le_expected hlt hfit hrs (hcountable i hi)) ?_)
    -- the last byte of the part is there
    have hreach : ∀ o, i * l.partSize ≤ o → o < i * l.partSize + l.partSize →
        (byteOf l.partSize (l.part? s) o ≠ none ∨ ∃ q ∈ rs, q.Has o) →
        o - i * l.partSize < l.partLength s' i := by
      intro o hlow hhigh ho
      have hquot : o / l.partSize = i := by
        refine Nat.div_eq_of_lt_le hlow ?_
        rw [Nat.succ_mul]
        exact hhigh
      have := hfill.lt_length ho
      rwa [hquot, Nat.mod_eq_sub, hquot, Nat.mul_comm] at this
    rw [expectedLength_eq hlt hfit]
    rcases Nat.lt_or_eq_of_le hi with hbelow | rfl
    · have hnext := Nat.mul_le_mul_right l.partSize (Nat.succ_le_of_lt hbelow)
      rw [Nat.succ_mul] at hnext
      have := hreach (i * l.partSize + l.partSize - 1) (by omega) (by omega) (by
        by_cases hlow : i * l.partSize + l.partSize - 1 < resume
        · exact Or.inl (hresumed _ hlow)
        · exact Or.inr (hbefore _ (Nat.not_lt.mp hlow) (by omega)))
      omega
    · rcases hlast with hold | hstored
      · rw [← expectedLength_eq hlt hfit, ← (partComplete_iff_length hlt hfit).mp hold]
        exact hfill.length_le _
      · rw [partEnd, Nat.succ_mul] at hstored
        have := hreach _ (by omega) (by omega) (Or.inr hstored)
        omega
  obtain ⟨k, -, rfl, -, hstop⟩ := existingSize_spec he
  refine Nat.lt_of_not_le fun hle => ?_
  have hk : k ≤ r.first / l.partSize := (Nat.le_div_iff_mul_le hpos).mpr (by omega)
  have hcount : k < l.partCount total := lt_partCount.mpr (by
    have := Nat.mul_le_mul_right l.partSize hk
    omega)
  have := hstop hcount
  rw [hcomplete k hk] at this
  cases this

/-! ## Attempts -/

/-- A crew of `workers` that is about to fetch the bytes from `resume` on into a split directory. -/
abbrev fetching {ρ : Type} (session : Session ρ) (q : SplitSink) (s : Store) (url : String)
    (resume total chunk workers : Nat) : Crew ρ Sink :=
  .new ⟨session, ⟨.split q, s⟩, .new url resume total chunk⟩ workers

/-- Whatever the remote does and in whatever order the workers step: after any writes, none of which
was broken off, the leading parts that are of full length have all bytes that were not there at the
start stored in them. -/
def CheckpointSound (q : SplitSink) (s : Store) (url : String) (resume total chunk workers : Nat) :
    Prop :=
  ∀ (ρ : Type) [Remote ρ] (session : Session ρ) (rules : WorkerRules) (moves : List Move),
    (rules.acceptWhole = true → workers = 1) →
    (fetching session q s url resume total chunk workers).Completes rules moves →
    ∀ e, q.layout.existingSize
        ((fetching session q s url resume total chunk workers).after rules moves).shared.sink.store
        total = .ok e →
      Covered resume ((fetching session q s url resume total chunk workers).stored rules moves) e

variable {q : SplitSink} {d : Location} {url : String} {chunk : Nat}

theorem filled_fetching {ρ : Type} [Remote ρ] {session : Session ρ} {rules : WorkerRules}
    {moves : List Move} (hopened : q.Opened s d) (hle : resume ≤ total) (hfit : total < Offset.limit)
    (hrules : rules.acceptWhole = true → workers = 1)
    (hcompletes : (fetching session q s url resume total chunk workers).Completes rules moves) :
    q.layout.Filled s
        ((fetching session q s url resume total chunk workers).after rules moves).shared.sink.store
        ((fetching session q s url resume total chunk workers).stored rules moves) ∧
      (∀ r ∈ (fetching session q s url resume total chunk workers).stored rules moves,
        r ∈ (Plan.new resume total chunk).ranges ∨ r.first = 0 ∧ r.pastEnd = total) ∧
      (workers = 1 → Crew.InOrder (Plan.new resume total chunk).ranges
        ((fetching session q s url resume total chunk workers).stored rules moves)) := by
  have hsolitary : (fetching session q s url resume total chunk workers).Solitary rules := fun h =>
    (List.length_replicate ..).trans (hrules h)
  have haccounted : (fetching session q s url resume total chunk workers).Accounted [] :=
    Crew.accounted_new rfl hle hfit workers
  have hplanned : (fetching session q s url resume total chunk workers).shared.tracker.planned =
      (Plan.new resume total chunk).ranges := Tracker.planned_new url resume total chunk
  have hsound : (⟨.split q, s⟩ : Sink).Sound := ⟨d, hopened⟩
  refine ⟨Crew.filled_after (serves_any ρ url total) hsolitary
    (Crew.faithful_new (x := ⟨session, ⟨.split q, s⟩, .new url resume total chunk⟩) hsound rfl workers)
    haccounted hcompletes rfl, fun r hr => hplanned ▸ Crew.planned_of_stored hsolitary haccounted hr,
    fun hone => ?_⟩
  subst hone
  have halone : (fetching session q s url resume total chunk 1).Alone [] := by
    refine ⟨⟨.seeking, rfl, fun r hr hlt => ?_⟩, nofun⟩
    rw [hplanned] at hr
    have := ((Plan.consecutive_new chunk hle hfit).bounds hr).1
    exact absurd hlt (Nat.not_lt.mpr this)
  have horder : Crew.InOrder _
      ((fetching session q s url resume total chunk 1).stored rules moves ++ []) :=
    Crew.inOrder_of_alone hsolitary haccounted halone
  rwa [List.append_nil, hplanned] at horder

theorem checkpointSound_of_guarded (hopened : q.Opened s d) (hle : resume ≤ total)
    (hfit : total < Offset.limit) (hworkers : 0 < workers)
    (hguarded : ∀ r ∈ (Plan.new resume total chunk).ranges, q.layout.Guarded s total workers r) :
    CheckpointSound q s url resume total chunk workers := by
  intro ρ _ session rules moves hrules hcompletes e he
  obtain ⟨hfilled, hplanned, horder⟩ := filled_fetching hopened hle hfit hrules hcompletes
  exact covered_of_guarded (Plan.consecutive_new chunk hle hfit) hfit
    hfilled hplanned hguarded (fun hone => horder (by omega)) he

/-- At an archive a crew can leave out any one range `r` and store all bytes in front of it, and
with several workers those behind it as well. -/
theorem exists_moves_leaving {object : ByteArray} (url : String) {session : Session (Archive object)}
    (hcalm : session.cancelled = false) (hserves : ∀ p, session.remote.withholds p = false)
    (hopened : q.Opened s d) (hle : resume ≤ object.size)
    (hfit : object.size < Offset.limit) (hworkers : 0 < workers)
    (hwritable : (⟨.split q, s⟩ : Sink).Writable object.size) {r : ByteRange}
    (hr : r ∈ (Plan.new resume object.size chunk).ranges) :
    ∃ moves, (fetching session q s url resume object.size chunk workers).Completes
        ⟨.single, false⟩ moves ∧
      (∀ p ∈ (fetching session q s url resume object.size chunk workers).stored ⟨.single, false⟩ moves,
        p ∈ (Plan.new resume object.size chunk).ranges ∧ p ≠ r) ∧
      ∀ o, resume ≤ o → o < object.size → o < r.first ∨ 1 < workers ∧ r.pastEnd ≤ o →
        ∃ p ∈ (fetching session q s url resume object.size chunk workers).stored ⟨.single, false⟩ moves,
          p.Has o := by
  have hsound : (⟨.split q, s⟩ : Sink).Sound := ⟨d, hopened⟩
  have hserving : (fetching session q s url resume object.size chunk workers).Serving url
      (fun _ => true) ⟨.split q, s⟩ [] [] [] :=
    Crew.serving_new hcalm (by simpa using hserves) hsound hle hfit workers
  obtain ⟨moves, hadvance, hmissing, hothers⟩ := Crew.exists_moves_past url ⟨.single, false⟩
    hcalm hserves hsound hwritable hle hfit rfl hworkers hr
  refine ⟨moves, Crew.completes_of_fated hadvance fun n =>
    hserving.fated_after rfl hwritable hadvance n, fun p hp => ⟨?_, fun h => hmissing (h ▸ hp)⟩,
    fun o hlow hhigh ho => ?_⟩
  · have hpool : WorkerRules.acceptWhole ⟨.single, false⟩ = false := rfl
    obtain ⟨_, hafter⟩ := hserving.after hpool hwritable hadvance
    have hplanned := hafter.mem_planned (List.mem_append_left _ hp)
    rwa [Tracker.planned_eq_of_task (Crew.task_after _ moves),
      show (fetching session q s url resume object.size chunk workers).shared.tracker.planned = _
        from Tracker.planned_new url resume object.size chunk] at hplanned
  · obtain ⟨p, hp, hpo⟩ :=
      (Plan.consecutive_new chunk hle hfit).exists_has hlow hhigh
    have hne : p ≠ r := by
      rintro rfl
      have := hpo.1
      have := hpo.2
      omega
    obtain ⟨p', hp', hfirst, hpast⟩ :=
      hothers p hp hne (ho.imp (Nat.lt_of_le_of_lt hpo.1) And.left)
    exact ⟨p', hp', Nat.le_trans hfirst hpo.1, Nat.lt_of_lt_of_le hpo.2 hpast⟩

theorem guarded_of_checkpointSound (hopened : q.Opened s d) (hle : resume ≤ total)
    (hsize : total < lengthLimit) (hpart : q.layout.partSize < Offset.limit)
    (hworkers : 0 < workers) (hwritable : (⟨.split q, s⟩ : Sink).Writable total)
    (hresumed : ∀ o < resume, byteOf q.layout.partSize (q.layout.part? s) o ≠ none)
    (hsound : CheckpointSound q s url resume total chunk workers) :
    ∀ r ∈ (Plan.new resume total chunk).ranges, q.layout.Guarded s total workers r := by
  intro r hr hcountable
  have hfit : total < Offset.limit := Nat.lt_trans hsize (by decide)
  have hplan := Plan.consecutive_new chunk hle hfit
  have hbounds := hplan.bounds hr
  have hrange := r.first_lt_pastEnd
  refine Classical.byContradiction fun hnot => ?_
  obtain ⟨object, rfl⟩ : ∃ object : ByteArray, total = object.size :=
    ⟨⟨Array.replicate total 0⟩, (Array.size_replicate ..).symm⟩
  let session : Session (Archive object) := ⟨⟨fun _ => false⟩, .fresh, []⟩
  obtain ⟨moves, hcompletes, hplanned, hstored⟩ := exists_moves_leaving url
    (show session.cancelled = false from rfl) (fun _ => rfl) hopened hle hfit hworkers hwritable hr
  obtain ⟨hfilled, -, -⟩ := filled_fetching hopened hle hfit (by simp) hcompletes
  have hcovered := hsound _ session ⟨.single, false⟩ moves (by simp) hcompletes
  generalize (fetching session q s url resume object.size chunk workers).stored ⟨.single, false⟩ moves =
    stored at hplanned hstored hfilled hcovered
  have hlast : q.layout.partComplete s object.size (r.first / q.layout.partSize) = true ∨
      ∃ p ∈ stored, p.Has (q.layout.partEnd object.size (r.first / q.layout.partSize) - 1) := by
    cases hcomplete : q.layout.partComplete s object.size (r.first / q.layout.partSize) with
    | true => exact Or.inl rfl
    | false =>
      obtain ⟨hmany, hshort⟩ := not_or.mp fun h => hnot ⟨hcomplete, h⟩
      have hend : q.layout.partEnd object.size (r.first / q.layout.partSize) ≤ object.size :=
        Nat.min_le_right _ _
      exact Or.inr (hstored _ (by omega) (by omega) (Or.inr ⟨by omega, by omega⟩))
  obtain ⟨e, he⟩ := exists_existingSize q.layout
    ((fetching session q s url resume object.size chunk workers).after ⟨.single, false⟩
      moves).shared.sink.store hsize hpart
  have hlt : r.first < e := lt_existingSize hfit hfilled
    (fun p hp => (hplan.bounds (hplanned p hp).1).2) hresumed (by omega) hcountable hlast
    (fun o hlow hhigh => hstored o hlow (by omega) (Or.inl hhigh)) he
  rcases hcovered e he r.first hlt with hlow | ⟨p, hp, hpr⟩
  · omega
  · obtain ⟨hpr', hne⟩ := hplanned p hp
    exact hne (hplan.eq_of_has hpr' hr hpr r.has_first)

/-- The directory of a split attempt can be trusted at every moment if each range to fetch is
guarded. Where the storage takes every write and all bytes below `resume` are there, it can be
trusted only then. -/
theorem checkpointSound_guarded (hopened : q.Opened s d) (hle : resume ≤ total)
    (hfit : total < Offset.limit) (hworkers : 0 < workers) :
    ((∀ r ∈ (Plan.new resume total chunk).ranges, q.layout.Guarded s total workers r) →
      CheckpointSound q s url resume total chunk workers) ∧
    (total < lengthLimit → q.layout.partSize < Offset.limit →
      (⟨.split q, s⟩ : Sink).Writable total →
      (∀ o < resume, byteOf q.layout.partSize (q.layout.part? s) o ≠ none) →
      CheckpointSound q s url resume total chunk workers →
      ∀ r ∈ (Plan.new resume total chunk).ranges, q.layout.Guarded s total workers r) :=
  ⟨checkpointSound_of_guarded hopened hle hfit hworkers,
    fun hsize hpart => guarded_of_checkpointSound hopened hle hsize hpart hworkers⟩

/-- A directory of parts of ten bytes. -/
abbrev tens : SplitLayout := ⟨⟨[100]⟩, 10, by decide⟩

/-- The store in which this directory has just been made. -/
abbrev madeTens : Store := (SplitSink.openAt (.fresh []) tens 0).2

theorem opened_madeTens : SplitSink.openAt (.fresh []) tens 0 = (.ok ⟨tens, none⟩, madeTens) ∧
    SplitSink.Opened ⟨tens, none⟩ madeTens [[100]] := by
  have hopen : SplitSink.openAt (.fresh []) tens 0 = (.ok ⟨tens, none⟩, madeTens) := by rfl
  have hplace : tens.At madeTens [[100]] := by rfl
  obtain ⟨-, d, hd, -⟩ := SplitSink.openAt_of_absent (wellFormed_fresh []) hopen fun d hd => by
    rw [hd.inj hplace]
    rfl
  exact ⟨hopen, hd.here.inj hplace ▸ hd⟩

theorem writable_madeTens : (⟨.split ⟨tens, none⟩, madeTens⟩ : Sink).Writable 20 :=
  Sink.writable_split opened_madeTens.2 (free_of_lt 2 (by decide) (by decide +kernel)) (by decide)
    (by decide)

theorem ranges_halves : (Plan.new 0 20 5).ranges =
    [⟨0, 4, by decide⟩, ⟨5, 9, by decide⟩, ⟨10, 14, by decide⟩, ⟨15, 19, by decide⟩] := by rfl

/-- Two workers that fetch twenty bytes, a whole part at a time or half a part at a time. -/
theorem checkpointSound_guarded_tens :
    SplitSink.Opened ⟨tens, none⟩ madeTens [[100]] ∧ 0 ≤ 20 ∧ 20 < Offset.limit ∧ 0 < 2 ∧
      CheckpointSound ⟨tens, none⟩ madeTens "u" 0 20 10 2 ∧
      ¬ CheckpointSound ⟨tens, none⟩ madeTens "u" 0 20 5 2 := by
  have hd := opened_madeTens.2
  refine ⟨hd, by decide, by decide, by decide,
    (checkpointSound_guarded hd (by decide) (by decide) (by decide)).1 ?_, fun hsound => ?_⟩
  · rw [show (Plan.new 0 20 10).ranges = [⟨0, 9, by decide⟩, ⟨10, 19, by decide⟩] by rfl]
    intro r hr _
    simp only [List.mem_cons, List.not_mem_nil, or_false] at hr
    rcases hr with rfl | rfl
    · exact ⟨by rfl, Or.inr (by decide)⟩
    · exact ⟨by rfl, Or.inr (by decide)⟩
  · have hguarded := (checkpointSound_guarded hd (by decide) (by decide) (by decide)).2 (by decide)
      (by decide) writable_madeTens (fun o ho => absurd ho (Nat.not_lt_zero o)) hsound
      ⟨0, 4, by decide⟩ (by rw [ranges_halves]; exact List.mem_cons_self)
    -- the range ends in the middle of its part
    obtain ⟨-, hone | hreach⟩ := hguarded fun i hi => by
      obtain rfl : i = 0 := Nat.le_zero.mp hi
      decide +kernel
    · exact absurd hone (by decide)
    · exact absurd hreach (by decide)

/-- Two workers that fetch twenty bytes, half a part at a time, from an archive. -/
abbrev halves : Crew (Archive ⟨Array.replicate 20 7⟩) Sink :=
  fetching ⟨⟨fun _ => false⟩, .fresh, []⟩ ⟨tens, none⟩ madeTens "u" 0 20 5 2

/-- The first worker claims the first half of part `00`, and the second worker fetches the other
half. -/
abbrev secondFirst : List Move := .advance 0 :: Crew.solo 1 4

/-- The part is then of full length, and counts as complete, while its first five bytes have never
been written. -/
theorem not_checkpointSound_halves :
    halves.Completes ⟨.single, false⟩ secondFirst ∧
      halves.stored ⟨.single, false⟩ secondFirst = [⟨5, 9, by decide⟩] ∧
      tens.existingSize (halves.after ⟨.single, false⟩ secondFirst).shared.sink.store 20 = .ok 10 ∧
      ¬ Covered 0 (halves.stored ⟨.single, false⟩ secondFirst) 10 := by
  have hsound : (⟨.split ⟨tens, none⟩, madeTens⟩ : Sink).Sound := ⟨_, opened_madeTens.2⟩
  have hserving : halves.Serving "u" (fun _ => true) ⟨.split ⟨tens, none⟩, madeTens⟩ [] [] [] :=
    Crew.serving_new rfl (fun _ => rfl) hsound (Nat.zero_le _) (by decide) 2
  have hadvance : ∀ m ∈ secondFirst, ∃ w, m = .advance w := fun m hm =>
    (List.mem_cons.mp hm).elim (fun h => ⟨0, h⟩) Crew.mem_solo
  have hstored : halves.stored ⟨.single, false⟩ secondFirst = [⟨5, 9, by decide⟩] := by rfl
  have hwritable : (⟨.split ⟨tens, none⟩, madeTens⟩ : Sink).Writable
      (ByteArray.size ⟨Array.replicate 20 7⟩) := writable_madeTens
  refine ⟨Crew.completes_of_fated hadvance fun n =>
    hserving.fated_after rfl hwritable hadvance n, hstored, by rfl, fun hcovered => ?_⟩
  rw [hstored] at hcovered
  rcases hcovered 0 (by decide) with hlow | ⟨r, hr, hro, -⟩
  · exact absurd hlow (by decide)
  · obtain rfl := List.mem_singleton.mp hr
    exact absurd hro (by decide)

end SplitLayout

end RangeTransfer
