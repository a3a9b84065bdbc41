import RangeTransfer.Proofs.Attempt.Outcome
/-!
# Watermark, byte count and progress

Callers claim ranges from one tracker and record them, and the three steps of a record (the
watermark, the byte count, the progress of the caller) are free to mix with those of other records.
`Counters` is what they act on, `Counters.run` lets them take turns. At every moment the watermark
is the greatest offset below which all bytes are there or recorded; between records the byte count
is the number of bytes recorded, and the watermark, the byte count and the progress agree
(`run_agrees`), whatever the turns were.
-/

namespace RangeTransfer

/-- The offset that a caller inside a record is about to raise the progress to. -/
def Stage.raise? : Stage → Option Nat
  | marked _ reached | counted _ reached => some reached
  | seeking | claimed _ | asking _ _ | pausing _ _ | failing _ _ | holding _ _ | written _
  | writtenWhole _ | stopped | died _ => none

/-- What callers of a tracker act on. A caller is `seeking` while it holds no range, `claimed` until
it begins to record its range, and then `marked` and `counted` inside the record. -/
structure Counters where
  tracker : Tracker
  progress : Progress
  callers : List Stage
  /-- The ranges that the watermark has been moved over, the last one first. -/
  recorded : List ByteRange

namespace Counters

/-- `n` callers that have not claimed anything. -/
def new (url : String) (resume total chunk : Nat) (progress : Progress) (n : Nat) : Counters where
  tracker := .new url resume total chunk
  progress
  callers := List.replicate n .seeking
  recorded := []

/-- The next step of one caller, which reports `code` with the ranges that it counts. -/
def step (c : Counters) (caller code : Nat) : Except Abort Counters :=
  match c.callers[caller]? with
  | some .seeking => do
    match ← c.tracker.claim with
    | (none, tracker) => return { c with tracker }
    | (some r, tracker) =>
      return { c with tracker, callers := c.callers.set caller (.claimed r) }
  | some (.claimed r) => do
    let tracker ← c.tracker.mark r
    return { c with
      tracker
      callers := c.callers.set caller (.marked r tracker.watermark.reached)
      recorded := r :: c.recorded }
  | some (.marked r reached) => do
    let tracker ← c.tracker.count r code
    return { c with tracker, callers := c.callers.set caller (.counted r reached) }
  | some (.counted _ reached) =>
    .ok { c with
      progress := c.progress.advanceTo reached
      callers := c.callers.set caller .seeking }
  | _ => .ok c

/-- Callers take turns; a turn names the caller and the status code. -/
def run : List (Nat × Nat) → Counters → Except Abort Counters
  | [], c => .ok c
  | (caller, code) :: turns, c => do run turns (← c.step caller code)

/-- No caller is inside a record. -/
def Quiet (c : Counters) : Prop := ∀ stage ∈ c.callers, stage.raise? = none

theorem run_alone (c : Counters) {caller : Nat} {r : ByteRange}
    (h : c.callers[caller]? = some (.claimed r)) (code : Nat) :
    run [(caller, code), (caller, code), (caller, code)] c =
      (c.tracker.recordWritten c.progress r code).map fun x =>
        { tracker := x.1, progress := x.2, callers := c.callers.set caller .seeking,
          recorded := r :: c.recorded } := by
  have hlt : caller < c.callers.length := (List.getElem?_eq_some_iff.mp h).1
  have hset : ∀ a, (c.callers.set caller a)[caller]? = some a := fun a =>
    List.getElem?_set_self hlt
  simp only [run, step, h, Tracker.recordWritten, bind, Except.bind]
  cases c.tracker.mark r with
  | error abort => rfl
  | ok t =>
    simp only [pure, Except.pure, hset, List.set_set]
    cases t.count r code with
    | error abort => rfl
    | ok t' => simp only [hset, List.set_set, Except.map]

/-! ## What holds at every moment -/

/-- The books are kept, and the progress lies between its start `start` and the watermark, which it
has not reached only while a caller is about to raise it there. -/
structure Kept (start : Nat) (c : Counters) : Prop where
  accounts : Accounts c.callers c.tracker c.recorded []
  start_le : start ≤ c.progress.bytes
  bytes_le : c.progress.bytes ≤ max start c.tracker.watermark.reached
  raise_le : ∀ stage ∈ c.callers, ∀ n, stage.raise? = some n → n ≤ c.tracker.watermark.reached
  pending : c.tracker.watermark.reached ≤ c.progress.bytes ∨
    ∃ (i : Nat) (stage : Stage), c.callers[i]? = some stage ∧
      stage.raise? = some c.tracker.watermark.reached

theorem kept_new (url : String) {resume total : Nat} (chunk : Nat) (hle : resume ≤ total)
    (hfit : total < Offset.limit) {p : Progress} (hp : resume ≤ p.bytes) (n : Nat) :
    (new url resume total chunk p n).Kept p.bytes where
  accounts := accounts_new hle hfit n
  start_le := Nat.le_refl _
  bytes_le := Nat.le_max_left _ _
  raise_le stage hstage n hn := by
    rw [List.eq_of_mem_replicate hstage] at hn
    cases hn
  pending := Or.inl hp

variable {start : Nat} {c : Counters} {i : Nat} {a : Stage}

theorem Kept.swap (h : c.Kept start) (hi : c.callers[i]? = some a) (a' : Stage) (t : Tracker)
    (hraise : a'.raise? = a.raise?) (ht : t.watermark = c.tracker.watermark)
    (haccounts : Accounts (c.callers.set i a') t c.recorded []) :
    { c with tracker := t, callers := c.callers.set i a' }.Kept start where
  accounts := haccounts
  start_le := h.start_le
  bytes_le := by rw [ht]; exact h.bytes_le
  raise_le stage hstage n hn := by
    rw [ht]
    rcases List.mem_or_eq_of_mem_set hstage with hmem | rfl
    · exact h.raise_le stage hmem n hn
    · exact h.raise_le a (List.mem_of_getElem? hi) n (hraise ▸ hn)
  pending := by
    rw [ht]
    refine h.pending.imp id fun ⟨j, stage, hj, hstage⟩ => ?_
    by_cases hij : i = j
    · subst hij
      obtain rfl : a = stage := by rw [hi] at hj; exact Option.some.inj hj
      exact ⟨i, a', List.getElem?_set_self (List.getElem?_eq_some_iff.mp hi).1, hraise ▸ hstage⟩
    · exact ⟨j, stage, by rw [List.getElem?_set_ne hij]; exact hj, hstage⟩

theorem Kept.claim (h : c.Kept start) (hi : c.callers[i]? = some .seeking) (code : Nat) :
    ∃ c', c.step i code = .ok c' ∧ c'.Kept start ∧ c'.tracker.task = c.tracker.task ∧
      c'.tracker.watermark = c.tracker.watermark ∧ c'.recorded = c.recorded := by
  by_cases hlt : c.tracker.plan.next < c.tracker.plan.total
  · cases herr : c.tracker.error with
    | none =>
      refine ⟨_, ?_, h.swap hi (.claimed (.upTo _ _ (Plan.lt_nextEnd hlt)))
        { c.tracker with plan := c.tracker.plan.rest } rfl rfl (h.accounts.claim hi rfl rfl hlt),
        rfl, rfl, rfl⟩
      simp only [step, hi, bind, Except.bind,
        Tracker.claim_of_lt herr hlt (h.accounts.plan_total ▸ h.accounts.fits)]
      rfl
    | some e =>
      refine ⟨c, ?_, h, rfl, rfl, rfl⟩
      simp only [step, hi, bind, Except.bind, Tracker.claim_of_error herr]
      rfl
  · refine ⟨c, ?_, h, rfl, rfl, rfl⟩
    simp only [step, hi, bind, Except.bind, Tracker.claim_of_le (Nat.not_lt.mp hlt)]
    rfl

theorem Kept.mark (h : c.Kept start) {r : ByteRange} (hi : c.callers[i]? = some (.claimed r))
    (code : Nat) :
    ∃ c', c.step i code = .ok c' ∧ c'.Kept start ∧ c'.tracker.task = c.tracker.task ∧
      c.tracker.watermark.reached ≤ c'.tracker.watermark.reached ∧
      c'.recorded = r :: c.recorded := by
  obtain ⟨w, hmark, haccounts⟩ := h.accounts.mark hi rfl rfl
  have hgrow : c.tracker.watermark.reached ≤ w.reached :=
    (haccounts.covered_iff _).mp (((h.accounts.covered_iff _).mpr (Nat.le_refl _)).cons r)
  refine ⟨{ c with
      tracker := { c.tracker with watermark := w }
      callers := c.callers.set i (.marked r w.reached)
      recorded := r :: c.recorded }, ?_, ⟨haccounts, h.start_le, ?_, ?_, ?_⟩, rfl, hgrow, rfl⟩
  · simp only [step, hi, bind, Except.bind, hmark]
    rfl
  · have := h.bytes_le
    show c.progress.bytes ≤ max start w.reached
    omega
  · intro stage hstage n hn
    rcases List.mem_or_eq_of_mem_set hstage with hmem | rfl
    · exact Nat.le_trans (h.raise_le stage hmem n hn) hgrow
    · exact Nat.le_of_eq (Option.some.inj hn).symm
  · exact Or.inr ⟨i, .marked r w.reached,
      List.getElem?_set_self (List.getElem?_eq_some_iff.mp hi).1, rfl⟩

theorem Kept.count (h : c.Kept start) {r : ByteRange} {reached : Nat}
    (hi : c.callers[i]? = some (.marked r reached)) (code : Nat) :
    ∃ c', c.step i code = .ok c' ∧ c'.Kept start ∧ c'.tracker.task = c.tracker.task ∧
      c'.tracker.watermark = c.tracker.watermark ∧ c'.recorded = c.recorded := by
  obtain ⟨hcount, haccounts⟩ := h.accounts.countRange hi code
  refine ⟨_, ?_, h.swap hi (.counted r reached)
    { c.tracker with completed := c.tracker.completed + r.length, code } rfl rfl haccounts,
    rfl, rfl, rfl⟩
  simp only [step, hi, bind, Except.bind, hcount]
  rfl

theorem Kept.raise (h : c.Kept start) {r : ByteRange} {reached : Nat}
    (hi : c.callers[i]? = some (.counted r reached)) :
    Kept start { c with
      progress := c.progress.advanceTo reached
      callers := c.callers.set i .seeking } where
  accounts := h.accounts.swap hi rfl rfl (by simp [Stage.isWhole])
  start_le := Nat.le_trans h.start_le (Progress.bytes_advanceTo _ _)
  bytes_le := by
    have := h.raise_le _ (List.mem_of_getElem? hi) reached rfl
    have := h.bytes_le
    show max c.progress.bytes reached ≤ max start c.tracker.watermark.reached
    omega
  raise_le stage hstage n hn := by
    rcases List.mem_or_eq_of_mem_set hstage with hmem | rfl
    · exact h.raise_le stage hmem n hn
    · cases hn
  pending := by
    rcases h.pending with hle | ⟨j, stage, hj, hstage⟩
    · exact Or.inl (Nat.le_trans hle (Progress.bytes_advanceTo _ _))
    · by_cases hij : i = j
      · subst hij
        rw [hi] at hj
        obtain rfl := Option.some.inj hj
        obtain rfl : reached = c.tracker.watermark.reached := Option.some.inj hstage
        exact Or.inl (Nat.le_max_right _ _)
      · exact Or.inr ⟨j, stage, by rw [List.getElem?_set_ne hij]; exact hj, hstage⟩

/-- A turn of any caller goes through, keeps the books, and does not lower the watermark. -/
theorem Kept.step (h : c.Kept start) (i code : Nat) :
    ∃ c', c.step i code = .ok c' ∧ c'.Kept start ∧ c'.tracker.task = c.tracker.task ∧
      c.tracker.watermark.reached ≤ c'.tracker.watermark.reached := by
  have hstay : c.step i code = .ok c →
      ∃ c', c.step i code = .ok c' ∧ c'.Kept start ∧ c'.tracker.task = c.tracker.task ∧
        c.tracker.watermark.reached ≤ c'.tracker.watermark.reached :=
    fun hstep => ⟨c, hstep, h, rfl, Nat.le_refl _⟩
  cases hi : c.callers[i]? with
  | none => exact hstay (by simp only [Counters.step, hi])
  | some a =>
    cases a with
    | seeking =>
      obtain ⟨c', hstep, hkept, htask, hw, -⟩ := h.claim hi code
      exact ⟨c', hstep, hkept, htask, Nat.le_of_eq (by rw [hw])⟩
    | claimed r =>
      obtain ⟨c', hstep, hkept, htask, hle, -⟩ := h.mark hi code
      exact ⟨c', hstep, hkept, htask, hle⟩
    | marked r reached =>
      obtain ⟨c', hstep, hkept, htask, hw, -⟩ := h.count hi code
      exact ⟨c', hstep, hkept, htask, Nat.le_of_eq (by rw [hw])⟩
    | counted r reached =>
      exact ⟨_, by simp only [Counters.step, hi], h.raise hi, rfl, Nat.le_refl _⟩
    | _ => exact hstay (by simp only [Counters.step, hi])

theorem Kept.run (h : c.Kept start) (turns : List (Nat × Nat)) :
    ∃ c', run turns c = .ok c' ∧ c'.Kept start ∧ c'.tracker.task = c.tracker.task ∧
      c.tracker.watermark.reached ≤ c'.tracker.watermark.reached := by
  induction turns generalizing c with
  | nil => exact ⟨c, rfl, h, rfl, Nat.le_refl _⟩
  | cons turn turns ih =>
    obtain ⟨c₁, hstep, hkept₁, htask₁, hle₁⟩ := h.step turn.1 turn.2
    obtain ⟨c₂, hrun, hkept₂, htask₂, hle₂⟩ := ih hkept₁
    refine ⟨c₂, ?_, hkept₂, htask₂.trans htask₁, Nat.le_trans hle₁ hle₂⟩
    simp only [Counters.run, hstep, bind, Except.bind]
    exact hrun

theorem run_append (before after : List (Nat × Nat)) (c : Counters) :
    run (before ++ after) c = (run before c).bind (run after) := by
  induction before generalizing c with
  | nil => rfl
  | cons turn before ih =>
    simp only [List.cons_append, run, bind, Except.bind]
    cases c.step turn.1 turn.2 with
    | error abort => rfl
    | ok c' => exact ih c'

/-! ## Between records -/

theorem Kept.nodup_recorded (h : c.Kept start) : c.recorded.Nodup := by
  have := h.accounts.pairwise_apart
  rw [List.append_nil] at this
  refine (List.pairwise_append.mp this).2.1.imp ?_
  rintro r _ happart rfl
  exact r.not_apart_self happart

theorem Kept.planned_of_recorded (h : c.Kept start) {r : ByteRange} (hr : r ∈ c.recorded) :
    r ∈ c.tracker.planned :=
  h.accounts.mem_planned (by simp [hr])

theorem Kept.covered_iff_planned (h : c.Kept start) :
    Covered c.tracker.resume c.recorded c.tracker.total ↔
      ∀ r ∈ c.tracker.planned, r ∈ c.recorded := by
  have hplanned := h.accounts.consecutive_planned
  constructor
  · intro hcov r hr
    have hb := hplanned.bounds hr
    rcases hcov r.first (Nat.lt_of_lt_of_le r.first_lt_pastEnd hb.2) with hlow | ⟨q, hq, hqo⟩
    · omega
    · rwa [hplanned.eq_of_has hr (h.planned_of_recorded hq) r.has_first hqo]
  · intro hall o ho
    by_cases hlow : o < c.tracker.resume
    · exact Or.inl hlow
    · obtain ⟨r, hr, hro⟩ := hplanned.exists_has (Nat.not_lt.mp hlow) ho
      exact Or.inr ⟨r, hall r hr, hro⟩

theorem Kept.completed_eq (h : c.Kept start) (hquiet : c.Quiet) :
    c.tracker.completed = totalLength c.recorded := by
  have hnone : c.callers.filterMap Stage.uncounted? = [] := by
    refine List.filterMap_eq_nil_iff.mpr fun stage hstage => ?_
    have := hquiet stage hstage
    cases stage <;> first | rfl | cases this
  have := h.accounts.count
  rwa [hnone, totalLength_nil, Nat.add_zero] at this

theorem Kept.bytes_eq (h : c.Kept start) (hquiet : c.Quiet) :
    c.progress.bytes = max start c.tracker.watermark.reached := by
  have hstart := h.start_le
  have hle := h.bytes_le
  rcases h.pending with hreached | ⟨i, stage, hi, hraise⟩
  · omega
  · rw [hquiet stage (List.mem_of_getElem? hi)] at hraise
    cases hraise

theorem Kept.isComplete_iff (h : c.Kept start) (hquiet : c.Quiet) :
    ∃ full, c.tracker.isComplete = .ok full ∧
      (full = true ↔ ∀ r ∈ c.tracker.planned, r ∈ c.recorded) ∧
      (full = true ↔ c.tracker.watermark.reached = c.tracker.total) := by
  refine ⟨_, h.accounts.isComplete_eq (h.completed_eq hquiet), ?_, decide_eq_true_iff⟩
  rw [decide_eq_true_iff, ← h.covered_iff_planned, h.accounts.covered_iff]
  have := h.accounts.reached_le
  exact ⟨fun hend => Nat.le_of_eq hend.symm, fun hle => Nat.le_antisymm this hle⟩

theorem Kept.agree {c' : Counters} (h : c.Kept start) (h' : c'.Kept start) (hquiet : c.Quiet)
    (hquiet' : c'.Quiet) (htask : c'.tracker.task = c.tracker.task)
    (hsame : ∀ r, r ∈ c'.recorded ↔ r ∈ c.recorded) :
    c'.tracker.watermark.reached = c.tracker.watermark.reached ∧
      c'.tracker.completed = c.tracker.completed ∧ c'.progress.bytes = c.progress.bytes := by
  have hresume : c'.tracker.resume = c.tracker.resume := congrArg (·.2.1) htask
  have hcovered : ∀ e, Covered c'.tracker.resume c'.recorded e ↔
      Covered c.tracker.resume c.recorded e := fun e => by
    simp only [Covered, hresume, hsame]
  have hreached : c'.tracker.watermark.reached = c.tracker.watermark.reached := by
    refine Nat.le_antisymm ?_ ?_
    · exact (h.accounts.covered_iff _).mp
        ((hcovered _).mp ((h'.accounts.covered_iff _).mpr (Nat.le_refl _)))
    · exact (h'.accounts.covered_iff _).mp
        ((hcovered _).mpr ((h.accounts.covered_iff _).mpr (Nat.le_refl _)))
  refine ⟨hreached, ?_, by rw [h.bytes_eq hquiet, h'.bytes_eq hquiet', hreached]⟩
  rw [h.completed_eq hquiet, h'.completed_eq hquiet']
  exact totalLength_perm ((List.perm_ext_iff_of_nodup h'.nodup_recorded h.nodup_recorded).mpr hsame)

/-- Whatever turns callers take, each range is recorded once, and the watermark is the greatest
offset below which all bytes are there or recorded; it never falls. Between records byte count,
watermark and progress depend on the recorded ranges alone, however these came to be recorded. -/
theorem run_agrees (url : String) {resume total : Nat} (chunk : Nat) (hle : resume ≤ total)
    (hfit : total < Offset.limit) {p : Progress} (hp : resume ≤ p.bytes) (n : Nat)
    (turns : List (Nat × Nat)) :
    ∃ c, run turns (new url resume total chunk p n) = .ok c ∧
      c.recorded.Nodup ∧ (∀ r ∈ c.recorded, r ∈ (Plan.new resume total chunk).ranges) ∧
      (∀ e, Covered resume c.recorded e ↔ e ≤ c.tracker.watermark.reached) ∧
      (∀ later, ∃ c', run (turns ++ later) (new url resume total chunk p n) = .ok c' ∧
        c.tracker.watermark.reached ≤ c'.tracker.watermark.reached) ∧
      (c.Quiet →
        c.tracker.completed = totalLength c.recorded ∧
        (∃ full, c.tracker.isComplete = .ok full ∧
          (full = true ↔ ∀ r ∈ (Plan.new resume total chunk).ranges, r ∈ c.recorded) ∧
          (full = true ↔ c.tracker.watermark.reached = total)) ∧
        c.progress.bytes = max p.bytes c.tracker.watermark.reached ∧
        ∀ n' turns' c', run turns' (new url resume total chunk p n') = .ok c' → c'.Quiet →
          (∀ r, r ∈ c'.recorded ↔ r ∈ c.recorded) →
          c'.tracker.watermark.reached = c.tracker.watermark.reached ∧
            c'.tracker.completed = c.tracker.completed ∧ c'.progress.bytes = c.progress.bytes) := by
  have hnew := kept_new url chunk hle hfit hp
  obtain ⟨c, hrun, hkept, htask, -⟩ := (hnew n).run turns
  have hplanned : c.tracker.planned = (Plan.new resume total chunk).ranges :=
    (Tracker.planned_eq_of_task htask).trans (Tracker.planned_new url resume total chunk)
  have hresume : c.tracker.resume = resume := congrArg (·.2.1) htask
  have htotal : c.tracker.total = total := congrArg (·.2.2.1) htask
  refine ⟨c, hrun, hkept.nodup_recorded, fun r hr => hplanned ▸ hkept.planned_of_recorded hr,
    fun e => hresume ▸ hkept.accounts.covered_iff e, fun later => ?_, fun hquiet =>
    ⟨hkept.completed_eq hquiet, ?_, hkept.bytes_eq hquiet, fun n' turns' c' hrun' hquiet' hsame => ?_⟩⟩
  · obtain ⟨c', hlater, -, -, hgrow⟩ := hkept.run later
    refine ⟨c', ?_, hgrow⟩
    rw [run_append, hrun]
    exact hlater
  · rw [← hplanned, ← htotal]
    exact hkept.isComplete_iff hquiet
  · obtain ⟨c'', hrun'', hkept', htask', -⟩ := (hnew n').run turns'
    obtain rfl : c'' = c' := by
      rw [hrun'] at hrun''
      exact (Except.ok.inj hrun'').symm
    exact hkept.agree hkept' hquiet hquiet' (htask'.trans htask.symm) hsame

/-- Turns of two callers whose records mix: the second range is recorded first, and the first caller
moves the watermark inside the record of the second. -/
def mixed : List (Nat × Nat) :=
  [(0, 206), (1, 206), (1, 206), (0, 206), (1, 206), (0, 206), (1, 206), (0, 206)]

theorem run_agrees_mixed :
    3 ≤ 23 ∧ 23 < Offset.limit ∧ 3 ≤ (Progress.fresh.advanceTo 5).bytes ∧
    ∃ c, run mixed (new "u" 3 23 10 (Progress.fresh.advanceTo 5) 2) = .ok c ∧
      c.recorded = [⟨3, 12, by decide⟩, ⟨13, 22, by decide⟩] ∧ c.Quiet ∧
      c.tracker.completed = 20 ∧ c.tracker.watermark.reached = 23 ∧ c.progress.bytes = 23 := by
  obtain ⟨c, hrun, hrecorded, hcallers, hreached⟩ :
      ∃ c, run mixed (new "u" 3 23 10 (Progress.fresh.advanceTo 5) 2) = .ok c ∧
        c.recorded = [⟨3, 12, by decide⟩, ⟨13, 22, by decide⟩] ∧
        c.callers = List.replicate 2 .seeking ∧ c.tracker.watermark.reached = 23 :=
    ⟨_, by rfl, by rfl, by rfl, by rfl⟩
  have hquiet : c.Quiet := fun stage hstage => by
    rw [hcallers] at hstage
    rw [List.eq_of_mem_replicate hstage]
    rfl
  obtain ⟨c', hrun', -, -, -, -, hcounts⟩ := run_agrees "u" 10 (show 3 ≤ 23 by decide)
    (show 23 < Offset.limit by decide) (show 3 ≤ (Progress.fresh.advanceTo 5).bytes by decide) 2 mixed
  obtain rfl : c = c' := Except.ok.inj (hrun.symm.trans hrun')
  obtain ⟨hcompleted, -, hbytes, -⟩ := hcounts hquiet
  exact ⟨by decide, by decide, by decide, c, hrun, hrecorded, hquiet,
    by rw [hcompleted, hrecorded]; rfl, hreached, by rw [hbytes, hreached]; rfl⟩

end Counters

end RangeTransfer
