import RangeTransfer.Proofs.Attempt.Faithful
import RangeTransfer.Proofs.Sink.Lengths
/-!
# The writes of a crew

`stored` are the ranges whose writes a list of moves has completed. These are planned ranges or the
whole object (`planned_of_stored`), each recorded range lies in one of them (`recorded_in_stored`),
and a crew of one stores them in order (`inOrder_of_alone`). As long as no write is broken off
(`Completes`), they tell the lengths of the parts (`filled_after`).
-/

namespace RangeTransfer

namespace Stage

/-- The range that a worker has stored on its way from one stage to the next. -/
def stores (total : Nat) : Stage → Stage → Option ByteRange
  | holding r _, written _ => some r
  | holding _ _, writtenWhole _ => if h : 0 < total then some (.upTo 0 total h) else none
  | _, _ => none

theorem stores_of_not_holding {a : Stage} (h : ∀ r body, a ≠ holding r body) (total : Nat)
    (a' : Stage) : a.stores total a' = none := by
  cases a with
  | holding r body => exact absurd rfl (h r body)
  | _ => rfl

section Steps

variable {ρ σ : Type} [Remote ρ] [RangeSink σ] {rules : WorkerRules} {w : Nat} {a a' : Stage}
  {x x' : Shared ρ σ} {r : ByteRange}

theorem Step.holding_of_written (h : Step rules w x a a' x')
    (ha' : a' = written r ∨ a' = writtenWhole r) : ∃ body, a = holding r body := by
  rcases ha' with rfl | rfl
  · cases h with
    | store => exact ⟨_, rfl⟩
    | rest finished => cases finished
  · cases h with
    | storeWhole => exact ⟨_, rfl⟩
    | rest finished => cases finished

theorem Step.stores_eq_some {total : Nat} (h : Step rules w x a a' x')
    (hr : a.stores total a' = some r) :
    (∃ data, a = holding r (.part data) ∧ a' = written r) ∨
      ∃ q data, a = holding q (.whole data) ∧ a' = writtenWhole q ∧ r.first = 0 ∧
        r.pastEnd = total := by
  cases h with
  | @store q data =>
    cases hr
    exact Or.inl ⟨data, rfl, rfl⟩
  | @storeWhole q data =>
    simp only [stores] at hr
    split at hr
    · cases hr
      exact Or.inr ⟨q, data, rfl, rfl, ByteRange.upTo_first _, ByteRange.upTo_pastEnd _⟩
    · cases hr
  | yield polls => cases polls <;> cases hr
  | overrun overruns => cases overruns <;> cases hr
  | rest finished => cases a <;> cases finished <;> cases hr
  | _ => cases hr

end Steps

/-- The worker has stored all planned ranges before the one it is at; it may have ended the
attempt. -/
def UpTo (planned rs : List ByteRange) (next : Nat) : Stage → Prop
  | claimed r | asking r _ | pausing r _ | holding r _ =>
    r.pastEnd = next ∧ ∀ q ∈ planned, q.first < r.first → q ∈ rs
  | seeking | written _ | marked _ _ | counted _ _ => ∀ q ∈ planned, q.first < next → q ∈ rs
  | failing _ _ | writtenWhole _ | stopped | died _ => True

theorem UpTo.step {ρ σ : Type} [Remote ρ] [RangeSink σ] {planned rs : List ByteRange} {a a' : Stage}
    {rules : WorkerRules} {w start past total : Nat} {x x' : Shared ρ σ}
    (hplanned : Consecutive start past planned) (hmem : ∀ r body, a = holding r body → r ∈ planned)
    (h : a.UpTo planned rs x.tracker.plan.next) (hstep : Step rules w x a a' x') :
    a'.UpTo planned ((a.stores total a').toList ++ rs) x'.tracker.plan.next := by
  cases hstep with
  | claim => exact ⟨ByteRange.upTo_pastEnd _, h⟩
  | start | again | pause | accept | mark | count | raise => exact h
  | @store r data =>
    intro q hq hlt
    by_cases hbefore : q.first < r.first
    · exact List.mem_cons_of_mem _ (h.2 q hq hbefore)
    · -- the range that starts within `r` is `r`
      have hsame : q = r := hplanned.eq_of_has hq (hmem r _ rfl) q.has_first
        ⟨Nat.not_lt.mp hbefore, h.1 ▸ hlt⟩
      exact hsame ▸ List.mem_cons_self
  | rest finished => cases a <;> cases finished <;> trivial
  | _ => trivial

end Stage

namespace Crew

variable {ρ σ : Type} {c c' : Crew ρ σ} {rules : WorkerRules} {m : Move} {moves : List Move}
  {rs : List ByteRange}

/-- No write is broken off on the way from one crew to the next: a worker that had a body in hand
still has it, or has stored it. -/
def Unbroken (c c' : Crew ρ σ) : Prop :=
  ∀ (w : Nat) r body, c.workers[w]? = some (.holding r body) →
    c'.workers[w]? = some (.holding r body) ∨ c'.workers[w]? = some (.written r) ∨
      c'.workers[w]? = some (.writtenWhole r)

/-- A worker that is about to record a range has stored it. -/
structure Stocked (c : Crew ρ σ) (rs : List ByteRange) : Prop where
  part : ∀ r, .written r ∈ c.workers → r ∈ rs
  whole : ∀ r, .writtenWhole r ∈ c.workers →
    ∀ h : 0 < c.shared.tracker.total, .upTo 0 c.shared.tracker.total h ∈ rs

theorem stocked_new (x : Shared ρ σ) (n : Nat) : (new x n).Stocked [] where
  part r hr := by cases List.eq_of_mem_replicate hr
  whole r hr := by cases List.eq_of_mem_replicate hr

/-- Every byte of `r` is in one range of `rs`. -/
def Inside (r : ByteRange) (rs : List ByteRange) : Prop :=
  ∃ q ∈ rs, q.first ≤ r.first ∧ r.pastEnd ≤ q.pastEnd

theorem Stocked.records (h : c.Stocked rs) {r : ByteRange} (hr : c.records m = some r) :
    Inside r rs := by
  cases m with
  | advance w =>
    obtain ⟨a, hw, ha⟩ := Option.bind_eq_some_iff.mp hr
    have hmem := List.mem_of_getElem? hw
    cases a with
    | written q =>
      cases ha
      exact ⟨r, h.part r hmem, Nat.le_refl _, Nat.le_refl _⟩
    | writtenWhole q =>
      simp only [Stage.records] at ha
      split at ha
      · rename_i hlt
        cases ha
        exact ⟨_, h.whole q hmem (Nat.zero_lt_of_lt hlt), Nat.zero_le _,
          Nat.le_of_eq ((ByteRange.upTo_pastEnd _).trans (ByteRange.upTo_pastEnd _).symm)⟩
      · cases ha
    | _ => cases ha
  | _ => cases hr

variable [Remote ρ] [RangeSink σ]

/-- The range whose write a move completes. -/
def stores (rules : WorkerRules) (c : Crew ρ σ) : Move → Option ByteRange
  | .advance w => c.workers[w]?.bind fun a =>
    a.stores c.shared.tracker.total (a.advance rules w c.shared).1
  | _ => none

/-- The ranges whose writes a list of moves completes, the latest first. -/
def stored (rules : WorkerRules) (c : Crew ρ σ) : List Move → List ByteRange
  | [] => []
  | m :: moves => stored rules (c.apply rules m) moves ++ (c.stores rules m).toList

/-- The moves break no write off. -/
def Completes (rules : WorkerRules) (c : Crew ρ σ) (moves : List Move) : Prop :=
  ∀ n, Unbroken (c.after rules (moves.take n)) (c.after rules (moves.take (n + 1)))

theorem Completes.head (h : Completes rules c (m :: moves)) : Unbroken c (c.apply rules m) := h 0

theorem Completes.tail (h : Completes rules c (m :: moves)) :
    Completes rules (c.apply rules m) moves := fun n => h (n + 1)

theorem Completes.cons (h : Unbroken c (c.apply rules m)) (h' : Completes rules (c.apply rules m) moves) :
    Completes rules c (m :: moves) := fun n => by
  cases n with
  | zero => exact h
  | succ n => exact h' n

theorem stores_advance {w : Nat} {a a' : Stage} {x' : Shared ρ σ} (hw : c.workers[w]? = some a)
    (advanced : a.advance rules w c.shared = (a', x')) :
    c.stores rules (.advance w) = a.stores c.shared.tracker.total a' := by
  simp only [stores, hw, Option.bind_some, advanced]

theorem stores_of_idle (idle : ∀ w a, m = .advance w → c.workers[w]? = some a → a.finished = true) :
    c.stores rules m = none := by
  cases m with
  | advance w =>
    cases hw : c.workers[w]? with
    | none => simp only [stores, hw, Option.bind_none]
    | some a =>
      rw [stores_advance hw (Stage.advance_of_finished (idle w a rfl hw))]
      have hfinished := idle w a rfl hw
      exact Stage.stores_of_not_holding (fun r body heq => by rw [heq] at hfinished; cases hfinished) _ _
  | _ => rfl

theorem holding_of_stores {r : ByteRange} (h : c.stores rules m = some r) :
    ∃ w q body, m = .advance w ∧ c.workers[w]? = some (.holding q body) ∧
      (((∃ data, body = .part data) ∧ r = q ∧ (c.apply rules m).workers = c.workers.set w (.written q)) ∨
        ((∃ data, body = .whole data) ∧ r.first = 0 ∧ r.pastEnd = c.shared.tracker.total ∧
          (c.apply rules m).workers = c.workers.set w (.writtenWhole q))) := by
  have hmoved := c.moved_apply rules m
  generalize c.apply rules m = c' at hmoved ⊢
  cases hmoved with
  | still idle =>
    rw [stores_of_idle idle] at h
    cases h
  | @step w _ _ _ hw _ hstep advanced =>
    rw [stores_advance hw advanced] at h
    obtain ⟨data, rfl, rfl⟩ | ⟨q, data, rfl, rfl, hbounds⟩ := hstep.stores_eq_some h
    · exact ⟨w, r, _, rfl, hw, Or.inl ⟨⟨data, rfl⟩, rfl, rfl⟩⟩
    · exact ⟨w, q, _, rfl, hw, Or.inr ⟨⟨data, rfl⟩, hbounds.1, hbounds.2, rfl⟩⟩
  | _ => cases h

/-! ## What is stored -/

theorem Accounted.stores {marked : List ByteRange} (h : c.Accounted marked) {r : ByteRange}
    (hr : c.stores rules m = some r) : r ∈ c.shared.tracker.planned ∨
      r.first = 0 ∧ r.pastEnd = c.shared.tracker.total := by
  obtain ⟨w, q, body, -, hw, ⟨-, rfl, -⟩ | ⟨-, hfirst, hpast, -⟩⟩ := holding_of_stores hr
  · have hmem := List.mem_of_getElem? hw
    rcases h with ⟨lost, h⟩ | h
    · exact Or.inl (h.mem_planned (Stage.mem_handed hmem rfl))
    · exact absurd (h.finished _ hmem) (by simp [Stage.finished])
  · exact Or.inr ⟨hfirst, hpast⟩

theorem planned_of_stored (hs : Solitary rules c) {marked : List ByteRange} (h : c.Accounted marked)
    {r : ByteRange} (hr : r ∈ c.stored rules moves) : r ∈ c.shared.tracker.planned ∨
      r.first = 0 ∧ r.pastEnd = c.shared.tracker.total := by
  induction moves generalizing c marked with
  | nil => cases hr
  | cons m moves ih =>
    rcases List.mem_append.mp hr with hr | hr
    · have hnext := ih (hs.apply m) (h.apply hs m) hr
      rwa [Tracker.planned_eq_of_task (task_apply c m), total_apply] at hnext
    · exact h.stores (Option.mem_toList.mp hr)

/-! ## What is recorded -/

omit [Remote ρ] [RangeSink σ] in
theorem Stocked.set (h : c.Stocked rs) {w : Nat} {a' : Stage} {x' : Shared ρ σ} {qs : List ByteRange}
    (htotal : x'.tracker.total = c.shared.tracker.total) (hpart : ∀ r, a' = .written r → r ∈ qs)
    (hwhole : ∀ r, a' = .writtenWhole r →
      ∀ h : 0 < c.shared.tracker.total, .upTo 0 c.shared.tracker.total h ∈ qs) :
    Stocked ⟨x', c.workers.set w a'⟩ (qs ++ rs) := by
  refine ⟨fun r hr => ?_, fun r hr => ?_⟩
  · rcases List.mem_or_eq_of_mem_set hr with hmem | heq
    · exact List.mem_append_right _ (h.part r hmem)
    · exact List.mem_append_left _ (hpart r heq.symm)
  · show ∀ hpos : 0 < x'.tracker.total, _
    rw [htotal]
    intro hpos
    rcases List.mem_or_eq_of_mem_set hr with hmem | heq
    · exact List.mem_append_right _ (h.whole r hmem hpos)
    · exact List.mem_append_left _ (hwhole r heq.symm hpos)

theorem Stocked.apply (h : c.Stocked rs) (m : Move) :
    (c.apply rules m).Stocked ((c.stores rules m).toList ++ rs) := by
  have hmoved := c.moved_apply rules m
  generalize c.apply rules m = c' at hmoved ⊢
  cases hmoved with
  | still idle =>
    rw [stores_of_idle idle]
    exact h
  | @step w a a' x' hw _ hstep advanced =>
    rw [stores_advance hw advanced]
    refine h.set (Tracker.total_eq_of_task hstep.task) (fun r hr => ?_) fun r hr hpos => ?_
    · obtain ⟨body, rfl⟩ := hstep.holding_of_written (Or.inl hr)
      rw [hr]
      exact List.mem_singleton_self r
    · obtain ⟨body, rfl⟩ := hstep.holding_of_written (Or.inr hr)
      rw [hr]
      simp only [Stage.stores, dif_pos hpos]
      exact List.mem_singleton_self _
  | cancel => exact ⟨h.part, h.whole⟩
  | lose | refuse =>
    refine h.set (by rw [Stage.tracker_storePart]) (fun r hr => ?_) fun r hr => ?_
    · cases hr
    · cases hr

theorem recorded_in_stored (h : c.Stocked rs) {r : ByteRange} (hr : r ∈ c.recorded rules moves) :
    Inside r (c.stored rules moves ++ rs) := by
  induction moves generalizing c rs with
  | nil => cases hr
  | cons m moves ih =>
    rw [stored, List.append_assoc]
    rcases List.mem_append.mp hr with hr | hr
    · exact ih (h.apply m) hr
    · obtain ⟨q, hq, hbounds⟩ := h.records (Option.mem_toList.mp hr)
      exact ⟨q, List.mem_append_right _ (List.mem_append_right _ hq), hbounds⟩

/-! ## A crew of one -/

/-- With a range, every planned range before it has been stored. -/
def InOrder (planned rs : List ByteRange) : Prop :=
  ∀ r ∈ rs, ∀ q ∈ planned, q.first < r.first → q ∈ rs

theorem InOrder.cons {planned : List ByteRange} {r : ByteRange} (h : InOrder planned rs)
    (hr : ∀ q ∈ planned, q.first < r.first → q ∈ rs) : InOrder planned (r :: rs) := by
  intro p hp q hq hlt
  rcases List.mem_cons.mp hp with rfl | hp
  · exact List.mem_cons_of_mem _ (hr q hq hlt)
  · exact List.mem_cons_of_mem _ (h p hp q hq hlt)

/-- The only worker has stored all ranges before the one it is at, and so the others in order. -/
structure Alone (c : Crew ρ σ) (rs : List ByteRange) : Prop where
  stage : ∃ a, c.workers = [a] ∧ a.UpTo c.shared.tracker.planned rs c.shared.tracker.plan.next
  inOrder : InOrder c.shared.tracker.planned rs

omit [Remote ρ] [RangeSink σ] in
theorem Alone.set (h : c.Alone rs) {w : Nat} {a a' : Stage} (hw : c.workers[w]? = some a)
    {x' : Shared ρ σ} {qs : List ByteRange} (htask : x'.tracker.task = c.shared.tracker.task)
    (hupto : a.UpTo c.shared.tracker.planned rs c.shared.tracker.plan.next →
      a'.UpTo c.shared.tracker.planned qs x'.tracker.plan.next)
    (horder : a.UpTo c.shared.tracker.planned rs c.shared.tracker.plan.next →
      InOrder c.shared.tracker.planned qs) : Alone ⟨x', c.workers.set w a'⟩ qs := by
  obtain ⟨b, hws, hb⟩ := h.stage
  obtain ⟨rfl, rfl⟩ : w = 0 ∧ a = b := by
    rw [hws] at hw
    cases w with
    | zero => exact ⟨rfl, (Option.some.inj hw).symm⟩
    | succ w => cases hw
  have hplanned := Tracker.planned_eq_of_task htask
  exact ⟨⟨a', by rw [hws]; rfl, hplanned ▸ hupto hb⟩, hplanned ▸ horder hb⟩

theorem InOrder.step {planned : List ByteRange} {a a' : Stage} {w total : Nat} {x x' : Shared ρ σ}
    (h : InOrder planned rs) (hupto : a.UpTo planned rs x.tracker.plan.next)
    (hstep : Stage.Step rules w x a a' x') : InOrder planned ((a.stores total a').toList ++ rs) := by
  cases hr : a.stores total a' with
  | none => exact h
  | some r =>
    obtain ⟨data, rfl, rfl⟩ | ⟨p, data, rfl, rfl, hfirst, -⟩ := hstep.stores_eq_some hr
    · exact h.cons hupto.2
    · exact h.cons fun q _ hlt => absurd (hfirst ▸ hlt) (Nat.not_lt_zero _)

theorem Alone.apply {marked : List ByteRange} (hacc : c.Accounted marked) (h : c.Alone rs)
    (m : Move) : (c.apply rules m).Alone ((c.stores rules m).toList ++ rs) := by
  have hmoved := c.moved_apply rules m
  generalize c.apply rules m = c' at hmoved ⊢
  cases hmoved with
  | still idle =>
    rw [stores_of_idle idle]
    exact h
  | @step w a a' x' hw hbusy hstep advanced =>
    obtain ⟨lost, hacc⟩ := hacc.accounts hw hbusy
    rw [stores_advance hw advanced]
    refine h.set hw hstep.task (fun hupto => hupto.step hacc.consecutive_planned ?_ hstep)
      fun hupto => h.inOrder.step hupto hstep
    rintro r body rfl
    exact hacc.mem_planned (Stage.mem_handed (List.mem_of_getElem? hw) rfl)
  | cancel => exact ⟨h.stage, h.inOrder⟩
  | lose hw => exact h.set hw (by rw [Stage.tracker_storePart]) (fun _ => trivial) fun _ => h.inOrder
  | refuse hw => exact h.set hw (by rw [Stage.tracker_storePart]) (fun _ => trivial) fun _ => h.inOrder

theorem inOrder_of_alone (hs : Solitary rules c) {marked : List ByteRange} (hacc : c.Accounted marked)
    (h : c.Alone rs) : InOrder c.shared.tracker.planned (c.stored rules moves ++ rs) := by
  induction moves generalizing c marked rs with
  | nil => exact h.inOrder
  | cons m moves ih =>
    have := ih (hs.apply m) (hacc.apply hs m) (h.apply hacc m)
    rwa [Tracker.planned_eq_of_task (task_apply c m), ← List.append_assoc] at this

end Crew

/-! ## The lengths of parts -/

/-- The worker holds a body for the range `r` or has stored one. -/
def Stage.GoesOn (r : ByteRange) (a : Stage) : Prop :=
  (∃ body, a = holding r body) ∨ a = written r ∨ a = writtenWhole r

theorem Stage.not_goesOn_failing {r q : ByteRange} {e : TransferError} :
    ¬ (failing q e).GoesOn r := by
  rintro (⟨body, h⟩ | h | h) <;> cases h

theorem Stage.not_goesOn_died {r : ByteRange} {abort : Abort} : ¬ (died abort).GoesOn r := by
  rintro (⟨body, h⟩ | h | h) <;> cases h

namespace Crew

variable {ρ : Type} [Remote ρ] {rules : WorkerRules} {c : Crew ρ Sink} {m : Move}
  {moves : List Move} {url : String} {total : Nat} {good : Nat → UInt8 → Prop} {k₀ : Sink}
  {marked : List ByteRange} {q : SplitSink} {s : Store}

omit [Remote ρ] in
theorem goesOn_of_unbroken {c c' : Crew ρ Sink} (hunbroken : Unbroken c c') {w : Nat} {r : ByteRange}
    {body : Accepted} {a : Stage} (hw : c.workers[w]? = some (.holding r body))
    (ha : c'.workers[w]? = some a) : a.GoesOn r := by
  have hafter := hunbroken w r body hw
  simp only [ha, Option.some.injEq] at hafter
  exact hafter.imp_left fun heq => ⟨body, heq⟩

theorem filled_step (hfaith : c.Faithful url total good k₀ marked) (hacc : c.Accounted marked)
    {w : Nat} {a a' : Stage} {x' : Shared ρ Sink} (hw : c.workers[w]? = some a)
    (hstep : Stage.Step rules w c.shared a a' x')
    (hgoes : ∀ r body, a = .holding r body → a'.GoesOn r) (hsink : c.shared.sink = ⟨.split q, s⟩) :
    ∃ q' s', x'.sink = ⟨.split q', s'⟩ ∧ q'.layout = q.layout ∧
      q.layout.Filled s s' (a.stores c.shared.tracker.total a').toList := by
  have hsound := hfaith.sound
  have ha := hfaith.workers a (List.mem_of_getElem? hw)
  by_cases hholding : ∃ r body, a = .holding r body
  · obtain ⟨r, body, rfl⟩ := hholding
    have hgoes := hgoes r body rfl
    cases hstep with
    | @store _ data stored =>
      have hsize : data.size = r.length := by
        have := r.first_add_length
        have := ha.1
        omega
      rw [hsink] at hsound stored ⊢
      exact Sink.filled_write hsound hsize stored
    | @storeWhole _ data stored =>
      have hpos : 0 < c.shared.tracker.total :=
        Nat.lt_of_lt_of_le (Nat.zero_lt_of_lt r.first_lt_pastEnd) (hacc.bounds hw rfl rfl).2
      have hfirst : (ByteRange.upTo 0 _ hpos).first = 0 := ByteRange.upTo_first hpos
      have hsize : data.size = (ByteRange.upTo 0 _ hpos).length := by
        rw [ByteRange.length_eq, ByteRange.upTo_pastEnd, hfirst]
        exact ha.1.trans hfaith.total_eq.symm
      simp only [Stage.stores, dif_pos hpos]
      rw [hsink] at hsound stored ⊢
      have hfilled := Sink.filled_write hsound hsize (by rw [hfirst]; exact stored)
      rw [hfirst] at hfilled
      exact hfilled
    | refuse => exact absurd hgoes Stage.not_goesOn_failing
    | breakOff => exact absurd hgoes Stage.not_goesOn_died
    | yield polls => cases polls
    | overrun overruns => cases overruns
    | rest finished => cases finished
  · have hnot : ∀ r body, a ≠ .holding r body := fun r body heq => hholding ⟨r, body, heq⟩
    rw [Stage.stores_of_not_holding hnot, hstep.sink hnot, hsink]
    exact ⟨q, s, rfl, rfl, SplitLayout.Filled.refl _ _⟩

theorem filled_apply (hfaith : c.Faithful url total good k₀ marked) (hacc : c.Accounted marked)
    (hunbroken : Unbroken c (c.apply rules m)) (hsink : c.shared.sink = ⟨.split q, s⟩) :
    ∃ q' s', (c.apply rules m).shared.sink = ⟨.split q', s'⟩ ∧ q'.layout = q.layout ∧
      q.layout.Filled s s' (c.stores rules m).toList := by
  have hmoved := c.moved_apply rules m
  generalize c.apply rules m = c' at hmoved hunbroken ⊢
  have hself : ∀ {w : Nat} {a a' : Stage}, c.workers[w]? = some a →
      (c.workers.set w a')[w]? = some a' := fun hw =>
    List.getElem?_set_self (List.getElem?_eq_some_iff.mp hw).1
  cases hmoved with
  | still idle =>
    rw [stores_of_idle idle]
    exact ⟨q, s, hsink, rfl, SplitLayout.Filled.refl _ _⟩
  | @step w a a' x' hw _ hstep advanced =>
    rw [stores_advance hw advanced]
    refine filled_step hfaith hacc hw hstep ?_ hsink
    rintro r body rfl
    exact goesOn_of_unbroken hunbroken hw (hself hw)
  | cancel => exact ⟨q, s, hsink, rfl, SplitLayout.Filled.refl _ _⟩
  | @lose w stored a r hw hcall =>
    cases hcall with
    | asking attempt => exact ⟨q, s, hsink, rfl, SplitLayout.Filled.refl _ _⟩
    | holding body =>
      exact absurd (goesOn_of_unbroken hunbroken hw (hself hw)) Stage.not_goesOn_died
  | @refuse w stored r body path cause hw =>
    exact absurd (goesOn_of_unbroken hunbroken hw (hself hw)) Stage.not_goesOn_failing

/-- Moves that break no write off fill the parts as far as the ranges reach that they store. -/
theorem filled_after (hserves : Serves ρ url total good) (hs : Solitary rules c)
    (hfaith : c.Faithful url total good k₀ marked) (hacc : c.Accounted marked)
    (hcompletes : Completes rules c moves) (hsink : c.shared.sink = ⟨.split q, s⟩) :
    q.layout.Filled s (c.after rules moves).shared.sink.store (c.stored rules moves) := by
  induction moves generalizing c marked q s with
  | nil =>
    show q.layout.Filled s c.shared.sink.store []
    rw [hsink]
    exact SplitLayout.Filled.refl _ _
  | cons m moves ih =>
    obtain ⟨q', s', hsink', hlayout, hfilled⟩ := filled_apply hfaith hacc hcompletes.head hsink
    have hrest := ih (hs.apply m) (hfaith.apply hserves hacc m) (hacc.apply hs m) hcompletes.tail hsink'
    rw [hlayout] at hrest
    exact hfilled.trans hrest

end Crew

end RangeTransfer
