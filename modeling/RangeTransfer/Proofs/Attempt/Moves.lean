import RangeTransfer.Attempt.Crew
import RangeTransfer.Proofs.Attempt.Steps
/-!
# The moves of a crew

`Crew.Moved` lists what a move can make of a crew: a step of one worker, the stop flag, a worker
taken from its call, or nothing. Each move is one of these (`moved_apply`). So a move of a crew keeps
the accounts of its ranges (`Accounted.apply`), and so does any list of moves (`Accounted.after`),
whatever the remote and the sink do: `recorded` collects the ranges that the moves record as written,
and these are the ones that the watermark has taken in. The only condition is that a worker which may
take the whole object is alone.
-/

namespace RangeTransfer

namespace Stage

/-- The range that the next step of a worker records as written. -/
def records (a : Stage) (t : Tracker) : Option ByteRange :=
  match a with
  | written r => some r
  | writtenWhole _ => if h : t.resume < t.total then some (.upTo _ _ h) else none
  | _ => none

/-- The range that a worker gives up when it goes from one stage to another. -/
def givesUp : Stage → Stage → Option ByteRange
  | written _, _ | writtenWhole _, _ => none
  | a, a' => if a'.finished then a.unmarked? else none

theorem records_of_finished {a : Stage} (h : a.finished = true) (t : Tracker) : a.records t = none := by
  cases a <;> first | rfl | cases h

/-- A worker in a call for `r`: it makes a request or a write. -/
inductive InCall (r : ByteRange) : Stage → Prop
  | asking (attempt : Nat) : InCall r (asking r attempt)
  | holding (body : Accepted) : InCall r (holding r body)

theorem InCall.finished {a : Stage} {r : ByteRange} (h : a.InCall r) : a.finished = false := by
  cases h <;> rfl

theorem InCall.unmarked? {a : Stage} {r : ByteRange} (h : a.InCall r) : a.unmarked? = some r := by
  cases h <;> rfl

theorem InCall.uncounted? {a : Stage} {r : ByteRange} (h : a.InCall r) : a.uncounted? = none := by
  cases h <;> rfl

variable {ρ σ : Type} [RangeSink σ]

@[simp] theorem session_storePart (a : Stage) (stored : Nat) (x : Shared ρ σ) :
    (a.storePart stored x).session = x.session := by
  unfold storePart
  split <;> rfl

@[simp] theorem tracker_storePart (a : Stage) (stored : Nat) (x : Shared ρ σ) :
    (a.storePart stored x).tracker = x.tracker := by
  unfold storePart
  split <;> rfl

end Stage

/-- A step of a worker keeps the accounts: the range that it records is taken in, the range that it
gives up is lost. -/
theorem Accounts.step {ρ σ : Type} [Remote ρ] [RangeSink σ] {rules : WorkerRules}
    {ws : List Stage} {x x' : Shared ρ σ} {marked lost : List ByteRange}
    (hs : rules.acceptWhole = true → ws.length = 1) (h : Accounts ws x.tracker marked lost)
    {w : Nat} {a a' : Stage} (hw : ws[w]? = some a) (hstep : Stage.Step rules w x a a' x') :
    Accounts (ws.set w a') x'.tracker ((a.records x.tracker).toList ++ marked)
        ((a.givesUp a').toList ++ lost) ∨
      a.isWhole = true ∧ a' = .stopped ∧
        Settled (ws.set w a') x'.tracker ((a.records x.tracker).toList ++ marked) := by
  cases hstep with
  | claim _ lt => exact Or.inl (h.claim hw rfl rfl lt)
  | yield polls => cases polls <;> exact Or.inl (h.swap hw rfl rfl nofun)
  | @accept _ _ _ body _ _ _ accepted =>
    refine Or.inl (h.swap hw rfl rfl fun hwhole => hs ?_)
    cases body with
    | part data => cases hwhole
    | whole data => exact (classify_whole accepted).2.2.1
  | storeWhole =>
    exact Or.inl (h.swap hw rfl rfl fun _ => h.alone _ (List.mem_of_getElem? hw) rfl)
  | crash | breakOff => exact Or.inl (h.drop hw rfl rfl rfl rfl rfl)
  | record => exact Or.inl ((h.drop hw rfl rfl rfl rfl rfl).withError _)
  | mark ok =>
    obtain ⟨wm, hmark, hacc⟩ := h.mark hw rfl rfl
    cases hmark.symm.trans ok
    exact Or.inl hacc
  | count ok =>
    obtain ⟨hcount, hacc⟩ := h.countRange hw Tracker.statusPartial
    cases hcount.symm.trans ok
    exact Or.inl hacc
  | whole ok =>
    obtain ⟨t', hlt, hwhole, -, -, -, -, hsettled⟩ :=
      h.recordWhole hw x.session.progress Tracker.statusWhole
    cases hwhole.symm.trans ok
    rw [Stage.records, dif_pos hlt]
    exact Or.inr ⟨rfl, rfl, hsettled⟩
  | overrun overruns => exact absurd overruns (h.not_overruns hw)
  | rest finished => cases a <;> cases finished <;> exact Or.inl (h.swap hw rfl rfl nofun)
  | _ => exact Or.inl (h.swap hw rfl rfl nofun)

theorem Accounts.lose {ρ σ : Type} [RangeSink σ] {ws : List Stage} {x : Shared ρ σ}
    {marked lost : List ByteRange} (h : Accounts ws x.tracker marked lost) {w : Nat} {a : Stage}
    {r : ByteRange} (hw : ws[w]? = some a) (hcall : a.InCall r) (stored : Nat) {abort : Abort} :
    Accounts (ws.set w (.died abort)) (a.storePart stored x).tracker marked (r :: lost) := by
  rw [Stage.tracker_storePart]
  exact h.drop hw hcall.unmarked? hcall.uncounted? rfl rfl rfl

theorem Accounts.refuse {ρ σ : Type} [RangeSink σ] {ws : List Stage} {x : Shared ρ σ}
    {marked lost : List ByteRange} (h : Accounts ws x.tracker marked lost) {w : Nat} {r : ByteRange}
    {body : Accepted} (hw : ws[w]? = some (.holding r body)) (stored : Nat) (e : TransferError) :
    Accounts (ws.set w (.failing r e)) ((Stage.holding r body).storePart stored x).tracker
      marked lost := by
  rw [Stage.tracker_storePart]
  exact h.swap hw rfl rfl nofun

namespace Crew

variable {ρ σ : Type}

/-- The crew's ranges are accounted for, those of `marked` by the watermark. -/
def Accounted (c : Crew ρ σ) (marked : List ByteRange) : Prop :=
  (∃ lost, Accounts c.workers c.shared.tracker marked lost) ∨
    Settled c.workers c.shared.tracker marked

/-- The range that a move records as written. -/
def records (c : Crew ρ σ) : Move → Option ByteRange
  | .advance w => c.workers[w]?.bind (·.records c.shared.tracker)
  | _ => none

/-- Whether a worker may take the whole object only if it is alone. -/
def Solitary (rules : WorkerRules) (c : Crew ρ σ) : Prop :=
  rules.acceptWhole = true → c.workers.length = 1

theorem accounted_new {x : Shared ρ σ} {url : String} {resume total chunk : Nat}
    (htracker : x.tracker = .new url resume total chunk) (hle : resume ≤ total)
    (hfit : total < Offset.limit) (n : Nat) : (new x n).Accounted [] :=
  Or.inl ⟨[], by
    show Accounts _ x.tracker [] []
    rw [htracker]
    exact accounts_new hle hfit n⟩

theorem Accounted.bounds {c : Crew ρ σ} {marked : List ByteRange} (h : c.Accounted marked) {w : Nat}
    {a : Stage} {r : ByteRange} (hw : c.workers[w]? = some a) (ha : a.finished = false)
    (hr : a.unmarked? = some r) :
    c.shared.tracker.resume ≤ r.first ∧ r.pastEnd ≤ c.shared.tracker.total := by
  have hmem := List.mem_of_getElem? hw
  rcases h with ⟨lost, h⟩ | h
  · exact h.bounds (Stage.mem_handed hmem hr)
  · rw [h.finished a hmem] at ha
    cases ha

theorem Accounted.not_overruns {c : Crew ρ σ} {marked : List ByteRange} (h : c.Accounted marked)
    {w : Nat} {a : Stage} (hw : c.workers[w]? = some a) {abort : Abort} :
    ¬ a.Overruns c.shared abort := by
  rcases h with ⟨lost, h⟩ | h
  · exact h.not_overruns hw
  · intro hover
    have hfinished := h.finished a (List.mem_of_getElem? hw)
    cases hover <;> cases hfinished

theorem Accounted.accounts {c : Crew ρ σ} {marked : List ByteRange} (h : c.Accounted marked)
    {w : Nat} {a : Stage} (hw : c.workers[w]? = some a) (ha : a.finished = false) :
    ∃ lost, Accounts c.workers c.shared.tracker marked lost := by
  refine h.resolve_right fun h => ?_
  cases (h.finished a (List.mem_of_getElem? hw)).symm.trans ha

theorem update_of_getElem? {c : Crew ρ σ} {w : Nat} {a : Stage} (h : c.workers[w]? = some a)
    (step : Stage → Shared ρ σ → Stage × Shared ρ σ) :
    c.update w step = ⟨(step a c.shared).2, c.workers.set w (step a c.shared).1⟩ := by
  simp only [update, h]

theorem update_of_none {c : Crew ρ σ} {w : Nat} (h : c.workers[w]? = none)
    (step : Stage → Shared ρ σ → Stage × Shared ρ σ) : c.update w step = c := by
  simp only [update, h]

theorem update_eq_self {c : Crew ρ σ} {w : Nat} {a : Stage} (h : c.workers[w]? = some a)
    {step : Stage → Shared ρ σ → Stage × Shared ρ σ} (hstep : step a c.shared = (a, c.shared)) :
    c.update w step = c := by
  obtain ⟨hi, hget⟩ := List.getElem?_eq_some_iff.mp h
  rw [update_of_getElem? h, hstep, ← hget, List.set_getElem_self]

variable [Remote ρ] [RangeSink σ]

/-- What a move makes of a crew. -/
inductive Moved (rules : WorkerRules) (c : Crew ρ σ) : Move → Crew ρ σ → Prop
  /-- The worker is not there, or has nothing to do any more, or is in no call that could fail. -/
  | still {m : Move} (idle : ∀ w a, m = .advance w → c.workers[w]? = some a → a.finished = true) :
      Moved rules c m c
  | step {w : Nat} {a a' : Stage} {x' : Shared ρ σ} (worker : c.workers[w]? = some a)
      (busy : a.finished = false) (step : Stage.Step rules w c.shared a a' x')
      (advanced : a.advance rules w c.shared = (a', x')) :
      Moved rules c (.advance w) ⟨x', c.workers.set w a'⟩
  | cancel : Moved rules c .cancel
      ⟨{ c.shared with session := c.shared.session.cancelIf true }, c.workers⟩
  | lose {w stored : Nat} {a : Stage} {r : ByteRange} (worker : c.workers[w]? = some a)
      (call : a.InCall r) : Moved rules c (.lose w stored)
        ⟨a.storePart stored c.shared, c.workers.set w (.died (.crash "worker lost"))⟩
  | refuse {w stored : Nat} {r : ByteRange} {body : Accepted} {path : Path} {cause : StorageError}
      (worker : c.workers[w]? = some (.holding r body)) : Moved rules c (.refuse w stored path cause)
        ⟨(Stage.holding r body).storePart stored c.shared,
          c.workers.set w (.failing r (.storage path cause))⟩

variable {c c' : Crew ρ σ} {marked : List ByteRange} {rules : WorkerRules} {m : Move} {w : Nat}
  {a : Stage}

theorem advance_of_getElem? (hw : c.workers[w]? = some a) :
    c.apply rules (.advance w) =
      ⟨(a.advance rules w c.shared).2, c.workers.set w (a.advance rules w c.shared).1⟩ :=
  update_of_getElem? hw (Stage.advance rules w)

theorem Moved.of_update {step : Stage → Shared ρ σ → Stage × Shared ρ σ}
    (hm : ∀ v, m = .advance v → v = w)
    (h : ∀ a, c.workers[w]? = some a →
      step a c.shared = (a, c.shared) ∧ (m = .advance w → a.finished = true) ∨
        Moved rules c m ⟨(step a c.shared).2, c.workers.set w (step a c.shared).1⟩) :
    Moved rules c m (c.update w step) := by
  cases hw : c.workers[w]? with
  | none =>
    rw [update_of_none hw]
    refine .still fun v b heq hv => ?_
    cases (hm v heq ▸ hv).symm.trans hw
  | some a =>
    obtain ⟨hsame, hidle⟩ | hmoved := h a hw
    · rw [update_eq_self hw hsame]
      refine .still fun v b heq hv => ?_
      obtain rfl := hm v heq
      cases hv.symm.trans hw
      exact hidle heq
    · rwa [update_of_getElem? hw]

theorem moved_apply (rules : WorkerRules) (c : Crew ρ σ) (m : Move) :
    Moved rules c m (c.apply rules m) := by
  cases m with
  | advance w =>
    rw [apply]
    refine .of_update (fun v heq => (Move.advance.inj heq).symm) fun a hw => ?_
    cases ha : a.finished with
    | true => exact Or.inl ⟨Stage.advance_of_finished ha, fun _ => rfl⟩
    | false => exact Or.inr (.step hw ha (a.step_advance rules w c.shared) rfl)
  | cancel => exact .cancel
  | lose w stored =>
    rw [apply]
    refine .of_update (fun _ heq => nomatch heq) fun a hw => ?_
    cases a with
    | asking r attempt => exact Or.inr (.lose hw (.asking attempt))
    | holding r body => exact Or.inr (.lose hw (.holding body))
    | _ => exact Or.inl ⟨rfl, nofun⟩
  | refuse w stored path cause =>
    rw [apply]
    refine .of_update (fun _ heq => nomatch heq) fun a hw => ?_
    cases a with
    | holding r body => exact Or.inr (.refuse hw)
    | _ => exact Or.inl ⟨rfl, nofun⟩

omit [Remote ρ] [RangeSink σ] in
theorem records_advance (hw : c.workers[w]? = some a) :
    c.records (.advance w) = a.records c.shared.tracker := by
  simp only [records, hw, Option.bind_some]

omit [Remote ρ] [RangeSink σ] in
theorem records_of_idle (idle : ∀ w a, m = .advance w → c.workers[w]? = some a → a.finished = true) :
    c.records m = none := by
  cases m with
  | advance w =>
    cases hw : c.workers[w]? with
    | none => simp only [records, hw, Option.bind_none]
    | some a => exact (records_advance hw).trans (Stage.records_of_finished (idle w a rfl hw) _)
  | _ => rfl

theorem length_workers_apply (rules : WorkerRules) (c : Crew ρ σ) (m : Move) :
    (c.apply rules m).workers.length = c.workers.length := by
  have hmoved := c.moved_apply rules m
  generalize c.apply rules m = c' at hmoved ⊢
  cases hmoved with
  | still | cancel => rfl
  | step | lose | refuse => exact List.length_set

theorem task_apply (c : Crew ρ σ) (m : Move) :
    (c.apply rules m).shared.tracker.task = c.shared.tracker.task := by
  have hmoved := c.moved_apply rules m
  generalize c.apply rules m = c' at hmoved ⊢
  cases hmoved with
  | still | cancel => rfl
  | step _ _ hstep => exact hstep.task
  | lose | refuse => exact congrArg Tracker.task (Stage.tracker_storePart _ _ _)

theorem resume_apply (c : Crew ρ σ) (m : Move) :
    (c.apply rules m).shared.tracker.resume = c.shared.tracker.resume :=
  Tracker.resume_eq_of_task (task_apply c m)

theorem total_apply (c : Crew ρ σ) (m : Move) :
    (c.apply rules m).shared.tracker.total = c.shared.tracker.total :=
  Tracker.total_eq_of_task (task_apply c m)

theorem Moved.worker (h : Moved rules c m c') (hw : c.workers[w]? = some a) :
    ∃ a', c'.workers[w]? = some a' ∧
      (a' = a ∨ (m = .advance w ∧ ∃ x', Stage.Step rules w c.shared a a' x') ∨
        (∃ r stored abort, m = .lose w stored ∧ a.InCall r ∧ a' = .died abort) ∨
        ∃ r body stored path cause, m = .refuse w stored path cause ∧ a = .holding r body ∧
          a' = .failing r (.storage path cause)) := by
  have hi := (List.getElem?_eq_some_iff.mp hw).1
  have hother : ∀ {v : Nat} (b : Stage), v ≠ w → (c.workers.set v b)[w]? = some a := fun _ hne =>
    (List.getElem?_set_ne hne).trans hw
  cases h with
  | still | cancel => exact ⟨a, hw, Or.inl rfl⟩
  | @step v _ _ _ hv _ hstep =>
    by_cases hvw : v = w
    · subst hvw
      cases hv.symm.trans hw
      exact ⟨_, List.getElem?_set_self hi, Or.inr (Or.inl ⟨rfl, _, hstep⟩)⟩
    · exact ⟨a, hother _ hvw, Or.inl rfl⟩
  | @lose v stored _ r hv hcall =>
    by_cases hvw : v = w
    · subst hvw
      cases hv.symm.trans hw
      exact ⟨_, List.getElem?_set_self hi, Or.inr (Or.inr (Or.inl ⟨r, stored, _, rfl, hcall, rfl⟩))⟩
    · exact ⟨a, hother _ hvw, Or.inl rfl⟩
  | @refuse v stored r body path cause hv =>
    by_cases hvw : v = w
    · subst hvw
      cases hv.symm.trans hw
      exact ⟨_, List.getElem?_set_self hi,
        Or.inr (Or.inr (Or.inr ⟨r, body, stored, path, cause, rfl, rfl, rfl⟩))⟩
    · exact ⟨a, hother _ hvw, Or.inl rfl⟩

theorem getElem?_advance_of_ne (rules : WorkerRules) (c : Crew ρ σ) {v w : Nat} (hne : v ≠ w) :
    (c.apply rules (.advance w)).workers[v]? = c.workers[v]? := by
  have hmoved := c.moved_apply rules (.advance w)
  generalize c.apply rules (.advance w) = c' at hmoved ⊢
  cases hmoved with
  | still => rfl
  | step => exact List.getElem?_set_ne (Ne.symm hne)

theorem Accounted.apply (hs : Solitary rules c) (h : c.Accounted marked) (m : Move) :
    (c.apply rules m).Accounted ((c.records m).toList ++ marked) := by
  have hmoved := c.moved_apply rules m
  generalize c.apply rules m = c' at hmoved ⊢
  cases hmoved with
  | still idle =>
    rw [records_of_idle idle]
    exact h
  | step hw hbusy hstep =>
    obtain ⟨lost, hacc⟩ := h.accounts hw hbusy
    rw [records_advance hw]
    exact (hacc.step hs hw hstep).imp (⟨_, ·⟩) (·.2.2)
  | cancel => exact h
  | @lose w stored a r hw hcall =>
    obtain ⟨lost, hacc⟩ := h.accounts hw hcall.finished
    exact Or.inl ⟨r :: lost, hacc.lose hw hcall stored⟩
  | @refuse w stored r body path cause hw =>
    obtain ⟨lost, hacc⟩ := h.accounts hw rfl
    exact Or.inl ⟨lost, hacc.refuse hw stored _⟩

/-! ## Runs -/

/-- The ranges that a list of moves records as written, the latest first. -/
def recorded (rules : WorkerRules) (c : Crew ρ σ) : List Move → List ByteRange
  | [] => []
  | m :: moves => recorded rules (c.apply rules m) moves ++ (c.records m).toList

/-- The crew after a list of moves. -/
def after (rules : WorkerRules) (c : Crew ρ σ) (moves : List Move) : Crew ρ σ :=
  moves.foldl (apply rules) c

theorem task_after (c : Crew ρ σ) (moves : List Move) :
    (c.after rules moves).shared.tracker.task = c.shared.tracker.task := by
  induction moves generalizing c with
  | nil => rfl
  | cons m moves ih => exact (ih (c.apply rules m)).trans (task_apply c m)

theorem resume_after (c : Crew ρ σ) (moves : List Move) :
    (c.after rules moves).shared.tracker.resume = c.shared.tracker.resume :=
  Tracker.resume_eq_of_task (task_after c moves)

theorem total_after (c : Crew ρ σ) (moves : List Move) :
    (c.after rules moves).shared.tracker.total = c.shared.tracker.total :=
  Tracker.total_eq_of_task (task_after c moves)

theorem Solitary.apply (hs : Solitary rules c) (m : Move) : Solitary rules (c.apply rules m) :=
  fun h => (length_workers_apply rules c m).trans (hs h)

theorem Accounted.after (hs : Solitary rules c) (h : c.Accounted marked) (moves : List Move) :
    (c.after rules moves).Accounted (c.recorded rules moves ++ marked) := by
  induction moves generalizing c marked with
  | nil => exact h
  | cons m moves ih =>
    have := ih (hs.apply m) (h.apply hs m)
    rwa [← List.append_assoc] at this

end Crew

end RangeTransfer
