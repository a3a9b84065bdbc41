import RangeTransfer.Proofs.Attempt.Accounts
import RangeTransfer.Proofs.Fetch
/-!
# The steps of a worker

`Stage.Step` lists what a worker can do in one step, each with what it found and what it changes.
Every step that a worker takes is one of these (`Stage.step_advance`), so what all steps keep is
proved case by case, without a look into `Stage.advance`. Under the books of a crew no worker leaves
64 bits (`Accounts.not_overruns`).
-/

namespace RangeTransfer

/-- The write that puts a body for `r` to its place. -/
def Accepted.write {σ : Type} [RangeSink σ] (r : ByteRange) (k : σ) :
    Accepted → Except Halt Unit × σ
  | .part body => RangeSink.write k r.first body
  | .whole body => RangeSink.write k 0 body

/-- The request of worker `w` for `r`, and its answer. -/
def Shared.ask {ρ σ : Type} [Remote ρ] (x : Shared ρ σ) (w : Nat) (r : ByteRange) :
    Answer × Session ρ :=
  x.session.ask ⟨w, x.tracker.url, some r⟩

theorem isSome_rangeDelay {policy : RetryPolicy} {attempt : Nat} :
    (policy.rangeDelay attempt).isSome = true ↔ attempt < max policy.rangeAttempts 1 := by
  unfold RetryPolicy.rangeDelay
  split
  · rename_i hlt
    exact ⟨fun _ => hlt, fun _ => rfl⟩
  · rename_i hge
    exact ⟨fun h => absurd h Bool.noConfusion, fun hlt => absurd hlt hge⟩

namespace Stage

/-- A worker with the range `r` that looks at the stop flag before it goes on. -/
inductive Polls (r : ByteRange) : Stage → Prop
  | claimed : Polls r (claimed r)
  | asking (attempt : Nat) : Polls r (asking r attempt)
  | pausing (attempt : Nat) : Polls r (pausing r attempt)

variable {ρ σ : Type}

/-- What the worker is to enter into the books leaves 64 bits. -/
inductive Overruns (x : Shared ρ σ) (abort : Abort) : Stage → Prop
  | claim (aborted : x.tracker.claim = .error abort) : Overruns x abort seeking
  | mark {r : ByteRange} (aborted : x.tracker.mark r = .error abort) : Overruns x abort (written r)
  | count {r : ByteRange} {reached : Nat}
      (aborted : x.tracker.count r Tracker.statusPartial = .error abort) :
      Overruns x abort (marked r reached)
  | whole {r : ByteRange}
      (aborted : x.tracker.recordWhole x.session.progress Tracker.statusWhole = .error abort) :
      Overruns x abort (writtenWhole r)

/-- Worker `w` steps from one stage to another; `x` is shared before, and the last argument then. -/
inductive Step [Remote ρ] [RangeSink σ] (rules : WorkerRules) (w : Nat) (x : Shared ρ σ) :
    Stage → Stage → Shared ρ σ → Prop
  /-- There is nothing to claim. -/
  | idle (nothing : x.tracker.error = none → x.tracker.plan.total ≤ x.tracker.plan.next) :
      Step rules w x seeking stopped x
  | claim (sound : x.tracker.error = none) (lt : x.tracker.plan.next < x.tracker.plan.total) :
      Step rules w x seeking (claimed (.upTo _ _ (Plan.lt_nextEnd lt)))
        { x with tracker := { x.tracker with plan := x.tracker.plan.rest } }
  /-- The stop flag is up. -/
  | yield {a : Stage} {r : ByteRange} (polls : a.Polls r) (up : x.session.cancelled = true) :
      Step rules w x a (failing r .cancelled) x
  | start {r : ByteRange} (down : x.session.cancelled = false) :
      Step rules w x (claimed r) (asking r 1) x
  | again {r : ByteRange} {attempt : Nat} (down : x.session.cancelled = false) :
      Step rules w x (pausing r attempt) (asking r (attempt + 1)) x
  /-- The answer is an error that another request may mend. -/
  | pause {r : ByteRange} {attempt : Nat} (down : x.session.cancelled = false)
      (answered : afterAnswer rules x.tracker.url x.tracker.total r attempt (x.ask w r).1 =
        pausing r attempt)
      (more : attempt < max rules.policy.rangeAttempts 1) :
      Step rules w x (asking r attempt) (pausing r attempt) { x with session := (x.ask w r).2 }
  /-- The answer is an error that ends the attempt. -/
  | fail {r : ByteRange} {attempt : Nat} {e : TransferError} (down : x.session.cancelled = false)
      (answered : afterAnswer rules x.tracker.url x.tracker.total r attempt (x.ask w r).1 =
        failing r e) :
      Step rules w x (asking r attempt) (failing r e) { x with session := (x.ask w r).2 }
  | accept {r : ByteRange} {attempt : Nat} {response : Response} {body : Accepted}
      (down : x.session.cancelled = false)
      (answered : afterAnswer rules x.tracker.url x.tracker.total r attempt (x.ask w r).1 =
        holding r body)
      (answer : (x.ask w r).1 = .response response)
      (accepted : classify x.tracker.url r x.tracker.total response rules.acceptWhole = .ok body) :
      Step rules w x (asking r attempt) (holding r body) { x with session := (x.ask w r).2 }
  | crash {r : ByteRange} {attempt : Nat} {abort : Abort} (down : x.session.cancelled = false)
      (answered : afterAnswer rules x.tracker.url x.tracker.total r attempt (x.ask w r).1 =
        died abort) :
      Step rules w x (asking r attempt) (died abort) { x with session := (x.ask w r).2 }
  | store {r : ByteRange} {data : ByteArray}
      (stored : (RangeSink.write x.sink r.first data).1 = .ok ()) :
      Step rules w x (holding r (.part data)) (written r)
        { x with sink := (RangeSink.write x.sink r.first data).2 }
  | storeWhole {r : ByteRange} {data : ByteArray}
      (stored : (RangeSink.write x.sink 0 data).1 = .ok ()) :
      Step rules w x (holding r (.whole data)) (writtenWhole r)
        { x with sink := (RangeSink.write x.sink 0 data).2 }
  | refuse {r : ByteRange} {body : Accepted} {e : TransferError}
      (failed : (body.write r x.sink).1 = .error (.failed e)) :
      Step rules w x (holding r body) (failing r e) { x with sink := (body.write r x.sink).2 }
  | breakOff {r : ByteRange} {body : Accepted} {abort : Abort}
      (aborted : (body.write r x.sink).1 = .error (.aborted abort)) :
      Step rules w x (holding r body) (died abort) { x with sink := (body.write r x.sink).2 }
  | mark {r : ByteRange} {wm : Watermark}
      (ok : x.tracker.mark r = .ok { x.tracker with watermark := wm }) :
      Step rules w x (written r) (marked r wm.reached)
        { x with tracker := { x.tracker with watermark := wm } }
  | count {r : ByteRange} {reached n : Nat}
      (ok : x.tracker.count r Tracker.statusPartial =
        .ok { x.tracker with completed := n, code := Tracker.statusPartial }) :
      Step rules w x (marked r reached) (counted r reached)
        { x with tracker := { x.tracker with completed := n, code := Tracker.statusPartial } }
  | raise {r : ByteRange} {reached : Nat} :
      Step rules w x (counted r reached) seeking { x with session := x.session.advanceTo reached }
  /-- The whole object is entered into the books. -/
  | whole {r : ByteRange} {wm : Watermark} {n : Nat}
      (ok : x.tracker.recordWhole x.session.progress Tracker.statusWhole =
        .ok ({ x.tracker with plan := x.tracker.plan.exhaust, watermark := wm, completed := n,
                              code := Tracker.statusWhole },
          x.session.progress.advanceTo x.tracker.total)) :
      Step rules w x (writtenWhole r) stopped
        { x with
          session := x.session.advanceTo x.tracker.total
          tracker := { x.tracker with plan := x.tracker.plan.exhaust, watermark := wm,
                                      completed := n, code := Tracker.statusWhole } }
  | record {r : ByteRange} {e e' : TransferError}
      (recorded : (x.tracker.recordError e).2 = { x.tracker with error := some e' }) :
      Step rules w x (failing r e) stopped { x with tracker := { x.tracker with error := some e' } }
  | overrun {a : Stage} {abort : Abort} (overruns : a.Overruns x abort) :
      Step rules w x a (died abort) x
  | rest {a : Stage} (finished : a.finished = true) : Step rules w x a a x

variable [Remote ρ] [RangeSink σ] {rules : WorkerRules} {w : Nat} {x : Shared ρ σ}

theorem step_afterError {r : ByteRange} {attempt : Nat} {e : TransferError}
    (down : x.session.cancelled = false)
    (answered : afterAnswer rules x.tracker.url x.tracker.total r attempt (x.ask w r).1 =
      afterError rules.policy r attempt e) :
    Step rules w x (asking r attempt) (afterError rules.policy r attempt e)
      { x with session := (x.ask w r).2 } := by
  unfold afterError at answered ⊢
  split at answered
  · rename_i hagain
    rw [if_pos hagain]
    exact .pause down answered (isSome_rangeDelay.mp (Bool.and_eq_true_iff.mp hagain).2)
  · rename_i hlast
    rw [if_neg hlast]
    exact .fail down answered

theorem step_afterAnswer {r : ByteRange} {attempt : Nat} (down : x.session.cancelled = false) :
    Step rules w x (asking r attempt)
      (afterAnswer rules x.tracker.url x.tracker.total r attempt (x.ask w r).1)
      { x with session := (x.ask w r).2 } := by
  cases hanswer : (x.ask w r).1 with
  | crashed reason => exact .crash down (by rw [hanswer]; rfl)
  | failed e => exact step_afterError down (by rw [hanswer]; rfl)
  | response response =>
    have hafter : afterAnswer rules x.tracker.url x.tracker.total r attempt (x.ask w r).1 =
        afterAnswer rules x.tracker.url x.tracker.total r attempt (.response response) := by
      rw [hanswer]
    cases hverdict : classify x.tracker.url r x.tracker.total response rules.acceptWhole with
    | ok body =>
      simp only [afterAnswer, hverdict] at hafter ⊢
      exact .accept down hafter hanswer hverdict
    | error halt =>
      cases halt with
      | failed e =>
        simp only [afterAnswer, hverdict] at hafter ⊢
        exact step_afterError down hafter
      | aborted abort =>
        simp only [afterAnswer, hverdict] at hafter ⊢
        exact .crash down hafter

theorem step_afterWrite {r : ByteRange} {body : Accepted} {next : Stage}
    (stored : (body.write r x.sink).1 = .ok () →
      Step rules w x (holding r body) next { x with sink := (body.write r x.sink).2 }) :
    Step rules w x (holding r body) (afterWrite r next (body.write r x.sink).1)
      { x with sink := (body.write r x.sink).2 } := by
  cases hwrite : (body.write r x.sink).1 with
  | ok u => exact stored hwrite
  | error halt =>
    cases halt with
    | failed e => exact .refuse hwrite
    | aborted abort => exact .breakOff hwrite

theorem step_advance (rules : WorkerRules) (w : Nat) (a : Stage) (x : Shared ρ σ) :
    Step rules w x a (a.advance rules w x).1 (a.advance rules w x).2 := by
  cases a with
  | seeking =>
    simp only [advance]
    split
    · exact .overrun (.claim ‹_›)
    · rename_i hclaim
      obtain ⟨hnothing, rfl⟩ := Tracker.claim_none hclaim
      exact .idle hnothing
    · rename_i hclaim
      obtain ⟨hsound, hlt, rfl, rfl⟩ := Tracker.claim_some hclaim
      exact .claim hsound hlt
  | claimed r =>
    simp only [advance]
    split
    · exact .yield .claimed ‹_›
    · exact .start (Bool.eq_false_iff.mpr ‹_›)
  | asking r attempt =>
    simp only [advance]
    split
    · exact .yield (.asking attempt) ‹_›
    · exact step_afterAnswer (Bool.eq_false_iff.mpr ‹_›)
  | pausing r attempt =>
    simp only [advance]
    split
    · exact .yield (.pausing attempt) ‹_›
    · exact .again (Bool.eq_false_iff.mpr ‹_›)
  | failing r e =>
    obtain ⟨e', heq⟩ := x.tracker.recordError_eq e
    simp only [advance, heq]
    exact .record heq
  | holding r body =>
    cases body with
    | part data => exact step_afterWrite .store
    | whole data => exact step_afterWrite .storeWhole
  | written r =>
    simp only [advance]
    split
    · exact .overrun (.mark ‹_›)
    · rename_i hmark
      obtain ⟨wm, rfl⟩ := Tracker.mark_eq_ok hmark
      exact .mark hmark
  | marked r reached =>
    simp only [advance]
    split
    · exact .overrun (.count ‹_›)
    · rename_i hcount
      obtain ⟨n, rfl⟩ := Tracker.count_eq_ok hcount
      exact .count hcount
  | counted r reached => exact .raise
  | writtenWhole r =>
    simp only [advance]
    split
    · exact .overrun (.whole ‹_›)
    · rename_i hwhole
      obtain ⟨⟨wm, n, rfl⟩, rfl⟩ := Tracker.recordWhole_eq_ok hwhole
      exact .whole hwhole
  | stopped => exact .rest rfl
  | died abort => exact .rest rfl

theorem advance_of_finished {a : Stage} (h : a.finished = true) : a.advance rules w x = (a, x) := by
  cases a with
  | stopped | died => rfl
  | _ => cases h

namespace Step

variable {a a' : Stage} {x' : Shared ρ σ}

theorem task (h : Step rules w x a a' x') : x'.tracker.task = x.tracker.task := by
  cases h <;> rfl

theorem sink (h : Step rules w x a a' x') (hnot : ∀ r body, a ≠ holding r body) :
    x'.sink = x.sink := by
  cases h with
  | store | storeWhole | refuse | breakOff => exact absurd rfl (hnot _ _)
  | _ => rfl

theorem session (h : Step rules w x a a' x') :
    (∃ r attempt, a = asking r attempt ∧ x.session.cancelled = false ∧
      x'.session = (x.ask w r).2) ∨
    (∀ r attempt, a = asking r attempt → x.session.cancelled = true) ∧
      (x'.session = x.session ∨ ∃ n, x'.session = x.session.advanceTo n) := by
  cases h with
  | pause down | fail down | accept down | crash down => exact Or.inl ⟨_, _, rfl, down, rfl⟩
  | yield polls up => exact Or.inr ⟨fun _ _ _ => up, Or.inl rfl⟩
  | raise | whole => exact Or.inr ⟨nofun, Or.inr ⟨_, rfl⟩⟩
  | overrun overruns =>
    refine Or.inr ⟨?_, Or.inl rfl⟩
    rintro r attempt rfl
    cases overruns
  | rest finished =>
    refine Or.inr ⟨?_, Or.inl rfl⟩
    rintro r attempt rfl
    cases finished
  | _ => exact Or.inr ⟨nofun, Or.inl rfl⟩

end Step

end Stage

theorem Accounts.not_overruns {ρ σ : Type} {x : Shared ρ σ} {ws : List Stage} {w : Nat} {a : Stage}
    {marked lost : List ByteRange} {abort : Abort} (h : Accounts ws x.tracker marked lost)
    (hw : ws[w]? = some a) : ¬ a.Overruns x abort := by
  intro hover
  cases hover with
  | claim aborted =>
    by_cases hlt : x.tracker.plan.next < x.tracker.plan.total
    · cases herr : x.tracker.error with
      | none => cases (Tracker.claim_of_lt herr hlt (h.plan_total ▸ h.fits)).symm.trans aborted
      | some e => cases (Tracker.claim_of_error herr).symm.trans aborted
    · cases (Tracker.claim_of_le (Nat.not_lt.mp hlt)).symm.trans aborted
  | mark aborted =>
    obtain ⟨wm, hmark, -⟩ := h.mark hw rfl rfl
    cases hmark.symm.trans aborted
  | count aborted => cases (h.countRange hw Tracker.statusPartial).1.symm.trans aborted
  | whole aborted =>
    obtain ⟨t', -, hwhole, -⟩ := h.recordWhole hw x.session.progress Tracker.statusWhole
    cases hwhole.symm.trans aborted

end RangeTransfer
