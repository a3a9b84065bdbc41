import RangeTransfer.Proofs.Attempt.Accounts
/-!
# Callers of one tracker

Any number of callers share a tracker and call it in any order. `serve` runs such a history, call by
call, and lists the outcomes. The ranges handed out are the first ones of the plan, each handed out
once, as long as no error is recorded, and the first error recorded is the one that everyone sees
from then on (`claims_and_errors`).
-/

namespace RangeTransfer

namespace Tracker

/-- What a caller does with a shared tracker in one step. Recording a written range takes two,
`mark` and `count`, and other callers may act between them; the raise of the byte counter that
follows them does not touch the tracker. -/
inductive Call where
  | claim
  | recordError (e : TransferError)
  | mark (r : ByteRange)
  | count (r : ByteRange) (code : Nat)
  | hasError
  | errorMessage
  deriving DecidableEq

/-- What a caller gets back. -/
inductive Outcome where
  | claimed (range : Option ByteRange)
  | recorded (first : Bool)
  | present (error : Bool)
  | message (text : Option String)
  | done
  | aborted (abort : Abort)
  deriving DecidableEq

/-- The range that was handed out. -/
def Outcome.range? : Outcome → Option ByteRange
  | claimed range => range
  | recorded _ | present _ | message _ | done | aborted _ => none

/-- The error that the caller brings. -/
def Call.error? : Call → Option TransferError
  | recordError e => some e
  | claim | mark _ | count _ _ | hasError | errorMessage => none

/-- One call: its outcome, and the tracker after it. A step that aborts leaves the tracker. -/
def perform (t : Tracker) : Call → Outcome × Tracker
  | .claim =>
    match t.claim with
    | .ok (range, t') => (.claimed range, t')
    | .error abort => (.aborted abort, t)
  | .recordError e => (.recorded (t.recordError e).1, (t.recordError e).2)
  | .mark r =>
    match t.mark r with
    | .ok t' => (.done, t')
    | .error abort => (.aborted abort, t)
  | .count r code =>
    match t.count r code with
    | .ok t' => (.done, t')
    | .error abort => (.aborted abort, t)
  | .hasError => (.present t.hasError, t)
  | .errorMessage => (.message t.errorMessage, t)

/-- The calls of a history, each with its caller, in the order in which they take effect: the
outcomes in the same order, and the tracker at the end. -/
def serve (t : Tracker) : List (Nat × Call) → List (Nat × Outcome) × Tracker
  | [] => ([], t)
  | (caller, call) :: rest =>
    let (outcomes, last) := (t.perform call).2.serve rest
    ((caller, (t.perform call).1) :: outcomes, last)

/-- The ranges handed out, in order. -/
def handedOut (outcomes : List (Nat × Outcome)) : List ByteRange := outcomes.filterMap (·.2.range?)

/-- The errors that callers brought, in order. -/
def brought (calls : List (Nat × Call)) : List TransferError := calls.filterMap (·.2.error?)

/-! ## One call -/

/-- The tracker has handed out `handed` of the ranges `ranges`, and callers brought `errors`. -/
structure Serving (ranges handed : List ByteRange) (errors : List TransferError) (t : Tracker) :
    Prop where
  fits : t.plan.total < Offset.limit
  split : handed ++ t.plan.ranges = ranges
  error : t.error = errors.head?

/-- The outcome of a call once `handed` are handed out and `errors` are brought. -/
def Call.Gets (ranges handed : List ByteRange) (errors : List TransferError) :
    Call → Outcome → Prop
  | .claim, a => a = .claimed (if errors = [] then ranges[handed.length]? else none)
  | .recordError _, a => a = .recorded (decide (errors = []))
  | .mark _, a | .count _ _, a => a = .done ∨ ∃ abort, a = .aborted abort
  | .hasError, a => a = .present (decide (errors ≠ []))
  | .errorMessage, a => a = .message (errors.head?.map TransferError.message)

variable {ranges handed : List ByteRange} {errors : List TransferError} {t : Tracker}

theorem serving_new (url : String) (resume chunk : Nat) {total : Nat} (hfit : total < Offset.limit) :
    (Tracker.new url resume total chunk).Serving (Plan.new resume total chunk).ranges [] [] :=
  ⟨hfit, rfl, rfl⟩

theorem Serving.claim (h : t.Serving ranges handed []) :
    ∃ t', t.claim = .ok (ranges[handed.length]?, t') ∧
      t'.Serving ranges (handed ++ ranges[handed.length]?.toList) [] := by
  have herr : t.error = none := h.error
  have hnext : ranges[handed.length]? = t.plan.ranges.head? := by
    rw [← h.split, List.getElem?_append_right (Nat.le_refl _), Nat.sub_self, List.head?_eq_getElem?]
  rw [hnext]
  by_cases hlt : t.plan.next < t.plan.total
  · have hranges := Plan.ranges_of_lt hlt h.fits
    refine ⟨{ t with plan := t.plan.rest }, ?_, h.fits, ?_, herr⟩
    · rw [claim_of_lt herr hlt h.fits, hranges, List.head?_cons]
    · rw [hranges, List.head?_cons, Option.toList_some, List.append_assoc, List.singleton_append,
        ← hranges]
      exact h.split
  · have hranges := Plan.ranges_of_le (Nat.not_lt.mp hlt)
    refine ⟨t, ?_, h.fits, ?_, herr⟩
    · rw [claim_of_le (Nat.not_lt.mp hlt), hranges, List.head?_nil]
    · rw [hranges, List.head?_nil, Option.toList_none, List.append_nil, ← hranges]
      exact h.split

theorem Serving.keep {t' : Tracker} (h : t.Serving ranges handed errors) (hplan : t'.plan = t.plan)
    (herror : t'.error = t.error) : t'.Serving ranges (handed ++ []) (errors ++ []) := by
  rw [List.append_nil, List.append_nil]
  exact ⟨hplan ▸ h.fits, hplan ▸ h.split, herror ▸ h.error⟩

/-- Every call gets the outcome that the ranges handed out and the errors brought before it call
for, and leaves a tracker that knows about it. -/
theorem Serving.perform (h : t.Serving ranges handed errors) (call : Call) :
    call.Gets ranges handed errors (t.perform call).1 ∧
      (t.perform call).2.Serving ranges (handed ++ (t.perform call).1.range?.toList)
        (errors ++ call.error?.toList) := by
  cases call with
  | claim =>
    cases errors with
    | nil =>
      obtain ⟨t', hclaim, hserving⟩ := h.claim
      simp only [Tracker.perform, hclaim]
      exact ⟨rfl, hserving⟩
    | cons e errors =>
      simp only [Tracker.perform, claim_of_error (t := t) h.error]
      exact ⟨rfl, h.keep rfl rfl⟩
  | recordError e =>
    cases errors with
    | nil =>
      have herr : t.error = none := h.error
      simp only [Tracker.perform, Tracker.recordError, herr]
      exact ⟨rfl, h.fits, by rw [← h.split]; exact congrArg (· ++ _) (List.append_nil _), rfl⟩
    | cons e' errors =>
      have herr : t.error = some e' := h.error
      simp only [Tracker.perform, Tracker.recordError, herr]
      exact ⟨rfl, h.fits, by rw [← h.split]; exact congrArg (· ++ _) (List.append_nil _), herr⟩
  | mark r =>
    simp only [Tracker.perform]
    split
    · rename_i t' hmark
      obtain ⟨w, rfl⟩ := mark_eq_ok hmark
      exact ⟨Or.inl rfl, h.keep rfl rfl⟩
    · rename_i abort _
      exact ⟨Or.inr ⟨abort, rfl⟩, h.keep rfl rfl⟩
  | count r code =>
    simp only [Tracker.perform]
    split
    · rename_i t' hcount
      obtain ⟨n, rfl⟩ := count_eq_ok hcount
      exact ⟨Or.inl rfl, h.keep rfl rfl⟩
    · rename_i abort _
      exact ⟨Or.inr ⟨abort, rfl⟩, h.keep rfl rfl⟩
  | hasError =>
    refine ⟨?_, h.keep rfl rfl⟩
    simp only [Tracker.perform, Tracker.hasError, h.error, Call.Gets]
    cases errors <;> rfl
  | errorMessage =>
    refine ⟨?_, h.keep rfl rfl⟩
    simp only [Tracker.perform, Tracker.errorMessage, h.error, Call.Gets]

/-! ## A history of calls -/

theorem serve_append (t : Tracker) (before after : List (Nat × Call)) :
    t.serve (before ++ after) =
      ((t.serve before).1 ++ ((t.serve before).2.serve after).1,
        ((t.serve before).2.serve after).2) := by
  induction before generalizing t with
  | nil => rfl
  | cons call before ih => simp only [List.cons_append, serve, ih]

theorem length_serve (t : Tracker) (calls : List (Nat × Call)) :
    (t.serve calls).1.length = calls.length := by
  induction calls generalizing t with
  | nil => rfl
  | cons call calls ih => simp only [serve, List.length_cons, ih]

theorem handedOut_cons (x : Nat × Outcome) (outcomes : List (Nat × Outcome)) :
    handedOut (x :: outcomes) = x.2.range?.toList ++ handedOut outcomes := by
  simp only [handedOut, List.filterMap_cons]
  cases x.2.range? <;> rfl

theorem brought_cons (x : Nat × Call) (calls : List (Nat × Call)) :
    brought (x :: calls) = x.2.error?.toList ++ brought calls := by
  simp only [brought, List.filterMap_cons]
  cases x.2.error? <;> rfl

theorem Serving.serve (h : t.Serving ranges handed errors) (calls : List (Nat × Call)) :
    (t.serve calls).2.Serving ranges (handed ++ handedOut (t.serve calls).1)
      (errors ++ brought calls) := by
  induction calls generalizing t handed errors with
  | nil => exact h.keep rfl rfl
  | cons call calls ih =>
    have := ih (h.perform call.2).2
    rwa [List.append_assoc, List.append_assoc, ← brought_cons,
      ← handedOut_cons (call.1, (t.perform call.2).1)] at this

theorem Call.Gets.recorded_iff {call : Call} {a : Outcome} (h : call.Gets ranges handed errors a) :
    a = .recorded true ↔ errors = [] ∧ call.error?.toList ≠ [] := by
  cases call <;> simp only [Call.Gets] at h
  case mark | count => obtain rfl | ⟨abort, rfl⟩ := h <;> simp [Call.error?]
  all_goals subst h; simp [Call.error?]

theorem Serving.countP_recorded (h : t.Serving ranges handed errors) (calls : List (Nat × Call)) :
    (t.serve calls).1.countP (·.2 = .recorded true) =
      if errors = [] ∧ brought calls ≠ [] then 1 else 0 := by
  induction calls generalizing t handed errors with
  | nil => simp [Tracker.serve, brought]
  | cons call calls ih =>
    simp only [Tracker.serve, List.countP_cons, ih (h.perform call.2).2, brought_cons,
      decide_eq_true_eq, (h.perform call.2).1.recorded_iff, List.append_eq_nil_iff]
    by_cases herrors : errors = [] <;> by_cases hcall : call.2.error?.toList = [] <;>
      simp [herrors, hcall]

theorem nodup_ranges (resume chunk : Nat) {total : Nat} (hfit : total < Offset.limit) :
    (Plan.new resume total chunk).ranges.Nodup := by
  by_cases hle : resume ≤ total
  · refine (Plan.consecutive_new chunk hle hfit).pairwise_apart.imp ?_
    rintro r _ happart rfl
    exact r.not_apart_self happart
  · rw [Plan.ranges_of_le (p := .new resume total chunk) (Nat.le_of_not_le hle)]
    exact List.nodup_nil

/-- In whatever order callers act, the ranges handed out are the first ones of the plan, none of
them twice, of those who bring an error one is told that it was the first, and every call gets what
the calls before it call for (`Call.Gets`). -/
theorem claims_and_errors (url : String) (resume chunk : Nat) {total : Nat}
    (hfit : total < Offset.limit) (calls : List (Nat × Call)) :
    let t := Tracker.new url resume total chunk
    let ranges := (Plan.new resume total chunk).ranges
    let outcomes := (t.serve calls).1
    (handedOut outcomes <+: ranges ∧ (handedOut outcomes).Nodup) ∧
    (brought calls ≠ [] → outcomes.countP (·.2 = .recorded true) = 1) ∧
    (∀ before caller call after, calls = before ++ (caller, call) :: after →
      ∃ a, outcomes[before.length]? = some (caller, a) ∧
        call.Gets ranges (handedOut (t.serve before).1) (brought before) a) ∧
    (t.serve calls).2.takeError.1 = (brought calls).head? := by
  intro t ranges outcomes
  have hnew : t.Serving ranges [] [] := serving_new url resume chunk hfit
  have hend := hnew.serve calls
  have hpre : handedOut outcomes <+: ranges := ⟨_, hend.split⟩
  refine ⟨⟨hpre, hpre.sublist.nodup (nodup_ranges resume chunk hfit)⟩, fun hbrought => ?_,
    fun before caller call after hcalls => ?_, hend.error⟩
  · rw [hnew.countP_recorded calls, if_pos ⟨rfl, hbrought⟩]
  · refine ⟨((t.serve before).2.perform call).1, ?_, ((hnew.serve before).perform call).1⟩
    simp only [outcomes, hcalls, serve_append]
    rw [List.getElem?_append_right (Nat.le_of_eq (length_serve t before)), length_serve,
      Nat.sub_self]
    rfl

/-- Two callers that each claim a range and bring an error, the second one before the first. -/
def twoCallers : List (Nat × Call) :=
  [(0, .claim), (1, .claim), (1, .recordError .cancelled), (0, .mark ⟨0, 9, by decide⟩),
    (0, .claim), (0, .recordError (.configuration .noWorkers)), (0, .count ⟨0, 9, by decide⟩ 206),
    (1, .errorMessage)]

theorem claims_and_errors_twoCallers :
    25 < Offset.limit ∧
    ((Tracker.new "u" 0 25 10).serve twoCallers).1 =
      [(0, .claimed (some ⟨0, 9, by decide⟩)), (1, .claimed (some ⟨10, 19, by decide⟩)),
        (1, .recorded true), (0, .done), (0, .claimed none), (0, .recorded false), (0, .done),
        (1, .message (some "transfer cancelled"))] ∧
    ((Tracker.new "u" 0 25 10).serve twoCallers).1.countP (·.2 = .recorded true) = 1 :=
  ⟨by decide, by decide +kernel,
    (claims_and_errors "u" 0 10 (by decide) twoCallers).2.1 (by decide)⟩

end Tracker

end RangeTransfer
