import RangeTransfer.Proofs.Attempt.Faithful
import RangeTransfer.Proofs.Sink.Refinement
/-!
# The arithmetic of a crew

Every number that the workers of an attempt compute stays below the end of the object. The ranges
are planned, so they end there at the latest; a body in hand is as long as its range or the object, so a
write ends there, too; and the books bound the watermark and the byte count. So no operation on them
leaves 64 bits (`Crew.InRange`), and a worker dies of a crash only, of its connection or in a call
(`Crew.OnlyCrashes`), at every moment of every schedule (`Crew.inRange_after`).
-/

namespace RangeTransfer

variable {ρ : Type} [Remote ρ] {rules : WorkerRules}

namespace Stage

variable {total w : Nat} {a : Stage} {r : ByteRange} {abort : Abort}

theorem unmarked?_of_finished (h : a.finished = true) : a.unmarked? = none := by
  cases a <;> first | rfl | cases h

theorem crash_of_afterAnswer {url : String} {attempt : Nat} {answer : Answer}
    (hlength : r.lengthChecked = .ok r.length)
    (h : afterAnswer rules url total r attempt answer = .died abort) :
    ∃ reason, abort = .crash reason := by
  have herror : ∀ {e : TransferError}, afterError rules.policy r attempt e ≠ .died abort := by
    intro e
    unfold afterError
    split <;> nofun
  cases answer with
  | crashed reason =>
    cases h
    exact ⟨reason, rfl⟩
  | failed e => exact absurd h herror
  | response response =>
    have hverdict := verdict_classify url r total response rules.acceptWhole
    simp only [afterAnswer] at h
    split at h
    · cases h
    · exact absurd h herror
    · -- a response is judged without an abort
      rename_i hjudged
      rcases hverdict.cases_of_fits hlength with ⟨-, heq⟩ | ⟨-, heq⟩ | ⟨-, -, fault, heq, -⟩
      all_goals cases heq.symm.trans hjudged

theorem Step.crash_of_died {x x' : Shared ρ Sink} {ws : List Stage} {marked lost : List ByteRange}
    {good : Nat → UInt8 → Prop} {v : Nat → Option UInt8}
    (hstep : Step rules w x a (.died abort) x') (h : Accounts ws x.tracker marked lost)
    (hw : ws[w]? = some a) (ha : a.Faithful good x.tracker.total v) :
    a = .died abort ∨ ∃ reason, abort = .crash reason := by
  have hfits := h.fits
  cases hstep with
  | crash _ answered =>
    have hwithin := (h.bounds (mem_handed (List.mem_of_getElem? hw) rfl)).2
    exact Or.inr (crash_of_afterAnswer
      (ByteRange.lengthChecked_eq (Nat.lt_of_le_of_lt hwithin hfits)) answered)
  | @breakOff r body _ aborted =>
    -- the body ends where its range or the object ends
    refine absurd aborted ?_
    cases body with
    | part body =>
      have hend : r.first + body.size ≤ x.tracker.total := ha.1 ▸ ha.2.1
      exact Sink.write_ne_aborted (Nat.lt_of_le_of_lt hend hfits) abort
    | whole body =>
      have hend : 0 + body.size ≤ x.tracker.total := Nat.le_of_eq (by rw [ha.1, Nat.zero_add])
      exact Sink.write_ne_aborted (Nat.lt_of_le_of_lt hend hfits) abort
  | overrun overruns => exact absurd overruns (h.not_overruns hw)
  | rest => exact Or.inl rfl

end Stage

namespace Crew

variable {c : Crew ρ Sink} {marked : List ByteRange} {url : String} {total : Nat}
  {good : Nat → UInt8 → Prop} {k₀ : Sink}

/-- A worker that has died has crashed. -/
def OnlyCrashes (c : Crew ρ Sink) : Prop :=
  ∀ abort, .died abort ∈ c.workers → ∃ reason, abort = .crash reason

omit [Remote ρ] in
theorem OnlyCrashes.set (h : c.OnlyCrashes) {w : Nat} {a' : Stage} {x : Shared ρ Sink}
    (ha' : ∀ abort, a' = .died abort → ∃ reason, abort = .crash reason) :
    OnlyCrashes ⟨x, c.workers.set w a'⟩ := by
  intro abort hmem
  rcases List.mem_or_eq_of_mem_set hmem with hmem | rfl
  · exact h abort hmem
  · exact ha' abort rfl

theorem OnlyCrashes.apply (hacc : c.Accounted marked)
    (hfaith : c.Faithful url total good k₀ marked) (h : c.OnlyCrashes) (m : Move) :
    (c.apply rules m).OnlyCrashes := by
  have hmoved := c.moved_apply rules m
  generalize c.apply rules m = c' at hmoved ⊢
  cases hmoved with
  | still | cancel => exact h
  | @step _ a _ _ hw hbusy hstep =>
    obtain ⟨lost, hacc⟩ := hacc.accounts hw hbusy
    have ha : a.Faithful good c.shared.tracker.total c.shared.sink.byteAt :=
      hfaith.total_eq ▸ hfaith.workers a (List.mem_of_getElem? hw)
    refine h.set fun abort hdied => ?_
    subst hdied
    rcases hstep.crash_of_died hacc hw ha with rfl | hcrash
    · exact h abort (List.mem_of_getElem? hw)
    · exact hcrash
  | lose => exact h.set fun abort hdied => ⟨_, (Stage.died.inj hdied).symm⟩
  | refuse => exact h.set nofun

/-- The numbers that the workers of a crew compute with are what they are without a bound: no
operation on them leaves 64 bits, and no sum wraps around. -/
structure InRange (c : Crew ρ Sink) : Prop where
  resume_le : c.shared.tracker.resume ≤ c.shared.tracker.total
  fits : c.shared.tracker.total < Offset.limit
  /-- The next range can be taken off the plan. -/
  claim : ∃ r t, c.shared.tracker.claim = .ok (r, t)
  planned : ∀ r ∈ c.shared.tracker.planned, r.pastEnd ≤ c.shared.tracker.total ∧
    r.lengthChecked = .ok r.length ∧ r.pastEndChecked = .ok r.pastEnd
  held : ∀ a ∈ c.workers, ∀ r, a.unmarked? = some r → r ∈ c.shared.tracker.planned
  /-- A body in hand ends where its range or the object ends. -/
  part : ∀ r body, .holding r (.part body) ∈ c.workers → r.first + body.size = r.pastEnd
  whole : ∀ r body, .holding r (.whole body) ∈ c.workers → body.size = c.shared.tracker.total
  reached_le : c.shared.tracker.watermark.reached ≤ c.shared.tracker.total
  /-- The range that is counted next adds its length to the count. -/
  counted : ∀ r reached, .marked r reached ∈ c.workers → ∀ code, c.shared.tracker.count r code =
    .ok { c.shared.tracker with completed := c.shared.tracker.completed + r.length, code }
  writtenEnd : c.shared.tracker.writtenEnd =
    .ok (c.shared.tracker.resume + c.shared.tracker.completed)
  writtenEnd_le : c.shared.tracker.resume + c.shared.tracker.completed ≤ c.shared.tracker.total
  crashes : c.OnlyCrashes

omit [Remote ρ] in
theorem Accounted.inRange (hacc : c.Accounted marked)
    (hfaith : c.Faithful url total good k₀ marked) (hcrashes : c.OnlyCrashes)
    (hle : c.shared.tracker.resume ≤ c.shared.tracker.total) (hfit : total < Offset.limit) :
    c.InRange := by
  have hfits : c.shared.tracker.total < Offset.limit := hfaith.total_eq ▸ hfit
  have hplanned : ∀ r ∈ c.shared.tracker.planned, r.pastEnd ≤ c.shared.tracker.total ∧
      r.lengthChecked = .ok r.length ∧ r.pastEndChecked = .ok r.pastEnd := fun r hr => by
    have hpast := ((Plan.consecutive_new c.shared.tracker.plan.chunk hle hfits).bounds hr).2
    have hlt := Nat.lt_of_le_of_lt hpast hfits
    exact ⟨hpast, ByteRange.lengthChecked_eq hlt, ByteRange.pastEndChecked_eq hlt⟩
  have hpart : ∀ r body, .holding r (.part body) ∈ c.workers → r.first + body.size = r.pastEnd :=
    fun r body hmem => (hfaith.workers _ hmem).1
  have hwhole : ∀ r body, .holding r (.whole body) ∈ c.workers →
      body.size = c.shared.tracker.total := fun r body hmem =>
    hfaith.total_eq ▸ (hfaith.workers _ hmem).1
  have hend : c.shared.tracker.resume + c.shared.tracker.completed ≤ c.shared.tracker.total := by
    rcases hacc with ⟨lost, h⟩ | h
    · have hcount := h.count
      have hmarked := h.totalLength_marked_le
      omega
    · have hcompleted := h.completed
      omega
  refine ⟨hle, hfits, ?_, hplanned, ?_, hpart, hwhole, hacc.reached_le, ?_,
    Offset.add_eq_ok (Nat.lt_of_le_of_lt hend hfits), hend, hcrashes⟩
  · by_cases hlt : c.shared.tracker.plan.next < c.shared.tracker.plan.total
    · cases herr : c.shared.tracker.error with
      | none =>
        rcases hacc with ⟨lost, h⟩ | h
        · exact ⟨_, _, Tracker.claim_of_lt herr hlt (h.plan_total ▸ hfits)⟩
        · exact absurd hlt (Nat.not_lt.mpr h.exhausted)
      | some e => exact ⟨_, _, Tracker.claim_of_error herr⟩
    · exact ⟨_, _, Tracker.claim_of_le (Nat.not_lt.mp hlt)⟩
  · intro a ha r hr
    rcases hacc with ⟨lost, h⟩ | h
    · exact h.mem_planned (Stage.mem_handed ha hr)
    · rw [Stage.unmarked?_of_finished (h.finished a ha)] at hr
      cases hr
  · intro r reached hmem code
    rcases hacc with ⟨lost, h⟩ | h
    · obtain ⟨w, hw⟩ := List.mem_iff_getElem?.mp hmem
      exact (h.countRange hw code).1
    · exact absurd (h.finished _ hmem) (by simp [Stage.finished])

/-- At every moment of every schedule the numbers of a crew are in range. -/
theorem inRange_after (hserves : Serves ρ url total good) (hs : Solitary rules c)
    (hacc : c.Accounted marked) (hfaith : c.Faithful url total good k₀ marked)
    (hcrashes : c.OnlyCrashes) (hle : c.shared.tracker.resume ≤ c.shared.tracker.total)
    (hfit : total < Offset.limit) (moves : List Move) : (c.after rules moves).InRange := by
  induction moves generalizing c marked with
  | nil => exact hacc.inRange hfaith hcrashes hle hfit
  | cons m moves ih =>
    refine ih (hs.apply m) (hacc.apply hs m) (hfaith.apply hserves hacc m)
      (hcrashes.apply hacc hfaith m) ?_
    rw [resume_apply, total_apply]
    exact hle

end Crew

end RangeTransfer
