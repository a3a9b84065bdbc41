import RangeTransfer.Proofs.Attempt.Faithful
import RangeTransfer.Proofs.Remote.Session
import RangeTransfer.Proofs.Sink.Writable
/-!
# Crews that nothing hinders

Suppose that a remote answers every request with a body that is accepted (`Grants`), that the sink
takes every write, and that nobody raises the flag. Then no worker meets an error or waits
(`Stage.Step.proceeds`), in whatever order the workers step, and a crew that has finished has
taken the watermark to the end of the object (`Crew.Unhindered.reached_eq`). Along the way each step
says what it asks for: `Session.Sends` keeps the requests of a session in order.
-/

namespace RangeTransfer

/-! ## One step -/

/-- Every request for a range of the object of `total` bytes at `url` is answered with a body that
is accepted, as the whole object or as the range. -/
def Grants (ρ : Type) [Remote ρ] (url : String) (total : Nat) (acceptWhole whole : Bool) : Prop :=
  ∀ (m : ρ) (q : Query) (r : ByteRange), q.url = url → q.range = some r → r.pastEnd ≤ total →
    ∃ response body, (Remote.get m q).1 = ⟨.response response, false⟩ ∧
      classify url r total response acceptWhole = .ok (if whole then .whole body else .part body)

namespace Stage

/-- The worker has met no error, and gets whole objects or gets ranges. -/
def Smooth (whole : Bool) : Stage → Prop
  | seeking | claimed _ | asking _ _ | stopped => True
  | holding _ (.part _) | written _ | marked _ _ | counted _ _ => whole = false
  | holding _ (.whole _) | writtenWhole _ => whole = true
  | pausing _ _ | failing _ _ | died _ => False

theorem Smooth.whole_eq {whole : Bool} {a : Stage} (h : a.Smooth whole) (ha : a.isWhole = true) :
    whole = true := by
  cases a with
  | holding r body => cases body <;> first | exact h | cases ha
  | writtenWhole r => exact h
  | _ => cases ha

/-- The range that the next step of the worker asks for. -/
def asks? : Stage → Option ByteRange
  | asking r _ => some r
  | _ => none

/-- The range that the worker has got a body for and that the watermark has not moved over. -/
def answered? : Stage → Option ByteRange
  | holding r _ | written r | writtenWhole r => some r
  | _ => none

/-- How many requests a worker has made that is given the whole object. -/
def asked : Stage → Nat
  | seeking | claimed _ | asking _ _ => 0
  | _ => 1

/-- What a step from `a` to `a'` does where nothing hinders the worker. -/
structure Proceeds {ρ σ : Type} (whole : Bool) (a a' : Stage) (x x' : Shared ρ σ) : Prop where
  smooth : a'.Smooth whole
  sends : x.session.Sends (a.asks?.toList.map some) x'.session
  error : x'.tracker.error = none
  keeps : a.givesUp a' = none
  /-- Nobody stops before the plan is exhausted, and it stays so. -/
  stops : a' = stopped ∨ x.tracker.plan.total ≤ x.tracker.plan.next →
    x'.tracker.plan.total ≤ x'.tracker.plan.next
  /-- A range that was asked for is in hand until it is recorded. -/
  parts : whole = false →
    a.asks?.toList ++ a.answered?.toList = a'.answered?.toList ++ (a.records x.tracker).toList
  /-- The step that records the whole object is the last one. -/
  wholes : whole = true → x.tracker.plan.next < x.tracker.plan.total ∨ a ≠ seeking →
    a'.asked = a.asks?.toList.length + a.asked ∧
      (a'.finished = true ∨ a.records x.tracker = none)

variable {ρ σ : Type} [Remote ρ] [RangeSink σ] {url : String} {total : Nat} {whole : Bool}
  {rules : WorkerRules} {w : Nat} {a a' : Stage} {x x' : Shared ρ σ} {ws : List Stage}
  {marked : List ByteRange} {v : Nat → Option UInt8} {r : ByteRange}

omit [RangeSink σ] in
theorem answer_of_grants (hgrants : Grants ρ url total rules.acceptWhole whole)
    (hurl : x.tracker.url = url) (htotal : x.tracker.total = total) (hpast : r.pastEnd ≤ total)
    (attempt : Nat) :
    ∃ body, afterAnswer rules x.tracker.url x.tracker.total r attempt (x.ask w r).1 =
        holding r body ∧
      (holding r body).Smooth whole ∧ x.session.Sends [some r] (x.ask w r).2 := by
  obtain ⟨response, body, hget, hclassify⟩ :=
    hgrants x.session.remote ⟨w, x.tracker.url, some r⟩ r hurl rfl hpast
  obtain ⟨hanswer, hsends⟩ := Session.sends_ask hget
  refine ⟨if whole then .whole body else .part body, ?_, ?_, hsends⟩
  · rw [Shared.ask, hanswer, hurl, htotal]
    simp only [afterAnswer, hclassify]
  · cases whole <;> rfl

theorem Step.proceeds (hstep : Step rules w x a a' x')
    (hgrants : Grants ρ url total rules.acceptWhole whole)
    (hurl : x.tracker.url = url) (htotal : x.tracker.total = total)
    (hcalm : x.session.cancelled = false) (herror : x.tracker.error = none)
    (hwrites : ∀ offset data, offset + data.size ≤ total →
      (RangeSink.write x.sink offset data).1 = .ok ())
    (hacc : Accounts ws x.tracker marked []) (hw : ws[w]? = some a)
    (hfaith : a.Faithful (fun _ _ => True) total v) (h : a.Smooth whole)
    (hbusy : a.finished = false) : a.Proceeds whole a' x x' := by
  have hsame := Session.Sends.refl x.session
  -- a worker that goes on leaves the plan as it is
  have hon : ∀ {a' : Stage}, a' ≠ stopped →
      a' = stopped ∨ x.tracker.plan.total ≤ x.tracker.plan.next →
      x.tracker.plan.total ≤ x.tracker.plan.next := fun hne hor => hor.resolve_left hne
  have hanswer : ∀ r attempt, a = asking r attempt → ∃ body,
      afterAnswer rules x.tracker.url x.tracker.total r attempt (x.ask w r).1 = holding r body ∧
        (holding r body).Smooth whole ∧ x.session.Sends [some r] (x.ask w r).2 := by
    rintro r attempt rfl
    exact answer_of_grants hgrants hurl htotal
      (htotal ▸ (hacc.bounds (mem_handed (List.mem_of_getElem? hw) rfl)).2) attempt
  cases hstep with
  | idle nothing =>
    have hle := nothing herror
    exact ⟨trivial, hsame, herror, rfl, fun _ => hle, fun _ => rfl,
      fun _ hor => absurd hle (Nat.not_le.mpr (hor.resolve_right (absurd rfl)))⟩
  | claim _ lt =>
    exact ⟨trivial, hsame, herror, rfl,
      fun hor => absurd lt (Nat.not_lt.mpr (hor.resolve_left nofun)), fun _ => rfl,
      fun _ _ => ⟨rfl, Or.inr rfl⟩⟩
  | yield _ up => cases hcalm.symm.trans up
  | start =>
    exact ⟨trivial, hsame, herror, rfl, hon nofun, fun _ => rfl, fun _ _ => ⟨rfl, Or.inr rfl⟩⟩
  | pause _ answered | fail _ answered | crash _ answered =>
    obtain ⟨body, hbody, -⟩ := hanswer _ _ rfl
    cases hbody.symm.trans answered
  | accept _ answered =>
    obtain ⟨body, hbody, hsmooth, hsends⟩ := hanswer _ _ rfl
    cases hbody.symm.trans answered
    exact ⟨hsmooth, hsends, herror, rfl, hon nofun, fun _ => rfl,
      fun _ _ => ⟨rfl, Or.inr rfl⟩⟩
  | store | storeWhole =>
    exact ⟨h, hsame, herror, rfl, hon nofun, fun _ => rfl, fun _ _ => ⟨rfl, Or.inr rfl⟩⟩
  | refuse failed => cases (hfaith.write_eq_ok hwrites).symm.trans failed
  | breakOff aborted => cases (hfaith.write_eq_ok hwrites).symm.trans aborted
  | mark =>
    have hpart : whole = false := h
    exact ⟨h, hsame, herror, rfl, hon nofun, fun _ => rfl,
      fun hwhole => absurd (hpart.symm.trans hwhole) Bool.false_ne_true⟩
  | count =>
    exact ⟨h, hsame, herror, rfl, hon nofun, fun _ => rfl, fun _ _ => ⟨rfl, Or.inr rfl⟩⟩
  | raise =>
    have hpart : whole = false := h
    exact ⟨trivial, x.session.sends_advanceTo _, herror, rfl, hon nofun, fun _ => rfl,
      fun hwhole => absurd (hpart.symm.trans hwhole) Bool.false_ne_true⟩
  | whole =>
    have htrue : whole = true := h
    exact ⟨trivial, ⟨rfl, rfl⟩, herror, rfl, fun _ => Nat.le_max_right _ _,
      fun hpart => absurd (hpart.symm.trans htrue) Bool.false_ne_true, fun _ _ => ⟨rfl, Or.inl rfl⟩⟩
  | again | record => exact h.elim
  | overrun overruns => exact absurd overruns (hacc.not_overruns hw)
  | rest finished => cases hbusy.symm.trans finished

end Stage

/-! ## Runs -/

namespace Crew

variable {ρ : Type} {url : String} {total : Nat} {whole : Bool} {k₀ : Sink} {c : Crew ρ Sink}
  {rules : WorkerRules} {marked : List ByteRange}

/-- No worker has met an error, and the sink still takes every write. -/
structure Unhindered (url : String) (total : Nat) (whole : Bool) (k₀ : Sink) (c : Crew ρ Sink)
    (marked : List ByteRange) : Prop where
  calm : c.shared.session.cancelled = false
  error : c.shared.tracker.error = none
  smooth : ∀ a ∈ c.workers, a.Smooth whole
  stopped : .stopped ∈ c.workers → c.shared.tracker.plan.total ≤ c.shared.tracker.plan.next
  accounts : Accounts c.workers c.shared.tracker marked [] ∨
    whole = true ∧ Settled c.workers c.shared.tracker marked
  faithful : c.Faithful url total (fun _ _ => True) k₀ marked

theorem unhindered_new {session : Session ρ} {resume chunk : Nat}
    (hcalm : session.cancelled = false) (hs : k₀.Sound) (hle : resume ≤ total)
    (hfit : total < Offset.limit) (n : Nat) :
    (new ⟨session, k₀, .new url resume total chunk⟩ n).Unhindered url total whole k₀ [] where
  calm := hcalm
  error := rfl
  smooth a ha := by rw [List.eq_of_mem_replicate ha]; trivial
  stopped hmem := by cases List.eq_of_mem_replicate hmem
  accounts := Or.inl (accounts_new hle hfit n)
  faithful := faithful_new (x := ⟨session, k₀, .new url resume total chunk⟩) hs rfl n

theorem Unhindered.stopped_of_finished (h : c.Unhindered url total whole k₀ marked)
    (hfin : c.finished = true) : ∀ a ∈ c.workers, a = .stopped := by
  intro a ha
  have hf := List.all_eq_true.mp hfin a ha
  have hs := h.smooth a ha
  cases a <;> first | rfl | exact hs.elim | cases hf

theorem Unhindered.abort?_eq_none (h : c.Unhindered url total whole k₀ marked)
    (hfin : c.finished = true) : c.abort? = none := by
  refine List.findSome?_eq_none_iff.mpr fun a ha => ?_
  rw [h.stopped_of_finished hfin a ha]

theorem Unhindered.settled_or_perm (h : c.Unhindered url total whole k₀ marked)
    (hfin : c.finished = true) (hsome : c.workers ≠ []) :
    (whole = true ∧ Settled c.workers c.shared.tracker marked) ∨
      (c.shared.tracker.planned.Perm marked ∧ c.shared.tracker.watermark.reached = total) := by
  refine h.accounts.symm.imp_right fun hacc => ?_
  obtain ⟨a, ha⟩ := List.exists_mem_of_ne_nil c.workers hsome
  have hperm := hacc.planned_perm (uncounted_of_finished hfin).2
    (h.stopped (h.stopped_of_finished hfin a ha ▸ ha))
  exact ⟨hperm, (hacc.reached_of_perm hperm).trans h.faithful.total_eq⟩

theorem Unhindered.reached_eq (h : c.Unhindered url total whole k₀ marked)
    (hfin : c.finished = true) (hsome : c.workers ≠ []) :
    c.shared.tracker.watermark.reached = total :=
  (h.settled_or_perm hfin hsome).elim (fun hsettled => hsettled.2.reached.trans h.faithful.total_eq)
    And.right

variable [Remote ρ]

theorem Unhindered.proceeds (hgrants : Grants ρ url total rules.acceptWhole whole)
    (hwritable : k₀.Writable total) (h : c.Unhindered url total whole k₀ marked) {w : Nat}
    {a a' : Stage} {x' : Shared ρ Sink} (hw : c.workers[w]? = some a) (hbusy : a.finished = false)
    (hstep : Stage.Step rules w c.shared a a' x') :
    Accounts c.workers c.shared.tracker marked [] ∧ a.Proceeds whole a' c.shared x' := by
  have hmem := List.mem_of_getElem? hw
  have hacc : Accounts c.workers c.shared.tracker marked [] := h.accounts.resolve_right fun hs => by
    cases (hs.2.finished a hmem).symm.trans hbusy
  exact ⟨hacc, hstep.proceeds hgrants h.faithful.url_eq h.faithful.total_eq h.calm h.error
    (hwritable _ h.faithful.follows) hacc hw (h.faithful.workers a hmem) (h.smooth a hmem) hbusy⟩

theorem Unhindered.advance (hgrants : Grants ρ url total rules.acceptWhole whole)
    (hs : Solitary rules c) (hwritable : k₀.Writable total)
    (h : c.Unhindered url total whole k₀ marked) (w : Nat) :
    (c.apply rules (.advance w)).Unhindered url total whole k₀
      ((c.records (.advance w)).toList ++ marked) := by
  have hfaithful : (c.apply rules (.advance w)).Faithful url total (fun _ _ => True) k₀
      ((c.records (.advance w)).toList ++ marked) :=
    h.faithful.apply (serves_any ρ url total) (h.accounts.imp (⟨[], ·⟩) And.right) (.advance w)
  have hmoved := c.moved_apply rules (.advance w)
  generalize c.apply rules (.advance w) = c' at hmoved hfaithful ⊢
  cases hmoved with
  | still idle =>
    rw [records_of_idle idle]
    exact h
  | @step _ a _ _ hw hbusy hstep =>
    obtain ⟨hacc, hproceeds⟩ := h.proceeds hgrants hwritable hw hbusy hstep
    have hacc' := hacc.step hs hw hstep
    rw [hproceeds.keeps] at hacc'
    rw [records_advance hw] at hfaithful ⊢
    refine ⟨hproceeds.sends.cancelled.trans h.calm, hproceeds.error, fun b hb => ?_, fun hmem => ?_,
      hacc'.imp_right fun hs => ⟨(h.smooth a (List.mem_of_getElem? hw)).whole_eq hs.1, hs.2.2⟩,
      hfaithful⟩
    · rcases List.mem_or_eq_of_mem_set hb with hmem | rfl
      · exact h.smooth b hmem
      · exact hproceeds.smooth
    · rcases List.mem_or_eq_of_mem_set hmem with hmem | heq
      · exact hproceeds.stops (Or.inr (h.stopped hmem))
      · exact hproceeds.stops (Or.inl heq.symm)

end Crew

end RangeTransfer
