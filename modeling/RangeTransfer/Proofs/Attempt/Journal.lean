import RangeTransfer.Proofs.Attempt.Points
import RangeTransfer.Proofs.Remote.Session
/-!
# What a crew enters into the journal

The workers of a crew pass no milestone, and make the requests of `Crew.asked` (`Crew.logs_after`):
one in each step of a worker that is to ask while the flag is down.
-/

namespace RangeTransfer

/-- The range that the next step of a worker asks for, where `cancelled` tells whether the stop flag
is up. -/
def Stage.asks (cancelled : Bool) : Stage → Option ByteRange
  | asking r _ => if cancelled then none else some r
  | _ => none

theorem Stage.asks_eq_some {cancelled : Bool} {a : Stage} {r : ByteRange}
    (h : a.asks cancelled = some r) : cancelled = false ∧ ∃ attempt, a = asking r attempt := by
  cases a with
  | asking q attempt =>
    simp only [asks] at h
    split at h
    · cases h
    · rename_i hcalm
      cases h
      exact ⟨Bool.eq_false_iff.mpr hcalm, attempt, rfl⟩
  | _ => cases h

theorem Stage.asks_of_finished {cancelled : Bool} {a : Stage} (h : a.finished = true) :
    a.asks cancelled = none := by
  cases a <;> first | rfl | cases h

theorem Stage.asks_eq_none {cancelled : Bool} {a : Stage}
    (h : ∀ r attempt, a = asking r attempt → cancelled = true) : a.asks cancelled = none := by
  cases a with
  | asking r attempt => exact if_pos (h r attempt rfl)
  | _ => rfl

variable {ρ σ : Type} [Remote ρ] [RangeSink σ]

theorem Stage.Step.asks {rules : WorkerRules} {w : Nat} {a a' : Stage} {x x' : Shared ρ σ}
    (h : Step rules w x a a' x') :
    (∃ r, a.asks x.session.cancelled = some r ∧ x'.session = (x.ask w r).2) ∨
      a.asks x.session.cancelled = none ∧
        (x'.session = x.session ∨ ∃ n, x'.session = x.session.advanceTo n) := by
  obtain ⟨r, attempt, rfl, hdown, heq⟩ | ⟨hup, heq⟩ := h.session
  · exact Or.inl ⟨r, by rw [hdown]; rfl, heq⟩
  · exact Or.inr ⟨asks_eq_none hup, heq⟩

theorem Stage.Step.logs {rules : WorkerRules} {w : Nat} {a a' : Stage} {x x' : Shared ρ σ}
    (h : Step rules w x a a' x') :
    x.session.Logs x'.session ((a.asks x.session.cancelled).toList.map some) [] := by
  obtain ⟨r, hasks, heq⟩ | ⟨hnone, heq | ⟨n, heq⟩⟩ := h.asks
  · rw [hasks, heq]
    exact Session.logs_ask _ _
  · rw [hnone, heq]
    exact .refl _
  · rw [hnone, heq]
    exact Session.logs_of_journal rfl rfl id

namespace Crew

/-- The range that a move asks for. -/
def asks (c : Crew ρ σ) : Move → Option ByteRange
  | .advance w => c.workers[w]?.bind (·.asks c.shared.session.cancelled)
  | .cancel | .lose _ _ | .refuse _ _ _ _ => none

/-- The ranges that a list of moves asks for, the latest first. -/
def asked (rules : WorkerRules) (c : Crew ρ σ) : List Move → List ByteRange
  | [] => []
  | m :: moves => asked rules (c.apply rules m) moves ++ (c.asks m).toList

variable {c : Crew ρ σ} {rules : WorkerRules}

omit [Remote ρ] [RangeSink σ] in
theorem asks_eq_some {m : Move} {r : ByteRange} (h : c.asks m = some r) :
    c.shared.session.cancelled = false ∧ ∃ w attempt, m = .advance w ∧
      c.workers[w]? = some (.asking r attempt) := by
  cases m with
  | advance w =>
    obtain ⟨a, hw, ha⟩ := Option.bind_eq_some_iff.mp h
    obtain ⟨hcalm, attempt, rfl⟩ := Stage.asks_eq_some ha
    exact ⟨hcalm, w, attempt, rfl, hw⟩
  | _ => cases h

omit [Remote ρ] [RangeSink σ] in
theorem asks_advance {w : Nat} {a : Stage} (hw : c.workers[w]? = some a) :
    c.asks (.advance w) = a.asks c.shared.session.cancelled := by
  simp only [asks, hw, Option.bind_some]

omit [Remote ρ] [RangeSink σ] in
theorem asks_of_idle {m : Move}
    (idle : ∀ w a, m = .advance w → c.workers[w]? = some a → a.finished = true) :
    c.asks m = none := by
  cases m with
  | advance w =>
    cases hw : c.workers[w]? with
    | none => simp only [asks, hw, Option.bind_none]
    | some a => exact (asks_advance hw).trans (Stage.asks_of_finished (idle w a rfl hw))
  | _ => rfl

theorem asked_append (before after : List Move) : c.asked rules (before ++ after) =
    (c.after rules before).asked rules after ++ c.asked rules before := by
  induction before generalizing c with
  | nil => exact (List.append_nil _).symm
  | cons m before ih => rw [List.cons_append, asked, ih, List.append_assoc]; rfl

theorem logs_apply (rules : WorkerRules) (c : Crew ρ σ) (m : Move) : c.shared.session.Logs
    (c.apply rules m).shared.session ((c.asks m).toList.map some) [] := by
  have hmoved := c.moved_apply rules m
  generalize c.apply rules m = c' at hmoved ⊢
  cases hmoved with
  | still idle =>
    rw [asks_of_idle idle]
    exact .refl _
  | step hw _ hstep =>
    rw [asks_advance hw]
    exact hstep.logs
  | cancel => exact c.shared.session.logs_cancelIf true
  | lose | refuse =>
    rw [Stage.session_storePart]
    exact .refl _

theorem logs_after (rules : WorkerRules) (c : Crew ρ σ) (moves : List Move) : c.shared.session.Logs
    (c.after rules moves).shared.session ((c.asked rules moves).map some) [] := by
  induction moves generalizing c with
  | nil => exact .refl _
  | cons m moves ih =>
    have hrest := (logs_apply rules c m).trans (ih (c.apply rules m))
    rw [← List.map_append] at hrest
    exact hrest

end Crew

end RangeTransfer
