import RangeTransfer.Attempt.Strategy
import RangeTransfer.Proofs.Attempt.Finish
import RangeTransfer.Proofs.Remote.Session
/-!
# What the workers ask for

A worker asks for the range that it has claimed and for nothing else, so all requests that a
strategy makes lie between the offsets that bound the attempt (`Strategy.asked_execute`), whatever
the answers and in whatever order the workers step.
-/

namespace RangeTransfer

/-- The range has bytes from `first` on and before `pastEnd` only. -/
def Session.Within (first pastEnd : Nat) (range : Option ByteRange) : Prop :=
  ∃ r, range = some r ∧ first ≤ r.first ∧ r.pastEnd ≤ pastEnd

/-! ## Moves of a crew -/

variable {ρ σ : Type} [Remote ρ] [RangeSink σ] {P : Option ByteRange → Prop} {rules : WorkerRules}

theorem Stage.Step.asked {w : Nat} {a a' : Stage} {x x' : Shared ρ σ} (hstep : Step rules w x a a' x')
    (h : ∀ r attempt, a = asking r attempt → P (some r)) : x.session.Asked P x'.session := by
  obtain ⟨r, attempt, ha, -, heq⟩ | ⟨-, heq | ⟨n, heq⟩⟩ := hstep.session
  · rw [heq]
    exact Session.asked_ask (h r attempt ha)
  · rw [heq]
    exact Session.asked_of_journal P rfl
  · rw [heq]
    exact Session.asked_of_journal P rfl

namespace Crew

variable {c : Crew ρ σ} {marked : List ByteRange}

theorem asked_apply (h : c.Accounted marked) (m : Move) :
    c.shared.session.Asked (Session.Within c.shared.tracker.resume c.shared.tracker.total)
      (c.apply rules m).shared.session := by
  have hmoved := c.moved_apply rules m
  generalize c.apply rules m = c' at hmoved ⊢
  cases hmoved with
  | still => exact Session.asked_of_journal _ rfl
  | step hw _ hstep =>
    refine hstep.asked ?_
    rintro r attempt rfl
    exact ⟨r, rfl, h.bounds hw rfl rfl⟩
  | cancel => exact Session.asked_cancelIf _ _ _
  | lose | refuse =>
    rw [Stage.session_storePart]
    exact Session.asked_of_journal _ rfl

/-- Whatever moves a crew makes, its workers ask only for bytes that the attempt is about. -/
theorem asked_after (hs : Solitary rules c) (h : c.Accounted marked) (moves : List Move) :
    c.shared.session.Asked (Session.Within c.shared.tracker.resume c.shared.tracker.total)
      (c.after rules moves).shared.session := by
  induction moves generalizing c marked with
  | nil => exact Session.asked_of_journal _ rfl
  | cons m moves ih =>
    have hrest := ih (hs.apply m) (h.apply hs m)
    rw [resume_apply, total_apply] at hrest
    exact (asked_apply h m).trans hrest

end Crew

theorem Strategy.asked_execute (strategy : Strategy) (moves : List Move) (granted : Option Nat)
    {x : Shared ρ σ} {url : String} {resume total chunk : Nat}
    (htracker : x.tracker = .new url resume total chunk) (hle : resume ≤ total)
    (hfit : total < Offset.limit) :
    x.session.Asked (Session.Within resume total) (strategy.execute moves granted x).2.session := by
  have hrun : ∀ (rules : WorkerRules) (session : Session ρ) (n : Nat),
      (rules.acceptWhole = true → n = 1) →
      session.Asked (Session.Within resume total)
        ((Crew.new { x with session } n).run rules moves).shared.session := by
    intro rules session n hone
    have hsolitary : (Crew.new { x with session } n).Solitary rules := fun h =>
      (List.length_replicate ..).trans (hone h)
    have hasked := Crew.asked_after hsolitary
      (Crew.accounted_new (x := { x with session }) htracker hle hfit n)
      (Crew.schedule rules moves (.new { x with session } n))
    rw [← Crew.run_eq_after] at hasked
    rw [show resume = x.tracker.resume by rw [htracker]; rfl,
      show total = x.tracker.total by rw [htracker]; rfl]
    exact hasked
  cases strategy with
  | sequential policy =>
    simp only [execute]
    split <;> exact hrun ⟨policy, true⟩ x.session 1 fun _ => rfl
  | parallel workers policy spawn =>
    have hconnect := x.session.asked_connectMore (Session.Within resume total) (workers - 1)
    simp only [execute]
    split
    · exact hconnect
    · exact hconnect.trans (hrun ⟨policy, false⟩ _ _ nofun)

end RangeTransfer
