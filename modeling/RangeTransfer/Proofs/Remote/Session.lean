import RangeTransfer.Remote.Basic
/-!
# What a session enters into its journal

Three relations compare a session with a later one. `Session.Asked` says that the journal has grown,
and which requests may be new; `Session.Logs` lists the new requests and the new milestones, which
are the phases shown and the announcement of a directory; `Session.Sends` lists the new requests
while nobody touches the flag. Each is reflexive and transitive and known for the single operations,
from which it follows for the connections of a pool (`Session.connectMore_rel`).

`Session.Logs` also ties the journal to the progress that the caller sees: no operation but
`Session.enter` touches the phase there, so at any time it is the latest one of the journal.
-/

namespace RangeTransfer

namespace Event

/-- The range of a request; `none` stands for the whole object. -/
def request? : Event → Option (Option ByteRange)
  | request range _ => some range
  | _ => none

def isMilestone : Event → Bool
  | phase _ | splitCompleted _ => true
  | connect | request _ _ | wait _ => false

def phase? : Event → Option Phase
  | phase p => some p
  | _ => none

end Event

namespace Session

variable {ρ : Type} {x x' x'' : Session ρ}

theorem connectMore_rel [Remote ρ] {R : Session ρ → Session ρ → Prop} (hrefl : ∀ x, R x x)
    (htrans : ∀ {x y z}, R x y → R y z → R x z) (hconnect : ∀ x, R x x.connect.2) (n : Nat)
    (x : Session ρ) : R x (x.connectMore n).2 := by
  induction n generalizing x with
  | zero => exact hrefl x
  | succ n ih =>
    have hfirst := hconnect x
    rw [connectMore]
    split
    · rename_i heq
      rwa [heq] at hfirst
    · rename_i heq
      rw [heq] at hfirst
      exact htrans hfirst (ih _)

/-! ## Requests with a property -/

section Asked

variable {P : Option ByteRange → Prop}

/-- The journal of `x'` is that of `x` with further events on top, and every request among these has
the property. -/
def Asked (P : Option ByteRange → Prop) (x x' : Session ρ) : Prop :=
  ∃ events, x'.journal = events ++ x.journal ∧ ∀ range n, .request range n ∈ events → P range

theorem asked_of_journal (P : Option ByteRange → Prop) (h : x'.journal = x.journal) : x.Asked P x' :=
  ⟨[], h, nofun⟩

theorem Asked.trans (h : x.Asked P x') (h' : x'.Asked P x'') : x.Asked P x'' := by
  obtain ⟨events, heq, hall⟩ := h
  obtain ⟨events', heq', hall'⟩ := h'
  refine ⟨events' ++ events, by rw [heq', heq, List.append_assoc], fun range n hmem => ?_⟩
  exact (List.mem_append.mp hmem).elim (hall' range n) (hall range n)

theorem asked_of_event {e : Event} (h : x'.journal = e :: x.journal)
    (he : ∀ range n, e = .request range n → P range) : x.Asked P x' :=
  ⟨[e], h, fun range n hmem => he range n (List.mem_singleton.mp hmem).symm⟩

theorem asked_enter (P : Option ByteRange → Prop) (x : Session ρ) (phase : Phase) :
    x.Asked P (x.enter phase) := asked_of_event rfl nofun

theorem asked_cancelIf (P : Option ByteRange → Prop) (x : Session ρ) (raise : Bool) :
    x.Asked P (x.cancelIf raise) := by
  cases raise <;> exact asked_of_journal P rfl

variable [Remote ρ]

theorem asked_ask {q : Query} (h : P q.range) : x.Asked P (x.ask q).2 := by
  have hrequest : x.Asked P { x with
      remote := (Remote.get x.remote q).2
      journal := .request q.range x.progress.bytes :: x.journal } := by
    refine asked_of_event rfl fun range n heq => ?_
    cases heq
    exact h
  exact hrequest.trans (asked_cancelIf P _ _)

theorem asked_connect (P : Option ByteRange → Prop) (x : Session ρ) : x.Asked P x.connect.2 :=
  asked_of_event rfl nofun

theorem asked_connectMore (P : Option ByteRange → Prop) (n : Nat) (x : Session ρ) :
    x.Asked P (x.connectMore n).2 :=
  connectMore_rel (fun _ => asked_of_journal P rfl) Asked.trans (asked_connect P) n x

end Asked

/-! ## Requests and milestones in order -/

variable {asked asked' : List (Option ByteRange)} {shown shown' : List Event}

/-- All requests, the latest first. -/
def requests (x : Session ρ) : List (Option ByteRange) := x.journal.filterMap Event.request?

/-- The phases and announcements, the latest first. -/
def milestones (x : Session ρ) : List Event := x.journal.filter Event.isMilestone

/-- From `x` to `x'` the requests of `asked` were made and the milestones of `shown` passed, the
latest first, the caller sees the latest phase, and the stop flag was not taken back. -/
structure Logs (x x' : Session ρ) (asked : List (Option ByteRange)) (shown : List Event) : Prop where
  requests : x'.requests = asked ++ x.requests
  milestones : x'.milestones = shown ++ x.milestones
  phase : x'.progress.phase = (shown.findSome? Event.phase?).getD x.progress.phase
  cancelled : x.cancelled = true → x'.cancelled = true

theorem Logs.trans (h : x.Logs x' asked shown) (h' : x'.Logs x'' asked' shown') :
    x.Logs x'' (asked' ++ asked) (shown' ++ shown) where
  requests := by rw [h'.requests, h.requests, List.append_assoc]
  milestones := by rw [h'.milestones, h.milestones, List.append_assoc]
  phase := by rw [h'.phase, h.phase, List.findSome?_append, Option.getD_or]
  cancelled := h'.cancelled ∘ h.cancelled

theorem logs_of_journal (h : x'.journal = x.journal) (hp : x'.progress.phase = x.progress.phase)
    (hc : x.cancelled = true → x'.cancelled = true) : x.Logs x' [] [] where
  requests := congrArg (List.filterMap Event.request?) h
  milestones := congrArg (List.filter Event.isMilestone) h
  phase := hp
  cancelled := hc

theorem Logs.refl (x : Session ρ) : x.Logs x [] [] := logs_of_journal rfl rfl id

theorem logs_note (x : Session ρ) {e : Event} (h : e.phase? = none) :
    x.Logs (x.note e) e.request?.toList (if e.isMilestone then [e] else []) := by
  cases e <;> first | exact ⟨rfl, rfl, rfl, id⟩ | cases h

theorem logs_enter (x : Session ρ) (phase : Phase) : x.Logs (x.enter phase) [] [.phase phase] :=
  ⟨rfl, rfl, rfl, id⟩

theorem logs_cancelIf (x : Session ρ) (raise : Bool) : x.Logs (x.cancelIf raise) [] [] := by
  cases raise
  · exact Logs.refl x
  · exact logs_of_journal rfl rfl fun _ => rfl

/-- `x'` is `x` after the requests `asked`, the latest first, while nobody raised the flag. -/
structure Sends (x : Session ρ) (asked : List (Option ByteRange)) (x' : Session ρ) : Prop where
  cancelled : x'.cancelled = x.cancelled
  requests : x'.requests = asked ++ x.requests

theorem Sends.refl (x : Session ρ) : x.Sends [] x := ⟨rfl, rfl⟩

theorem Sends.trans (h : x.Sends asked x') (h' : x'.Sends asked' x'') :
    x.Sends (asked' ++ asked) x'' where
  cancelled := h'.cancelled.trans h.cancelled
  requests := by rw [h'.requests, h.requests, List.append_assoc]

theorem sends_enter (x : Session ρ) (phase : Phase) : x.Sends [] (x.enter phase) := ⟨rfl, rfl⟩

theorem sends_advanceTo (x : Session ρ) (bytes : Nat) : x.Sends [] (x.advanceTo bytes) := ⟨rfl, rfl⟩

variable [Remote ρ]

theorem logs_ask (x : Session ρ) (q : Query) : x.Logs (x.ask q).2 [q.range] [] := by
  have hrequest : x.Logs { x with
      remote := (Remote.get x.remote q).2
      journal := .request q.range x.progress.bytes :: x.journal } [q.range] [] := ⟨rfl, rfl, rfl, id⟩
  exact hrequest.trans (logs_cancelIf _ _)

theorem logs_connect (x : Session ρ) : x.Logs x.connect.2 [] [] := ⟨rfl, rfl, rfl, id⟩

theorem logs_connectMore (n : Nat) (x : Session ρ) : x.Logs (x.connectMore n).2 [] [] :=
  connectMore_rel (R := fun x y => x.Logs y [] []) Logs.refl Logs.trans logs_connect n x

theorem sends_connect (x : Session ρ) : x.Sends [] x.connect.2 := ⟨rfl, rfl⟩

theorem sends_connectMore (n : Nat) (x : Session ρ) : x.Sends [] (x.connectMore n).2 :=
  connectMore_rel Sends.refl Sends.trans sends_connect n x

theorem sends_ask {q : Query} {answer : Answer} (h : (Remote.get x.remote q).1 = ⟨answer, false⟩) :
    (x.ask q).1 = answer ∧ x.Sends [q.range] (x.ask q).2 := by
  simp only [ask, h]
  exact ⟨trivial, rfl, rfl⟩

end Session

end RangeTransfer
