import RangeTransfer.Proofs.Attempt.Cancelled
import RangeTransfer.Proofs.Attempt.Finish
/-!
# What a crew and the remote say to each other

The requests of a crew with the answers it gets, in their order. The remote hears nothing else from
the workers (`Crew.talks_after`), the ranges asked for are those of `Crew.asked`
(`Crew.asked_eq_exchanges`), and once the stop flag is up nothing is said any more
(`Crew.exchanges_of_cancelled`).
-/

namespace RangeTransfer

/-- A request and its answer. -/
structure Exchange where
  query : Query
  answer : Answer

variable {ρ σ : Type} [Remote ρ] [RangeSink σ]

/-- A remote goes from one state to another by answering requests, and by nothing else. -/
inductive Talks : ρ → List Exchange → ρ → Prop
  | nil (x : ρ) : Talks x [] x
  | cons {x y : ρ} {exchanges : List Exchange} (query : Query)
      (rest : Talks (Remote.get x query).2 exchanges y) :
      Talks x (⟨query, (Remote.get x query).1.answer⟩ :: exchanges) y

theorem Talks.append {x y z : ρ} {earlier later : List Exchange} (h : Talks x earlier y)
    (h' : Talks y later z) : Talks x (earlier ++ later) z := by
  induction h with
  | nil x => exact h'
  | cons query rest ih => exact .cons query (ih h')

theorem Session.remote_ask (x : Session ρ) (q : Query) :
    (x.ask q).2.remote = (Remote.get x.remote q).2 := by
  simp only [ask, cancelIf]
  split <;> rfl

theorem Stage.Step.remote {rules : WorkerRules} {w : Nat} {a a' : Stage} {x x' : Shared ρ σ}
    (h : Step rules w x a a' x') : x'.session.remote =
      match a.asks x.session.cancelled with
      | none => x.session.remote
      | some r => (Remote.get x.session.remote ⟨w, x.tracker.url, some r⟩).2 := by
  obtain ⟨r, hasks, heq⟩ | ⟨hnone, heq | ⟨n, heq⟩⟩ := h.asks
  · rw [hasks, heq]
    exact Session.remote_ask _ _
  · rw [hnone, heq]
  · rw [hnone, heq]
    rfl

namespace Crew

/-- The request that a move makes, with its answer. -/
def exchange? (c : Crew ρ σ) : Move → Option Exchange
  | .advance w => (c.asks (.advance w)).map fun r =>
    let query := ⟨w, c.shared.tracker.url, some r⟩
    ⟨query, (c.shared.session.ask query).1⟩
  | .cancel | .lose _ _ | .refuse _ _ _ _ => none

/-- The requests that a list of moves makes, with their answers, the earliest first. -/
def exchanges (rules : WorkerRules) (c : Crew ρ σ) : List Move → List Exchange
  | [] => []
  | m :: moves => (c.exchange? m).toList ++ exchanges rules (c.apply rules m) moves

/-- What worker `w` says and hears during `moves`. -/
def talk (rules : WorkerRules) (w : Nat) (c : Crew ρ σ) (moves : List Move) : List Exchange :=
  (c.exchanges rules moves).filter (·.query.connection = w)

variable {rules : WorkerRules} {w : Nat} {c : Crew ρ σ}

theorem exchanges_append (before after : List Move) : c.exchanges rules (before ++ after) =
    c.exchanges rules before ++ (c.after rules before).exchanges rules after := by
  induction before generalizing c with
  | nil => rfl
  | cons m before ih => rw [List.cons_append, exchanges, ih, exchanges, List.append_assoc]; rfl

theorem talk_append (before after : List Move) : c.talk rules w (before ++ after) =
    c.talk rules w before ++ (c.after rules before).talk rules w after := by
  rw [talk, exchanges_append, List.filter_append, talk, talk]

theorem talk_of_ne {m : Move} (h : m ≠ .advance w) : c.talk rules w [m] = [] := by
  cases m with
  | advance v =>
    have hv : v ≠ w := fun heq => h (congrArg Move.advance heq)
    simp only [talk, exchanges, exchange?, List.append_nil]
    cases c.asks (.advance v) with
    | none => rfl
    | some r => exact List.filter_cons_of_neg (by simpa using hv)
  | _ => rfl

theorem talk_self (rules : WorkerRules) (w : Nat) (c : Crew ρ σ) :
    c.talk rules w [.advance w] = (c.exchange? (.advance w)).toList := by
  simp only [talk, exchanges, exchange?, List.append_nil]
  cases c.asks (.advance w) with
  | none => rfl
  | some r => exact List.filter_cons_of_pos (decide_eq_true rfl)

omit [RangeSink σ] in
theorem exchange?_of_asks {m : Move} (h : c.asks m = none) : c.exchange? m = none := by
  cases m with
  | advance w => rw [exchange?, h, Option.map_none]
  | _ => rfl

omit [RangeSink σ] in
theorem range_exchange? (c : Crew ρ σ) (m : Move) :
    (c.exchange? m).map (·.query.range) = (c.asks m).map some := by
  cases m with
  | advance w => simp only [exchange?, Option.map_map]; rfl
  | _ => rfl

theorem asked_eq_exchanges (rules : WorkerRules) (c : Crew ρ σ) (moves : List Move) :
    (c.asked rules moves).map some = ((c.exchanges rules moves).map (·.query.range)).reverse := by
  induction moves generalizing c with
  | nil => rfl
  | cons m moves ih =>
    have hone : ((c.exchange? m).toList.map (·.query.range)).reverse =
        (c.asks m).toList.map some := by
      rw [← Option.toList_map, range_exchange?, Option.toList_map]
      cases c.asks m <;> rfl
    rw [asked, exchanges, List.map_append, List.map_append, List.reverse_append, ih, hone]

theorem exchanges_of_cancelled (hup : c.shared.session.cancelled = true) (moves : List Move) :
    c.exchanges rules moves = [] := by
  have hnone := asked_eq_exchanges rules c moves
  rw [asked_of_cancelled hup] at hnone
  exact List.map_eq_nil_iff.mp (List.reverse_eq_nil_iff.mp hnone.symm)

theorem talk_of_cancelled (hup : c.shared.session.cancelled = true) (moves : List Move) :
    c.talk rules w moves = [] := by
  rw [talk, exchanges_of_cancelled hup]
  rfl

theorem talk_append_of_cancelled {before : List Move}
    (hup : (c.after rules before).shared.session.cancelled = true) (after : List Move) :
    c.talk rules w (before ++ after) = c.talk rules w before := by
  rw [talk_append, talk_of_cancelled hup, List.append_nil]

theorem talks_apply (rules : WorkerRules) (c : Crew ρ σ) (m : Move) :
    Talks c.shared.session.remote (c.exchange? m).toList (c.apply rules m).shared.session.remote := by
  have hmoved := c.moved_apply rules m
  generalize c.apply rules m = c' at hmoved ⊢
  cases hmoved with
  | still idle =>
    rw [exchange?_of_asks (asks_of_idle idle)]
    exact .nil _
  | @step w a _ _ hw _ hstep =>
    rw [hstep.remote, exchange?, asks_advance hw]
    cases a.asks c.shared.session.cancelled with
    | none => exact .nil _
    | some r => exact .cons _ (.nil _)
  | cancel => exact .nil _
  | lose | refuse =>
    rw [Stage.session_storePart]
    exact .nil _

/-- The exchanges are what the remote sees of a crew, whatever moves it makes. -/
theorem talks_after (rules : WorkerRules) (c : Crew ρ σ) (moves : List Move) :
    Talks c.shared.session.remote (c.exchanges rules moves)
      (c.after rules moves).shared.session.remote := by
  induction moves generalizing c with
  | nil => exact .nil _
  | cons m moves ih => exact (talks_apply rules c m).append (ih (c.apply rules m))

end Crew

end RangeTransfer
