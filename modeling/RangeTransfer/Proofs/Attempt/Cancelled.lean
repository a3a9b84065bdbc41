import RangeTransfer.Proofs.Attempt.InFlight
import RangeTransfer.Proofs.Attempt.Journal
import RangeTransfer.Proofs.Attempt.Stored
/-!
# Crews that are asked to stop

Once the stop flag is up it stays up, and no worker makes a request any more
(`Crew.asked_of_cancelled`). So no worker gets hold of a body, and what is stored from then on was in
the hands of a worker before (`Crew.stored_of_cancelled`).
-/

namespace RangeTransfer

variable {ρ σ : Type} [Remote ρ] [RangeSink σ] {rules : WorkerRules}

theorem Stage.Step.body_of_cancelled {w : Nat} {a : Stage} {x x' : Shared ρ σ} {r : ByteRange}
    {body : Accepted} (hup : x.session.cancelled = true) : ¬ Step rules w x a (.holding r body) x' := by
  intro h
  cases h with
  | accept down => cases hup.symm.trans down
  | rest finished => cases finished

namespace Crew

variable {c : Crew ρ σ}

theorem asked_of_cancelled (hup : c.shared.session.cancelled = true) (moves : List Move) :
    c.asked rules moves = [] := by
  induction moves generalizing c with
  | nil => rfl
  | cons m moves ih =>
    have hnone : c.asks m = none := by
      cases hasks : c.asks m with
      | none => rfl
      | some r => exact nomatch hup.symm.trans (asks_eq_some hasks).1
    rw [asked, ih ((logs_apply rules c m).cancelled hup), hnone]
    rfl

theorem holding_of_cancelled (hup : c.shared.session.cancelled = true) {m : Move} {w : Nat}
    {r : ByteRange} {body : Accepted}
    (hw : (c.apply rules m).workers[w]? = some (.holding r body)) :
    c.workers[w]? = some (.holding r body) := by
  have hlt := (List.getElem?_eq_some_iff.mp hw).1
  rw [length_workers_apply] at hlt
  have hget := List.getElem?_eq_getElem hlt
  obtain ⟨a', hw', hchange⟩ := (c.moved_apply rules m).worker hget
  obtain rfl : a' = .holding r body := Option.some.inj (hw'.symm.trans hw)
  rw [hget]
  obtain hsame | ⟨-, _, hstep⟩ | ⟨_, _, _, -, -, hlost⟩ | ⟨_, _, _, _, _, -, -, hrefused⟩ := hchange
  · rw [hsame]
  · exact absurd hstep (Stage.Step.body_of_cancelled hup)
  · cases hlost
  · cases hrefused

/-- The range whose write a worker completes once the flag is up was in its hands at that moment, as
a part or with the whole object. -/
theorem stored_of_cancelled (hup : c.shared.session.cancelled = true) {moves : List Move}
    {r : ByteRange} (hr : r ∈ c.stored rules moves) :
    ∃ (w : Nat) (q : ByteRange) (body : Accepted), c.workers[w]? = some (.holding q body) ∧
      ((∃ data, body = .part data) ∧ r = q ∨
        (∃ data, body = .whole data) ∧ r.first = 0 ∧ r.pastEnd = c.shared.tracker.total) := by
  induction moves generalizing c with
  | nil => cases hr
  | cons m moves ih =>
    rcases List.mem_append.mp hr with hr | hr
    · obtain ⟨w, q, body, hw, hbody⟩ := ih ((logs_apply rules c m).cancelled hup) hr
      rw [total_apply] at hbody
      exact ⟨w, q, body, holding_of_cancelled hup hw, hbody⟩
    · obtain ⟨w, q, body, -, hw, ⟨hpart, hrange, -⟩ | ⟨hwhole, hfirst, hpast, -⟩⟩ :=
        holding_of_stores (Option.mem_toList.mp hr)
      · exact ⟨w, q, body, hw, Or.inl ⟨hpart, hrange⟩⟩
      · exact ⟨w, q, body, hw, Or.inr ⟨hwhole, hfirst, hpast⟩⟩

theorem stored_append (before after : List Move) : c.stored rules (before ++ after) =
    (c.after rules before).stored rules after ++ c.stored rules before := by
  induction before generalizing c with
  | nil => exact (List.append_nil _).symm
  | cons m before ih => rw [List.cons_append, stored, ih, List.append_assoc]; rfl

end Crew

end RangeTransfer
