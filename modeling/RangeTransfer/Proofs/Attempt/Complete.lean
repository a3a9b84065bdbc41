import RangeTransfer.Proofs.Attempt.Stored
/-!
# What a crew has achieved

Nothing that is stored goes unrecorded: a worker that has stored its range records it in its next
step, whatever the others do (`Booked.apply`). So a crew that has finished has recorded just those of
the missing bytes that it has stored (`Crew.covered_stored_iff`). And a worker that dies loses the
range in its hands (`Reckoned.apply`), so that nobody has died in a crew that has recorded all bytes
(`Reckoned.not_died`).
-/

namespace RangeTransfer

namespace Crew

variable {ρ σ : Type} {c : Crew ρ σ} {rules : WorkerRules} {marked rs : List ByteRange}

/-! ## Stored and recorded -/

/-- The missing bytes of each range of `rs` are in ranges of `marked`, or a worker is about to record
them. -/
def Booked (c : Crew ρ σ) (rs marked : List ByteRange) : Prop :=
  ∀ r ∈ rs, (∀ o, r.Has o → c.shared.tracker.resume ≤ o → ∃ q ∈ marked, q.Has o) ∨
    .written r ∈ c.workers ∨ r.pastEnd ≤ c.shared.tracker.total ∧ ∃ q, .writtenWhole q ∈ c.workers

theorem Booked.covered (h : c.Booked rs marked) (hfin : c.finished = true) {n : Nat}
    (hcov : Covered c.shared.tracker.resume rs n) : Covered c.shared.tracker.resume marked n := by
  intro o ho
  rcases hcov o ho with hlow | ⟨r, hr, hro⟩
  · exact Or.inl hlow
  · by_cases hlow : o < c.shared.tracker.resume
    · exact Or.inl hlow
    · obtain hall | hmem | ⟨-, q, hmem⟩ := h r hr
      · exact Or.inr (hall o hro (Nat.not_lt.mp hlow))
      · cases List.all_eq_true.mp hfin _ hmem
      · cases List.all_eq_true.mp hfin _ hmem

variable [Remote ρ] [RangeSink σ]

theorem eq_advance_or_mem {v : Nat} {a : Stage} (hw : c.workers[v]? = some a)
    (hfree : ∀ r, ¬ a.InCall r) (m : Move) : m = .advance v ∨ a ∈ (c.apply rules m).workers := by
  obtain ⟨a', hw', rfl | ⟨rfl, -⟩ | ⟨r, _, _, -, hcall, -⟩ | ⟨r, body, _, _, _, -, rfl, -⟩⟩ :=
    (c.moved_apply rules m).worker hw
  · exact Or.inr (List.mem_of_getElem? hw')
  · exact Or.inl rfl
  · exact absurd hcall (hfree r)
  · exact absurd (.holding body) (hfree r)

theorem Booked.apply (rules : WorkerRules) (h : c.Booked rs marked) (m : Move) :
    (c.apply rules m).Booked ((c.stores rules m).toList ++ rs) ((c.records m).toList ++ marked) := by
  intro r hr
  rw [resume_apply, total_apply]
  rcases List.mem_append.mp hr with hr | hr
  · obtain ⟨w, q, body, rfl, hw, ⟨-, rfl, hws⟩ | ⟨-, -, hpast, hws⟩⟩ :=
      holding_of_stores (Option.mem_toList.mp hr)
    · have hlt := (List.getElem?_eq_some_iff.mp hw).1
      exact Or.inr (Or.inl (hws ▸ List.mem_of_getElem? (List.getElem?_set_self hlt)))
    · have hlt := (List.getElem?_eq_some_iff.mp hw).1
      exact Or.inr (Or.inr ⟨Nat.le_of_eq hpast, q,
        hws ▸ List.mem_of_getElem? (List.getElem?_set_self hlt)⟩)
  · obtain hall | hmem | ⟨hpast, q, hmem⟩ := h r hr
    · refine Or.inl fun o hro ho => ?_
      obtain ⟨q, hq, hqo⟩ := hall o hro ho
      exact ⟨q, List.mem_append_right _ hq, hqo⟩
    · obtain ⟨v, hw⟩ := List.mem_iff_getElem?.mp hmem
      rcases eq_advance_or_mem hw nofun m with rfl | hstill
      · refine Or.inl fun o hro _ => ⟨r, List.mem_append_left _ ?_, hro⟩
        rw [records_advance hw]
        exact List.mem_singleton_self r
      · exact Or.inr (Or.inl hstill)
    · obtain ⟨v, hw⟩ := List.mem_iff_getElem?.mp hmem
      rcases eq_advance_or_mem hw nofun m with rfl | hstill
      · refine Or.inl fun o hro ho => ?_
        have hend := Nat.lt_of_lt_of_le hro.2 hpast
        have hlt := Nat.lt_of_le_of_lt ho hend
        refine ⟨.upTo _ _ hlt, List.mem_append_left _ ?_, ho, ?_⟩
        · simp only [records_advance hw, Stage.records, dif_pos hlt]
          exact List.mem_singleton_self _
        · rwa [ByteRange.upTo_pastEnd]
      · exact Or.inr (Or.inr ⟨hpast, q, hstill⟩)

theorem Booked.after (rules : WorkerRules) (h : c.Booked rs marked) (moves : List Move) :
    (c.after rules moves).Booked (c.stored rules moves ++ rs) (c.recorded rules moves ++ marked) := by
  induction moves generalizing c rs marked with
  | nil => exact h
  | cons m moves ih =>
    have hrest := ih (h.apply rules m)
    rwa [← List.append_assoc, ← List.append_assoc] at hrest

theorem covered_stored_iff (h : c.Stocked []) {moves : List Move}
    (hfin : (c.after rules moves).finished = true) (n : Nat) :
    Covered c.shared.tracker.resume (c.stored rules moves) n ↔
      Covered c.shared.tracker.resume (c.recorded rules moves) n := by
  have hresume : (c.after rules moves).shared.tracker.resume = _ := resume_after c moves
  have hbooked : c.Booked [] [] := fun r hr => absurd hr List.not_mem_nil
  constructor
  · intro hcov
    have hafter := hbooked.after rules moves
    rw [List.append_nil, List.append_nil] at hafter
    rw [← hresume] at hcov ⊢
    exact hafter.covered hfin hcov
  · intro hcov o ho
    rcases hcov o ho with hlow | ⟨r, hr, hro⟩
    · exact Or.inl hlow
    · obtain ⟨q, hq, hfirst, hpast⟩ := recorded_in_stored h hr
      rw [List.append_nil] at hq
      exact Or.inr ⟨q, hq, Nat.le_trans hfirst hro.1, Nat.lt_of_lt_of_le hro.2 hpast⟩

end Crew

/-! ## Deaths -/

theorem Stage.Step.givesUp_of_died {ρ σ : Type} [Remote ρ] [RangeSink σ] {rules : WorkerRules}
    {ws : List Stage} {x x' : Shared ρ σ} {marked lost : List ByteRange} {w : Nat} {a : Stage}
    {abort : Abort} (hstep : Step rules w x a (.died abort) x')
    (h : Accounts ws x.tracker marked lost) (hw : ws[w]? = some a) :
    a = .died abort ∨ ∃ r, a.givesUp (.died abort) = some r := by
  cases hstep with
  | crash | breakOff => exact Or.inr ⟨_, rfl⟩
  | overrun overruns => exact absurd overruns (h.not_overruns hw)
  | rest => exact Or.inl rfl

namespace Crew

variable {ρ σ : Type} {c : Crew ρ σ} {rules : WorkerRules} {marked : List ByteRange}

/-- The ranges of the crew are accounted for, and a worker that has died has lost one. -/
def Reckoned (c : Crew ρ σ) (marked : List ByteRange) : Prop :=
  (∃ lost, Accounts c.workers c.shared.tracker marked lost ∧
      ∀ abort, .died abort ∈ c.workers → lost ≠ []) ∨
    Settled c.workers c.shared.tracker marked ∧ ∀ abort, .died abort ∉ c.workers

theorem reckoned_new {x : Shared ρ σ} {url : String} {resume total chunk : Nat}
    (htracker : x.tracker = .new url resume total chunk) (hle : resume ≤ total)
    (hfit : total < Offset.limit) (n : Nat) : (new x n).Reckoned [] := by
  refine Or.inl ⟨[], ?_, fun abort hmem => nomatch List.eq_of_mem_replicate hmem⟩
  show Accounts _ x.tracker [] []
  rw [htracker]
  exact accounts_new hle hfit n

theorem Reckoned.accounted (h : c.Reckoned marked) : c.Accounted marked :=
  h.imp (fun ⟨lost, hacc, _⟩ => ⟨lost, hacc⟩) And.left

theorem Reckoned.not_died (h : c.Reckoned marked)
    (hcov : Covered c.shared.tracker.resume marked c.shared.tracker.total) (abort : Abort) :
    .died abort ∉ c.workers := by
  rcases h with ⟨lost, hacc, hdied⟩ | ⟨-, hnone⟩
  · have hsum := hacc.totalLength_eq
    rw [hacc.length_of_covered hcov] at hsum
    exact fun hmem => hdied abort hmem (eq_nil_of_totalLength_eq_zero (by omega))
  · exact hnone abort

variable [Remote ρ] [RangeSink σ]

theorem Reckoned.advance (hs : Solitary rules c) {lost : List ByteRange}
    (hacc : Accounts c.workers c.shared.tracker marked lost)
    (hdied : ∀ abort, .died abort ∈ c.workers → lost ≠ []) {w : Nat} {a a' : Stage} {x' : Shared ρ σ}
    (hw : c.workers[w]? = some a) (hstep : Stage.Step rules w c.shared a a' x') :
    Reckoned ⟨x', c.workers.set w a'⟩ ((a.records c.shared.tracker).toList ++ marked) := by
  rcases hacc.step hs hw hstep with hnext | ⟨hwhole, rfl, hsettled⟩
  · refine Or.inl ⟨_, hnext, fun abort hmem hnil => ?_⟩
    obtain ⟨hup, hlost⟩ := List.append_eq_nil_iff.mp hnil
    rcases List.mem_or_eq_of_mem_set hmem with hmem | rfl
    · exact hdied abort hmem hlost
    · rcases hstep.givesUp_of_died hacc hw with rfl | ⟨r, hr⟩
      · exact hdied abort (List.mem_of_getElem? hw) hlost
      · rw [hr] at hup
        cases hup
  · -- the worker that takes the whole object is alone, and stops
    refine Or.inr ⟨hsettled, fun abort hmem => ?_⟩
    rcases List.mem_or_eq_of_mem_set hmem with hmem | heq
    · obtain ⟨b, hb⟩ := List.length_eq_one_iff.mp
        (hacc.alone a (List.mem_of_getElem? hw) hwhole)
      have ha := List.mem_of_getElem? hw
      rw [hb, List.mem_singleton] at hmem ha
      rw [ha, ← hmem] at hwhole
      cases hwhole
    · cases heq

theorem Reckoned.apply (hs : Solitary rules c) (h : c.Reckoned marked) (m : Move) :
    (c.apply rules m).Reckoned ((c.records m).toList ++ marked) := by
  have hrunning : ∀ {w : Nat} {a : Stage}, c.workers[w]? = some a → a.finished = false →
      ∃ lost, Accounts c.workers c.shared.tracker marked lost ∧
        ∀ abort, .died abort ∈ c.workers → lost ≠ [] := fun hw ha =>
    h.resolve_right fun ⟨hsettled, _⟩ => by
      cases (hsettled.finished _ (List.mem_of_getElem? hw)).symm.trans ha
  have hmoved := c.moved_apply rules m
  generalize c.apply rules m = c' at hmoved ⊢
  cases hmoved with
  | still idle =>
    rw [records_of_idle idle]
    exact h
  | step hw hbusy hstep =>
    obtain ⟨lost, hacc, hdied⟩ := hrunning hw hbusy
    rw [records_advance hw]
    exact Reckoned.advance hs hacc hdied hw hstep
  | cancel => exact h
  | @lose w stored a r hw hcall =>
    obtain ⟨lost, hacc, -⟩ := hrunning hw hcall.finished
    exact Or.inl ⟨r :: lost, hacc.lose hw hcall stored, fun _ _ => List.cons_ne_nil r lost⟩
  | @refuse w stored r body path cause hw =>
    obtain ⟨lost, hacc, hdied⟩ := hrunning hw rfl
    refine Or.inl ⟨lost, hacc.refuse hw stored _, fun abort hmem => ?_⟩
    rcases List.mem_or_eq_of_mem_set hmem with hmem | heq
    · exact hdied abort hmem
    · cases heq

theorem Reckoned.after (hs : Solitary rules c) (h : c.Reckoned marked) (moves : List Move) :
    (c.after rules moves).Reckoned (c.recorded rules moves ++ marked) := by
  induction moves generalizing c marked with
  | nil => exact h
  | cons m moves ih =>
    have hrest := ih (hs.apply m) (h.apply hs m)
    rwa [← List.append_assoc] at hrest

/-- When the workers have finished, the books say that all is there exactly if the writes that they
have completed make up the missing bytes, and then nobody has died. -/
theorem Reckoned.complete_iff (hs : Solitary rules c) (h : c.Reckoned []) (hstocked : c.Stocked [])
    (hle : c.shared.tracker.resume ≤ c.shared.tracker.total)
    (hfit : c.shared.tracker.total < Offset.limit) {moves : List Move}
    (hfin : (c.after rules moves).finished = true) :
    let t := (c.after rules moves).shared.tracker
    let stored := Covered c.shared.tracker.resume (c.stored rules moves) c.shared.tracker.total
    t.isComplete = .ok (decide (t.watermark.reached = c.shared.tracker.total)) ∧
      (t.watermark.reached = c.shared.tracker.total ↔ stored) ∧
      (stored → ∀ abort, .died abort ∉ (c.after rules moves).workers) := by
  intro t stored
  have hafter := h.after hs moves
  have hresume : (c.after rules moves).shared.tracker.resume = _ := resume_after c moves
  have htotal : (c.after rules moves).shared.tracker.total = _ := total_after c moves
  have hrecorded := covered_stored_iff hstocked hfin c.shared.tracker.total
  rw [← hresume, ← htotal] at hle
  have hcovered := hafter.accounted.covered_iff hle c.shared.tracker.total
  have hreached := hafter.accounted.reached_le
  have hcomplete := hafter.accounted.isComplete_finished hfin hle (htotal ▸ hfit)
  have hnot := hafter.not_died
  rw [hresume, List.append_nil] at hcovered
  rw [htotal] at hreached hcomplete
  rw [hresume, htotal, List.append_nil] at hnot
  refine ⟨hcomplete, ?_, fun hcov => hnot (hrecorded.mp hcov)⟩
  show t.watermark.reached = _ ↔ Covered _ _ _
  rw [hrecorded, hcovered]
  exact ⟨fun heq => Nat.le_of_eq heq.symm, fun hle => Nat.le_antisymm hreached hle⟩

end Crew

end RangeTransfer
