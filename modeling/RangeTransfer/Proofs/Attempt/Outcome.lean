import RangeTransfer.Proofs.Attempt.Finish
/-!
# What the books tell about the bytes

`Covered resume rs n`: every byte below `n` was there at the start or lies in a range of `rs`. The
watermark of an accounted crew is the greatest such offset for the ranges recorded so far
(`Accounted.covered_iff`). The byte counter says that the object is complete only if these ranges
cover it (`Accounted.covered_of_complete`), and when all workers have finished it says so exactly if
the watermark has reached the end (`Accounted.isComplete_finished`).
-/

namespace RangeTransfer

/-- Every byte below `n` lies below `resume` or in a range of `rs`. -/
def Covered (resume : Nat) (rs : List ByteRange) (n : Nat) : Prop :=
  ∀ o < n, o < resume ∨ ∃ r ∈ rs, r.Has o

theorem Covered.cons {resume n : Nat} {rs : List ByteRange} (h : Covered resume rs n)
    (r : ByteRange) : Covered resume (r :: rs) n := by
  intro o ho
  obtain hlow | ⟨q, hq, hqo⟩ := h o ho
  · exact Or.inl hlow
  · exact Or.inr ⟨q, List.mem_cons_of_mem _ hq, hqo⟩

theorem Tracker.isComplete_eq {t : Tracker} (hle : t.resume ≤ t.total)
    (hfit : t.total < Offset.limit) (hbound : t.completed ≤ t.total - t.resume)
    (hfull : t.completed = t.total - t.resume ↔ t.watermark.reached = t.total) :
    t.isComplete = .ok (decide (t.watermark.reached = t.total)) := by
  simp only [isComplete, writtenEnd, bind, Except.bind, pure, Except.pure,
    Offset.add_eq_ok (show t.resume + t.completed < Offset.limit by omega)]
  congr 1
  refine decide_eq_decide.mpr ⟨fun hend => hfull.mp (by omega), fun hend => ?_⟩
  have := hfull.mpr hend
  omega

namespace Accounts

variable {ws : List Stage} {t : Tracker} {marked lost : List ByteRange}

theorem reached_le (h : Accounts ws t marked lost) : t.watermark.reached ≤ t.total := by
  refine Nat.le_of_not_lt fun hlt => ?_
  obtain ⟨r, hr, -, hpast⟩ := h.watermark.reached_spec.1 t.total h.resume_le hlt
  have := (h.bounds (r := r) (by simp [hr])).2
  omega

theorem covered_iff (h : Accounts ws t marked lost) (m : Nat) :
    Covered t.resume marked m ↔ m ≤ t.watermark.reached := by
  obtain ⟨hbelow, hat⟩ := h.watermark.reached_spec
  have hresume := h.watermark.resume_le
  constructor
  · intro hcov
    refine Nat.le_of_not_lt fun hlt => ?_
    rcases hcov _ hlt with hlow | hin
    · omega
    · exact hat hin
  · intro hle o ho
    by_cases hlow : o < t.resume
    · exact Or.inl hlow
    · exact Or.inr (hbelow o (Nat.not_lt.mp hlow) (by omega))

theorem planned_perm (h : Accounts ws t marked []) (hidle : ws.filterMap Stage.unmarked? = [])
    (hdone : t.plan.total ≤ t.plan.next) : t.planned.Perm marked := by
  obtain ⟨handed, heq, hperm⟩ := h.handed
  rw [hidle, List.nil_append, List.append_nil] at hperm
  rwa [heq, Plan.ranges_of_le hdone, List.append_nil]

theorem reached_of_perm (h : Accounts ws t marked lost) (hperm : t.planned.Perm marked) :
    t.watermark.reached = t.total := by
  refine Nat.le_antisymm h.reached_le ((h.covered_iff _).mp fun o ho => ?_)
  by_cases hlow : o < t.resume
  · exact Or.inl hlow
  · obtain ⟨r, hr, hro⟩ := h.consecutive_planned.exists_has (Nat.not_lt.mp hlow) ho
    exact Or.inr ⟨r, hperm.mem_iff.mp hr, hro⟩

theorem totalLength_eq (h : Accounts ws t marked lost) :
    totalLength (ws.filterMap Stage.unmarked?) + totalLength marked + totalLength lost +
      totalLength t.plan.ranges = t.total - t.resume := by
  obtain ⟨handed, heq, hperm⟩ := h.handed
  have hall := h.consecutive_planned.totalLength_eq
  have hsplit := totalLength_perm hperm
  rw [heq, totalLength_append] at hall
  simp only [totalLength_append] at hsplit
  omega

theorem covered_of_length (h : Accounts ws t marked lost)
    (hlen : t.total - t.resume ≤ totalLength marked) : Covered t.resume marked t.total := by
  intro o ho
  by_cases hlow : o < t.resume
  · exact Or.inl hlow
  · right
    have hsum := h.totalLength_eq
    have hu : ws.filterMap Stage.unmarked? = [] := eq_nil_of_totalLength_eq_zero (by omega)
    have hl : lost = [] := eq_nil_of_totalLength_eq_zero (by omega)
    have hp : t.plan.ranges = [] := eq_nil_of_totalLength_eq_zero (by omega)
    obtain ⟨r, hr, hro⟩ := h.consecutive_planned.exists_has (Nat.not_lt.mp hlow) ho
    obtain ⟨handed, heq, hperm⟩ := h.handed
    rw [heq, hp, List.append_nil] at hr
    rw [hu, hl, List.nil_append, List.append_nil] at hperm
    exact ⟨r, hperm.mem_iff.mp hr, hro⟩

theorem length_of_covered (h : Accounts ws t marked lost)
    (hcov : Covered t.resume marked t.total) : totalLength marked = t.total - t.resume := by
  -- a range outside `marked` would have its first byte in a range of `marked`
  have hempty : ∀ r ∈ t.planned, (∀ q ∈ marked, r.Apart q) → False := by
    intro r hr hapart
    have hb := h.consecutive_planned.bounds hr
    rcases hcov r.first (Nat.lt_of_lt_of_le r.first_lt_pastEnd hb.2) with hlow | ⟨q, hq, hqo⟩
    · omega
    · exact (hapart q hq).not_has r.has_first hqo
  obtain ⟨handed, heq, hperm⟩ := h.handed
  have hplanned := h.consecutive_planned.pairwise_apart
  rw [heq] at hplanned
  have hhanded := h.pairwise_apart
  have hu : ws.filterMap Stage.unmarked? = [] := by
    refine List.eq_nil_iff_forall_not_mem.mpr fun r hr => ?_
    refine hempty r (h.mem_planned (by simp [hr])) fun q hq => ?_
    exact (List.pairwise_append.mp (List.pairwise_append.mp hhanded).1).2.2 r hr q hq
  have hl : lost = [] := by
    refine List.eq_nil_iff_forall_not_mem.mpr fun r hr => ?_
    refine hempty r (h.mem_planned (by simp [hr])) fun q hq => ?_
    exact ((List.pairwise_append.mp hhanded).2.2 q (by simp [hq]) r hr).symm
  have hp : t.plan.ranges = [] := by
    refine List.eq_nil_iff_forall_not_mem.mpr fun r hr => ?_
    refine hempty r (by rw [heq]; exact List.mem_append_right _ hr) fun q hq => ?_
    have hqh : q ∈ handed := hperm.mem_iff.mpr (by simp [hq])
    exact ((List.pairwise_append.mp hplanned).2.2 q hqh r hr).symm
  have := h.totalLength_eq
  rw [hu, hl, hp] at this
  simpa using this

theorem isComplete_eq (h : Accounts ws t marked lost) (hcount : t.completed = totalLength marked) :
    t.isComplete = .ok (decide (t.watermark.reached = t.total)) := by
  refine Tracker.isComplete_eq h.resume_le h.fits (hcount ▸ h.totalLength_marked_le)
    ⟨fun hfull => ?_, fun hend => ?_⟩
  · have := (h.covered_iff _).mp (h.covered_of_length (by omega))
    have := h.reached_le
    omega
  · rw [hcount]
    exact h.length_of_covered ((h.covered_iff _).mpr (Nat.le_of_eq hend.symm))

end Accounts

namespace Crew

variable {ρ σ : Type} {c : Crew ρ σ} {marked : List ByteRange}

theorem Accounted.resume_le (h : c.Accounted marked) :
    c.shared.tracker.resume ≤ c.shared.tracker.watermark.reached ∨
      c.shared.tracker.watermark.reached = c.shared.tracker.total := by
  rcases h with ⟨lost, h⟩ | h
  · exact Or.inl h.watermark.resume_le
  · exact Or.inr h.reached

theorem Accounted.reached_le (h : c.Accounted marked) :
    c.shared.tracker.watermark.reached ≤ c.shared.tracker.total := by
  rcases h with ⟨lost, h⟩ | h
  · exact h.reached_le
  · exact Nat.le_of_eq h.reached

/-- The watermark is the greatest offset below which all bytes are covered. -/
theorem Accounted.covered_iff (h : c.Accounted marked)
    (hle : c.shared.tracker.resume ≤ c.shared.tracker.total) (m : Nat) :
    Covered c.shared.tracker.resume marked m ↔ m ≤ c.shared.tracker.watermark.reached := by
  rcases h with ⟨lost, h⟩ | h
  · exact h.covered_iff m
  · rw [h.reached]
    constructor
    · intro hcov
      refine Nat.le_of_not_lt fun hlt => ?_
      rcases hcov _ hlt with hlow | ⟨r, hr, -, hpast⟩
      · omega
      · have := (h.bounds r hr).2
        omega
    · intro hle o ho
      by_cases hlow : o < c.shared.tracker.resume
      · exact Or.inl hlow
      · exact Or.inr (h.covers o (Nat.not_lt.mp hlow) (by omega))

theorem Accounted.covered_of_complete (h : c.Accounted marked)
    (hcomplete : c.shared.tracker.isComplete = .ok true) :
    Covered c.shared.tracker.resume marked c.shared.tracker.total := by
  have hend : c.shared.tracker.total ≤ c.shared.tracker.resume + c.shared.tracker.completed := by
    simp only [Tracker.isComplete, Tracker.writtenEnd, Offset.add, bind, Except.bind] at hcomplete
    split at hcomplete
    · cases hcomplete
    · rename_i v hv
      split at hv
      · cases hv
        exact of_decide_eq_true (by injection hcomplete)
      · cases hv
  rcases h with ⟨lost, h⟩ | h
  · have := h.count
    exact h.covered_of_length (by omega)
  · intro o ho
    by_cases hlow : o < c.shared.tracker.resume
    · exact Or.inl hlow
    · exact Or.inr (h.covers o (Nat.not_lt.mp hlow) ho)

theorem uncounted_of_finished (h : c.finished = true) :
    c.workers.filterMap Stage.uncounted? = [] ∧ c.workers.filterMap Stage.unmarked? = [] := by
  have hnone : ∀ a ∈ c.workers, a.uncounted? = none ∧ a.unmarked? = none := fun a ha => by
    have := List.all_eq_true.mp h a ha
    cases a <;> first | exact ⟨rfl, rfl⟩ | cases this
  exact ⟨List.filterMap_eq_nil_iff.mpr fun a ha => (hnone a ha).1,
    List.filterMap_eq_nil_iff.mpr fun a ha => (hnone a ha).2⟩

/-- Once all workers have finished, the byte counter and the watermark agree. -/
theorem Accounted.isComplete_finished (h : c.Accounted marked) (hfin : c.finished = true)
    (hle : c.shared.tracker.resume ≤ c.shared.tracker.total)
    (hfit : c.shared.tracker.total < Offset.limit) :
    c.shared.tracker.isComplete =
      .ok (decide (c.shared.tracker.watermark.reached = c.shared.tracker.total)) := by
  rcases h with ⟨lost, h⟩ | h
  · have hcount := h.count
    rw [(uncounted_of_finished hfin).1, totalLength_nil, Nat.add_zero] at hcount
    exact h.isComplete_eq hcount
  · exact Tracker.isComplete_eq hle hfit (Nat.le_of_eq h.completed)
      ⟨fun _ => h.reached, fun _ => h.completed⟩

end Crew

end RangeTransfer
