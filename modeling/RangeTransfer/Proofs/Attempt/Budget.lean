import RangeTransfer.Proofs.Attempt.Journal
/-!
# How often a range is asked for

A range is in the hands of one worker at a time and comes back to no plan, and the worker that has it
counts its requests. So whatever the remote answers and in whatever order the workers step, no range
is asked for more often than the policy allows (`Thrifty.after`), and all requests together are
bounded by the ranges of the plan (`Thrifty.length_le`, `Plan.length_ranges`).
-/

namespace RangeTransfer

theorem length_le_of_count_le {α : Type} [DecidableEq α] {xs ys : List α} {most : Nat}
    (hmem : ∀ x ∈ xs, x ∈ ys) (hcount : ∀ x, xs.count x ≤ most) : xs.length ≤ ys.length * most := by
  induction ys generalizing xs with
  | nil =>
    rw [List.eq_nil_iff_forall_not_mem.mpr fun x hx => nomatch hmem x hx]
    exact Nat.zero_le _
  | cons y ys ih =>
    have hsplit : xs.length = xs.count y + (xs.filter fun x => decide ¬(x == y) = true).length := by
      rw [← List.countP_eq_length_filter]
      exact List.length_eq_countP_add_countP (· == y)
    have hrest : (xs.filter fun x => decide ¬(x == y) = true).length ≤ ys.length * most := by
      refine ih (fun x hx => ?_) fun x =>
        Nat.le_trans (List.filter_sublist.count_le x) (hcount x)
      obtain ⟨hx, hne⟩ := List.mem_filter.mp hx
      rcases List.mem_cons.mp (hmem x hx) with rfl | hin
      · simp at hne
      · exact hin
    have hy := hcount y
    rw [List.length_cons, Nat.succ_mul]
    omega

namespace Stage

/-- The most requests that a worker has made for its range, where a range is asked for at most
`most` times. -/
def spent (most : Nat) : Stage → Nat
  | claimed _ => 0
  | asking _ attempt => attempt - 1
  | pausing _ attempt => attempt
  | _ => most

/-- The number of the request that the worker is at lies between one and `most`; a worker that waits
has another one to make. -/
def Counted (most : Nat) : Stage → Prop
  | asking _ attempt => 1 ≤ attempt ∧ attempt ≤ most
  | pausing _ attempt => 1 ≤ attempt ∧ attempt < most
  | _ => True

theorem spent_le {most : Nat} {a : Stage} (h : a.Counted most) : a.spent most ≤ most := by
  cases a <;> simp only [spent, Counted] at h ⊢ <;> omega

/-- What a step from `a` spends: the range in the hands of the worker, the plan `p`, and the range
that it asks for. -/
inductive Spends (most : Nat) (a : Stage) (p : Plan) : Stage → Plan → Option ByteRange → Prop
  | keep {a' : Stage} (range : a'.unmarked? = a.unmarked?) (le : a.spent most ≤ a'.spent most) :
      Spends most a p a' p none
  | drop {a' : Stage} (range : a'.unmarked? = none) : Spends most a p a' p none
  | exhaust {a' : Stage} (range : a'.unmarked? = none) : Spends most a p a' p.exhaust none
  | claim {a' : Stage} (lt : p.next < p.total)
      (range : a'.unmarked? = some (.upTo _ _ (Plan.lt_nextEnd lt))) : Spends most a p a' p.rest none
  | ask {a' : Stage} {r : ByteRange} (range : a.unmarked? = some r) (lt : a.spent most < most)
      (next : a'.unmarked? = none ∨ a'.unmarked? = some r ∧ a.spent most < a'.spent most) :
      Spends most a p a' p (some r)

variable {ρ σ : Type} [Remote ρ] [RangeSink σ] {rules : WorkerRules} {w : Nat} {a a' : Stage}
  {x x' : Shared ρ σ}

theorem Step.counted (hstep : Step rules w x a a' x')
    (h : a.Counted (max rules.policy.rangeAttempts 1)) :
    a'.Counted (max rules.policy.rangeAttempts 1) := by
  cases hstep with
  | start => exact ⟨Nat.le_refl 1, Nat.le_max_right _ _⟩
  | again => exact ⟨Nat.le_add_left 1 _, h.2⟩
  | pause _ _ more => exact ⟨h.1, more⟩
  | rest => exact h
  | _ => trivial

theorem Step.spends (hstep : Step rules w x a a' x')
    (h : a.Counted (max rules.policy.rangeAttempts 1)) :
    a.Spends (max rules.policy.rangeAttempts 1) x.tracker.plan a' x'.tracker.plan
      (a.asks x.session.cancelled) := by
  -- a request that the worker is to make is one more than it has made
  have hnext : ∀ {attempt : Nat}, 1 ≤ attempt → attempt - 1 < attempt := fun hpos => by omega
  cases hstep with
  | claim _ lt => exact .claim lt rfl
  | yield polls up =>
    rw [up]
    cases polls <;> exact .keep rfl (spent_le h)
  | start => exact .keep rfl (Nat.zero_le _)
  | again => exact .keep rfl (Nat.le_refl _)
  | pause down _ more =>
    rw [down]
    exact .ask rfl (Nat.lt_of_lt_of_le (hnext h.1) h.2) (Or.inr ⟨rfl, hnext h.1⟩)
  | fail down | accept down =>
    have hlt := Nat.lt_of_lt_of_le (hnext h.1) h.2
    rw [down]
    exact .ask rfl hlt (Or.inr ⟨rfl, hlt⟩)
  | crash down =>
    rw [down]
    exact .ask rfl (Nat.lt_of_lt_of_le (hnext h.1) h.2) (Or.inl rfl)
  | store | storeWhole | refuse => exact .keep rfl (Nat.le_refl _)
  | whole => exact .exhaust rfl
  | overrun overruns => cases overruns <;> exact .drop rfl
  | rest finished => cases a <;> cases finished <;> exact .drop rfl
  | _ => exact .drop rfl

end Stage

/-! ## The requests of a crew -/

/-- The workers of `ws` and those before them have made the requests of `asked`, none for a range
that `plan` has left, and none too many for a range that a worker still has in hand. -/
structure Thrifty (most : Nat) (ws : List Stage) (plan : Plan) (planned asked : List ByteRange) :
    Prop where
  counted : ∀ a ∈ ws, a.Counted most
  spent : ∀ a ∈ ws, ∀ r, a.unmarked? = some r → asked.count r ≤ a.spent most
  fresh : ∀ r ∈ plan.ranges, r ∉ asked
  count_le : ∀ r, asked.count r ≤ most
  planned : ∀ r ∈ asked, r ∈ planned

theorem Accounts.unmarked_inj {ws : List Stage} {t : Tracker} {marked lost : List ByteRange}
    (h : Accounts ws t marked lost) {v w : Nat} {a b : Stage} {r : ByteRange}
    (hv : ws[v]? = some a) (hw : ws[w]? = some b) (ha : a.unmarked? = some r)
    (hb : b.unmarked? = some r) : v = w := by
  have hself : ∀ r : ByteRange, ¬ r.Apart r := fun r hr => hr.not_has r.has_first r.has_first
  have hapart := (List.pairwise_append.mp (List.pairwise_append.mp h.pairwise_apart).1).1
  rw [List.pairwise_filterMap, List.pairwise_iff_getElem] at hapart
  obtain ⟨hvlt, rfl⟩ := List.getElem?_eq_some_iff.mp hv
  obtain ⟨hwlt, rfl⟩ := List.getElem?_eq_some_iff.mp hw
  rcases Nat.lt_trichotomy v w with hlt | heq | hlt
  · exact absurd (hapart v w hvlt hwlt hlt r ha r hb) (hself r)
  · exact heq
  · exact absurd (hapart w v hwlt hvlt hlt r hb r ha) (hself r)

namespace Thrifty

variable {most : Nat} {ws : List Stage} {plan plan' : Plan} {planned asked : List ByteRange}

theorem length_le (h : Thrifty most ws plan planned asked) : asked.length ≤ planned.length * most :=
  length_le_of_count_le h.planned h.count_le

variable {w : Nat} {a a' : Stage}

theorem keep (h : Thrifty most ws plan planned asked) (hw : ws[w]? = some a)
    (hcounted : a'.Counted most) (hplan : ∀ r ∈ plan'.ranges, r ∈ plan.ranges)
    (hrange : a'.unmarked? = none ∨ a'.unmarked? = a.unmarked? ∧ a.spent most ≤ a'.spent most) :
    Thrifty most (ws.set w a') plan' planned asked := by
  refine ⟨fun b hb => ?_, fun b hb r hr => ?_, fun r hr => h.fresh r (hplan r hr), h.count_le,
    h.planned⟩
  · exact (List.mem_or_eq_of_mem_set hb).elim (h.counted b) fun heq => heq ▸ hcounted
  · rcases List.mem_or_eq_of_mem_set hb with hmem | rfl
    · exact h.spent b hmem r hr
    · rcases hrange with hnone | ⟨hsame, hle⟩
      · rw [hnone] at hr
        cases hr
      · exact Nat.le_trans (h.spent a (List.mem_of_getElem? hw) r (hsame ▸ hr)) hle

theorem claim (h : Thrifty most ws plan planned asked) (hfit : plan.total < Offset.limit)
    (hcounted : a'.Counted most) (hlt : plan.next < plan.total)
    (hrange : a'.unmarked? = some (.upTo _ _ (Plan.lt_nextEnd hlt))) :
    Thrifty most (ws.set w a') plan.rest planned asked := by
  have hranges := Plan.ranges_of_lt hlt hfit
  refine ⟨fun b hb => ?_, fun b hb r hr => ?_, fun r hr => h.fresh r ?_, h.count_le, h.planned⟩
  · exact (List.mem_or_eq_of_mem_set hb).elim (h.counted b) fun heq => heq ▸ hcounted
  · rcases List.mem_or_eq_of_mem_set hb with hmem | rfl
    · exact h.spent b hmem r hr
    · obtain rfl : _ = r := Option.some.inj (hrange.symm.trans hr)
      rw [List.count_eq_zero_of_not_mem (h.fresh _ (hranges ▸ List.mem_cons_self))]
      exact Nat.zero_le _
  · rw [hranges]
    exact List.mem_cons_of_mem _ hr

theorem ask {t : Tracker} {marked lost : List ByteRange} (hacc : Accounts ws t marked lost)
    (h : Thrifty most ws t.plan t.planned asked) (hw : ws[w]? = some a) (hcounted : a'.Counted most)
    {r : ByteRange} (hr : a.unmarked? = some r) (hlt : a.spent most < most)
    (hnext : a'.unmarked? = none ∨ a'.unmarked? = some r ∧ a.spent most < a'.spent most) :
    Thrifty most (ws.set w a') t.plan t.planned (r :: asked) := by
  have hmem : r ∈ ws.filterMap Stage.unmarked? ++ marked ++ lost :=
    Stage.mem_handed (List.mem_of_getElem? hw) hr
  have hspent := h.spent a (List.mem_of_getElem? hw) r hr
  refine ⟨fun b hb => ?_, fun b hb q hq => ?_, fun q hq hin => ?_, fun q => ?_, fun q hq => ?_⟩
  · exact (List.mem_or_eq_of_mem_set hb).elim (h.counted b) fun heq => heq ▸ hcounted
  · obtain ⟨v, hv⟩ := List.mem_iff_getElem?.mp hb
    by_cases hvw : v = w
    · subst hvw
      obtain ⟨hi, -⟩ := List.getElem?_eq_some_iff.mp hw
      obtain rfl : a' = b := Option.some.inj ((List.getElem?_set_self hi).symm.trans hv)
      rcases hnext with hnone | ⟨hsame, hless⟩
      · rw [hnone] at hq
        cases hq
      · obtain rfl : r = q := Option.some.inj (hsame.symm.trans hq)
        rw [List.count_cons_self]
        omega
    · -- the range of another worker is another range
      rw [List.getElem?_set_ne (Ne.symm hvw)] at hv
      have hne : r ≠ q := fun heq => hvw (hacc.unmarked_inj hv hw hq (heq ▸ hr))
      rw [List.count_cons_of_ne hne]
      exact h.spent b (List.mem_of_getElem? hv) q hq
  · rcases List.mem_cons.mp hin with rfl | hin
    · have := hacc.pastEnd_le_first hmem hq
      have := q.first_lt_pastEnd
      omega
    · exact h.fresh q hq hin
  · by_cases heq : r = q
    · subst heq
      rw [List.count_cons_self]
      omega
    · rw [List.count_cons_of_ne heq]
      exact h.count_le q
  · rcases List.mem_cons.mp hq with rfl | hin
    · exact hacc.mem_planned hmem
    · exact h.planned q hin

theorem spends {t : Tracker} {marked lost : List ByteRange} (hacc : Accounts ws t marked lost)
    (h : Thrifty most ws t.plan t.planned asked) (hw : ws[w]? = some a) (hcounted : a'.Counted most)
    {range : Option ByteRange} (hspends : a.Spends most t.plan a' plan' range) :
    Thrifty most (ws.set w a') plan' t.planned (range.toList ++ asked) := by
  cases hspends with
  | keep hrange hle => exact h.keep hw hcounted (fun _ => id) (Or.inr ⟨hrange, hle⟩)
  | drop hrange => exact h.keep hw hcounted (fun _ => id) (Or.inl hrange)
  | exhaust hrange =>
    refine h.keep hw hcounted (fun r hr => ?_) (Or.inl hrange)
    rw [Plan.ranges_of_le (Nat.le_max_right _ _)] at hr
    cases hr
  | claim hlt hrange => exact h.claim (hacc.plan_total ▸ hacc.fits) hcounted hlt hrange
  | ask hrange hlt hnext => exact ask hacc h hw hcounted hrange hlt hnext

end Thrifty

namespace Crew

variable {ρ σ : Type} {c : Crew ρ σ} {rules : WorkerRules} {marked asked : List ByteRange}

/-- The crew has made the requests of `asked`, none of them too many. -/
def Thrifty (rules : WorkerRules) (c : Crew ρ σ) (asked : List ByteRange) : Prop :=
  RangeTransfer.Thrifty (max rules.policy.rangeAttempts 1) c.workers c.shared.tracker.plan
    c.shared.tracker.planned asked

theorem thrifty_new (rules : WorkerRules) (x : Shared ρ σ) (n : Nat) :
    (new x n).Thrifty rules [] where
  counted a ha := by rw [List.eq_of_mem_replicate ha]; trivial
  spent a ha r hr := by rw [List.eq_of_mem_replicate ha] at hr; cases hr
  fresh r _ := List.not_mem_nil
  count_le r := Nat.zero_le _
  planned r hr := nomatch hr

variable [Remote ρ] [RangeSink σ]

theorem Thrifty.apply (hacc : c.Accounted marked) (h : c.Thrifty rules asked) (m : Move) :
    (c.apply rules m).Thrifty rules ((c.asks m).toList ++ asked) := by
  have hmoved := c.moved_apply rules m
  generalize c.apply rules m = c' at hmoved ⊢
  cases hmoved with
  | still idle =>
    rw [asks_of_idle idle]
    exact h
  | step hw hbusy hstep =>
    obtain ⟨lost, hacc⟩ := hacc.accounts hw hbusy
    have hcounted := h.counted _ (List.mem_of_getElem? hw)
    rw [Thrifty, Tracker.planned_eq_of_task hstep.task, asks_advance hw]
    exact RangeTransfer.Thrifty.spends hacc h hw (hstep.counted hcounted) (hstep.spends hcounted)
  | cancel => exact h
  | lose hw =>
    rw [Thrifty, Stage.tracker_storePart]
    exact h.keep hw trivial (fun _ => id) (Or.inl rfl)
  | refuse hw =>
    rw [Thrifty, Stage.tracker_storePart]
    exact h.keep hw trivial (fun _ => id) (Or.inr ⟨rfl, Nat.le_refl _⟩)

theorem Thrifty.after (hs : Solitary rules c) (hacc : c.Accounted marked) (h : c.Thrifty rules asked)
    (moves : List Move) : (c.after rules moves).Thrifty rules (c.asked rules moves ++ asked) := by
  induction moves generalizing c marked asked with
  | nil => exact h
  | cons m moves ih =>
    have hrest := ih (hs.apply m) (hacc.apply hs m) (h.apply hacc m)
    rwa [← List.append_assoc] at hrest

end Crew

end RangeTransfer
