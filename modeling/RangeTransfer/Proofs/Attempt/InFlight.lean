import RangeTransfer.Proofs.Attempt.Moves
/-!
# Ranges in flight

A worker claims a range, and claims another one only after it has accounted for that: of the ranges
that it claimed, all but the last one at most are accounted for (`claimed_eq`). So the ranges in
flight, which running workers have claimed and not accounted for, are at most as many as there are
workers. Each of them is at most a chunk long, and together with what the plan has left they are no
longer than what was missing (`Window`): each range that comes into flight comes off the plan.
-/

namespace RangeTransfer

/-! ## One worker -/

namespace Stage

/-- The range that a worker claims when it steps from one stage to another. -/
def claims : Stage → Stage → Option ByteRange
  | seeking, claimed r => some r
  | _, _ => none

/-- The range for which a worker has accounted when it has stepped from one stage to another. -/
def completes : Stage → Stage → Option ByteRange
  | counted r _, seeking | writtenWhole r, stopped => some r
  | _, _ => none

/-- `held` is the range in the hands of the worker, or the one it had when it finished. -/
def Holds (a : Stage) (held : Option ByteRange) : Prop := a.finished = false → held = a.range?

/-- From `a`, in which the worker holds `held`, to `a'` the claimed ranges are the completed ones
and the one that it then holds. -/
def Balanced (a : Stage) (held : Option ByteRange) (a' : Stage) : Prop :=
  ∃ held', a'.Holds held' ∧
    held.toList ++ (a.claims a').toList = (a.completes a').toList ++ held'.toList

variable {a a' : Stage} {held : Option ByteRange}

theorem claims_of_range (h : a.range?.isSome) : a.claims a' = none := by
  cases a <;> first | rfl | cases h

theorem completes_of_range (h : a'.range?.isSome) : a.completes a' = none := by
  cases a' <;> first | (cases a <;> rfl) | cases h

theorem Balanced.keep {r : ByteRange} (h : a.Holds held) (hfin : a.finished = false)
    (hr : a.range? = some r) (hr' : a'.range? = some r) : a.Balanced held a' := by
  refine ⟨held, fun _ => (h hfin).trans (hr.trans hr'.symm), ?_⟩
  rw [claims_of_range (by rw [hr]; rfl), completes_of_range (by rw [hr']; rfl)]
  exact List.append_nil _

theorem Balanced.finish (hclaims : a.claims a' = none) (hcompletes : a.completes a' = none)
    (hfin : a'.finished = true) : a.Balanced held a' := by
  refine ⟨held, fun h => ?_, ?_⟩
  · rw [hfin] at h
    cases h
  · rw [hclaims, hcompletes]
    exact List.append_nil _

theorem Balanced.stay (h : a.Holds held) : a.Balanced held a := by
  have hclaims : a.claims a = none := by cases a <;> rfl
  have hcompletes : a.completes a = none := by cases a <;> rfl
  refine ⟨held, h, ?_⟩
  rw [hclaims, hcompletes]
  exact List.append_nil _

variable {ρ σ : Type} [Remote ρ] [RangeSink σ] {rules : WorkerRules} {w : Nat} {x x' : Shared ρ σ}

theorem Step.balanced (hstep : Step rules w x a a' x') (h : a.Holds held) : a.Balanced held a' := by
  cases hstep with
  | claim =>
    obtain rfl : held = none := h rfl
    exact ⟨_, fun _ => rfl, rfl⟩
  | yield polls => cases polls <;> exact .keep h rfl rfl rfl
  | @raise r =>
    obtain rfl : held = some r := h rfl
    exact ⟨none, fun _ => rfl, rfl⟩
  | @whole r =>
    obtain rfl : held = some r := h rfl
    exact ⟨none, fun hfin => Bool.noConfusion hfin, rfl⟩
  | idle | crash | breakOff | record => exact .finish rfl rfl rfl
  | overrun overruns => cases overruns <;> exact .finish rfl rfl rfl
  | rest finished => cases a <;> cases finished <;> exact .finish rfl rfl rfl
  | _ => exact .keep h rfl rfl rfl

/-! ## Ranges and the plan -/

/-- How a step from `a` changes the range in the hands of the worker, and the plan `p`. -/
inductive Takes (a : Stage) (p : Plan) : Stage → Plan → Prop
  | keep {a' : Stage} (h : a'.range? = a.range?) : Takes a p a' p
  | drop {a' : Stage} (h : a'.range? = none) : Takes a p a' p
  | exhaust {a' : Stage} (h : a'.range? = none) : Takes a p a' p.exhaust
  | claim {a' : Stage} (h : a.range? = none) (hlt : p.next < p.total)
      (h' : a'.range? = some (.upTo _ _ (Plan.lt_nextEnd hlt))) : Takes a p a' p.rest

theorem Step.takes (h : Step rules w x a a' x') :
    a.Takes x.tracker.plan a' x'.tracker.plan := by
  cases h with
  | claim _ lt => exact .claim rfl lt rfl
  | whole => exact .exhaust rfl
  | yield polls => cases polls <;> exact .keep rfl
  | crash | breakOff | raise | record | overrun => exact .drop rfl
  | _ => exact .keep rfl

end Stage

/-- The ranges that the workers of `ws` hold are short, and with what `plan` has left they make at
most `missing` bytes. -/
structure Window (ws : List Stage) (plan : Plan) (missing : Nat) : Prop where
  fits : plan.total < Offset.limit
  each : ∀ r ∈ ws.filterMap Stage.range?, r.length ≤ plan.chunk
  all : totalLength (ws.filterMap Stage.range?) + plan.remaining ≤ missing

namespace Window

variable {ws : List Stage} {plan plan' : Plan} {missing w : Nat} {a a' : Stage}

theorem keep (h : Window ws plan missing) (hw : ws[w]? = some a)
    (hrange : a'.range? = a.range? ∨ a'.range? = none) : Window (ws.set w a') plan missing := by
  obtain ⟨rest, hperm, hperm'⟩ := filterMap_set_perm Stage.range? hw a'
  have hall := h.all
  have hsum := totalLength_perm hperm
  have hsum' := totalLength_perm hperm'
  rw [totalLength_append] at hsum hsum'
  have hle : totalLength a'.range?.toList ≤ totalLength a.range?.toList := by
    rcases hrange with heq | hnone
    · exact Nat.le_of_eq (by rw [heq])
    · rw [hnone]; exact Nat.zero_le _
  refine ⟨h.fits, fun r hr => h.each r ?_, by omega⟩
  refine hperm.mem_iff.mpr (List.mem_append.mpr ((List.mem_append.mp
    (hperm'.mem_iff.mp hr)).imp_left fun hr => ?_))
  rcases hrange with heq | hnone
  · rwa [heq] at hr
  · rw [hnone] at hr; cases hr

theorem exhaust (h : Window ws plan missing) : Window ws plan.exhaust missing := by
  have hall := h.all
  have hnone : plan.exhaust.remaining = 0 := by
    simp only [Plan.remaining, Plan.exhaust]; omega
  exact ⟨h.fits, h.each, by omega⟩

theorem claim (h : Window ws plan missing) (hw : ws[w]? = some a) (hnone : a.range? = none)
    (hlt : plan.next < plan.total) (hsome : a'.range? = some (.upTo _ _ (Plan.lt_nextEnd hlt))) :
    Window (ws.set w a') plan.rest missing := by
  obtain ⟨rest, hperm, hperm'⟩ := filterMap_set_perm Stage.range? hw a'
  rw [hnone] at hperm
  rw [hsome] at hperm'
  have hlength : (ByteRange.upTo _ _ (Plan.lt_nextEnd hlt)).length = plan.nextEnd - plan.next := by
    rw [ByteRange.length_eq, ByteRange.upTo_pastEnd, ByteRange.upTo_first]
  have hend := Plan.lt_nextEnd hlt
  have htotal : plan.nextEnd ≤ plan.total := Nat.min_le_right _ _
  have hchunk : plan.nextEnd ≤ plan.next + plan.chunk := Nat.min_le_left _ _
  refine ⟨h.fits, fun r hr => ?_, ?_⟩
  · show r.length ≤ plan.chunk
    rcases List.mem_append.mp (hperm'.mem_iff.mp hr) with hr | hr
    · obtain rfl : r = _ := List.mem_singleton.mp hr
      omega
    · exact h.each r (hperm.mem_iff.mpr hr)
  · have hall := h.all
    rw [totalLength_perm hperm] at hall
    rw [totalLength_perm hperm']
    simp only [Option.toList, List.nil_append, List.singleton_append, totalLength_cons, hlength,
      Plan.remaining, Plan.rest] at hall ⊢
    omega

theorem takes (h : Window ws plan missing) (hw : ws[w]? = some a)
    (htakes : a.Takes plan a' plan') : Window (ws.set w a') plan' missing := by
  cases htakes with
  | keep heq => exact h.keep hw (Or.inl heq)
  | drop hnone => exact h.keep hw (Or.inr hnone)
  | exhaust hnone => exact (h.keep hw (Or.inr hnone)).exhaust
  | claim hnone hlt hsome => exact h.claim hw hnone hlt hsome

end Window

/-! ## Crews -/

theorem totalLength_le_mul {rs : List ByteRange} {most : Nat} (h : ∀ r ∈ rs, r.length ≤ most) :
    totalLength rs ≤ rs.length * most := by
  induction rs with
  | nil => exact Nat.zero_le _
  | cons r rs ih =>
    have hr := h r List.mem_cons_self
    have hrs := ih fun q hq => h q (List.mem_cons_of_mem _ hq)
    rw [totalLength_cons, List.length_cons, Nat.succ_mul]
    omega

namespace Crew

variable {ρ σ : Type}

/-- The ranges that running workers have claimed and not accounted for. -/
def inFlight (c : Crew ρ σ) : List ByteRange := c.workers.filterMap Stage.range?

theorem totalLength_inFlight {c : Crew ρ σ} {missing : Nat}
    (h : Window c.workers c.shared.tracker.plan missing) :
    totalLength c.inFlight ≤ min (c.workers.length * c.shared.tracker.plan.chunk) missing := by
  have hmul : totalLength c.inFlight ≤ c.inFlight.length * c.shared.tracker.plan.chunk :=
    totalLength_le_mul h.each
  have hlength : c.inFlight.length ≤ c.workers.length := List.length_filterMap_le _ _
  have hall : totalLength c.inFlight + _ ≤ _ := h.all
  exact Nat.le_min.mpr ⟨Nat.le_trans hmul (Nat.mul_le_mul_right _ hlength), by omega⟩

theorem window_new {x : Shared ρ σ} {url : String} {resume total chunk : Nat}
    (htracker : x.tracker = .new url resume total chunk) (hfit : total < Offset.limit) (n : Nat) :
    Window (new x n).workers (new x n).shared.tracker.plan (total - resume) := by
  have hnone : (List.replicate n Stage.seeking).filterMap Stage.range? = [] := by
    rw [List.filterMap_replicate]; rfl
  show Window (List.replicate n .seeking) x.tracker.plan (total - resume)
  rw [htracker]
  refine ⟨hfit, fun r hr => ?_, ?_⟩
  · rw [hnone] at hr; cases hr
  · rw [hnone]
    exact Nat.le_of_eq (Nat.zero_add _)

variable [RangeSink σ] [Remote ρ] {rules : WorkerRules} {c : Crew ρ σ}

/-- What the steps of worker `w` from stage to stage tell, by `f`, during `moves`. -/
def history (rules : WorkerRules) (f : Stage → Stage → Option ByteRange) (w : Nat) :
    Crew ρ σ → List Move → List ByteRange
  | _, [] => []
  | c, m :: moves =>
    (c.workers[w]?.bind fun a => (c.apply rules m).workers[w]?.bind (f a)).toList ++
      history rules f w (c.apply rules m) moves

/-- The ranges that worker `w` claims, in order. -/
def claimed (rules : WorkerRules) (w : Nat) (c : Crew ρ σ) (moves : List Move) : List ByteRange :=
  c.history rules Stage.claims w moves

/-- The ranges for which worker `w` accounts, in order. -/
def completed (rules : WorkerRules) (w : Nat) (c : Crew ρ σ) (moves : List Move) :
    List ByteRange :=
  c.history rules Stage.completes w moves

theorem history_of_none (rules : WorkerRules) {w : Nat} (hw : c.workers[w]? = none)
    (f : Stage → Stage → Option ByteRange) (moves : List Move) :
    (c.after rules moves).workers[w]? = none ∧ c.history rules f w moves = [] := by
  induction moves generalizing c with
  | nil => exact ⟨hw, rfl⟩
  | cons m moves ih =>
    have hw' : (c.apply rules m).workers[w]? = none := by
      rw [List.getElem?_eq_none_iff] at hw ⊢
      rwa [length_workers_apply]
    obtain ⟨hnone, hhistory⟩ := ih hw'
    exact ⟨hnone, by rw [history, hw, hhistory]; rfl⟩

theorem balanced_apply (rules : WorkerRules) {w : Nat} {a : Stage} (hw : c.workers[w]? = some a)
    {held : Option ByteRange} (h : a.Holds held) (m : Move) :
    ∃ a', (c.apply rules m).workers[w]? = some a' ∧ a.Balanced held a' := by
  obtain ⟨a', hw', hchange⟩ := (c.moved_apply rules m).worker hw
  refine ⟨a', hw', ?_⟩
  obtain rfl | ⟨-, _, hstep⟩ | ⟨r, -, -, -, hcall, rfl⟩ | ⟨r, body, -, -, -, -, rfl, rfl⟩ := hchange
  · exact .stay h
  · exact hstep.balanced h
  · cases hcall <;> exact .finish rfl rfl rfl
  · exact .keep h rfl rfl rfl

/-- Of the ranges that a worker has claimed all but the one in its hands are accounted for. -/
theorem claimed_eq (rules : WorkerRules) {w : Nat} {a : Stage} (hw : c.workers[w]? = some a)
    {held : Option ByteRange} (h : a.Holds held) (moves : List Move) :
    ∃ a' held', (c.after rules moves).workers[w]? = some a' ∧ a'.Holds held' ∧
      held.toList ++ c.claimed rules w moves = c.completed rules w moves ++ held'.toList := by
  induction moves generalizing c a held with
  | nil => exact ⟨a, held, hw, h, List.append_nil _⟩
  | cons m moves ih =>
    obtain ⟨a₁, hw₁, held₁, h₁, hbalance⟩ := balanced_apply rules hw h m
    obtain ⟨a', held', hw', h', hrest⟩ := ih hw₁ h₁
    refine ⟨a', held', hw', h', ?_⟩
    simp only [claimed, completed, history, hw, hw₁, Option.bind_some] at hrest ⊢
    rw [← List.append_assoc, hbalance, List.append_assoc, hrest, List.append_assoc]

end Crew

theorem Window.apply {ρ σ : Type} [RangeSink σ] [Remote ρ] {rules : WorkerRules} {c : Crew ρ σ}
    {missing : Nat} (h : Window c.workers c.shared.tracker.plan missing) (m : Move) :
    Window (c.apply rules m).workers (c.apply rules m).shared.tracker.plan missing := by
  have hmoved := c.moved_apply rules m
  generalize c.apply rules m = c' at hmoved ⊢
  cases hmoved with
  | still | cancel => exact h
  | step hw _ hstep => exact h.takes hw hstep.takes
  | lose hw =>
    rw [Stage.tracker_storePart]
    exact h.keep hw (Or.inr rfl)
  | refuse hw =>
    rw [Stage.tracker_storePart]
    exact h.keep hw (Or.inl rfl)

theorem Window.after {ρ σ : Type} [RangeSink σ] [Remote ρ] {rules : WorkerRules} {c : Crew ρ σ}
    {missing : Nat} (h : Window c.workers c.shared.tracker.plan missing) (moves : List Move) :
    Window (c.after rules moves).workers (c.after rules moves).shared.tracker.plan missing := by
  induction moves generalizing c with
  | nil => exact h
  | cons m moves ih => exact ih (c := c.apply rules m) (h.apply m)

end RangeTransfer
