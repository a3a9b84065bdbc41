import RangeTransfer.Proofs.Attempt.Counters
import RangeTransfer.Proofs.Attempt.Faithful
/-!
# The points that a crew passes

A transfer may be cut off at any point: between two moves of its workers, and inside a write, of
which the sink then has the first bytes. `Crew.points` lists what the workers share at each of them.
At all of them the sink holds what it held at the start, and right bytes up to the watermark; the
byte counter never decreases, and stands between its start and the watermark (`AtPoint`,
`pairwise_points`), which it has reached when all workers have finished (`Reports.bytes_eq`).
-/

namespace RangeTransfer

/-! ## Points -/

namespace Stage

/-- Length of the body that the worker is about to store. -/
def pending : Stage → Nat
  | holding _ (.part body) | holding _ (.whole body) => body.size
  | _ => 0

variable {ρ σ : Type} [RangeSink σ]

/-- What is shared while the worker stores the first `most` bytes of its body. -/
def partWay (a : Stage) (most : Nat) (x : Shared ρ σ) : List (Shared ρ σ) :=
  (List.range (min most a.pending)).map (a.storePart · x)

end Stage

namespace Crew

variable {ρ σ : Type} [RangeSink σ]

/-- What is shared inside a move. -/
def midway (c : Crew ρ σ) : Move → List (Shared ρ σ)
  | .advance w => (c.workers[w]?).elim [] fun a => a.partWay a.pending c.shared
  | .lose w stored | .refuse w stored _ _ =>
    (c.workers[w]?).elim [] fun a => a.partWay stored c.shared
  | .cancel => []

theorem mem_midway {c : Crew ρ σ} {m : Move} {x : Shared ρ σ} (h : x ∈ c.midway m) :
    ∃ (w : Nat) (a : Stage) (stored : Nat), c.workers[w]? = some a ∧
      x = a.storePart stored c.shared := by
  have hpart : ∀ {w : Nat} (most : Stage → Nat),
      x ∈ ((c.workers[w]?).elim [] fun a => a.partWay (most a) c.shared) →
      ∃ (w : Nat) (a : Stage) (stored : Nat), c.workers[w]? = some a ∧
        x = a.storePart stored c.shared := by
    intro w most hx
    cases hw : c.workers[w]? with
    | none =>
      rw [hw] at hx
      cases hx
    | some a =>
      rw [hw] at hx
      obtain ⟨stored, -, rfl⟩ := List.mem_map.mp hx
      exact ⟨w, a, stored, hw, rfl⟩
  cases m with
  | advance w => exact hpart Stage.pending h
  | cancel => cases h
  | lose w stored => exact hpart (fun _ => stored) h
  | refuse w stored path cause => exact hpart (fun _ => stored) h

variable [Remote ρ]

/-- What is shared at each point of a list of moves, in order. -/
def points (rules : WorkerRules) : Crew ρ σ → List Move → List (Shared ρ σ)
  | c, [] => [c.shared]
  | c, m :: moves => c.shared :: (c.midway m ++ points rules (c.apply rules m) moves)

variable {rules : WorkerRules} {c : Crew ρ σ}

theorem getLast?_points (moves : List Move) :
    (c.points rules moves).getLast? = some (c.after rules moves).shared := by
  induction moves generalizing c with
  | nil => rfl
  | cons m moves ih =>
    rw [points, List.getLast?_cons, List.getLast?_append, ih]
    rfl

/-- What every move preserves, and what follows from it between moves and inside of writes, is
true at every point. -/
theorem forall_points {I : Crew ρ σ → Prop} {P : Shared ρ σ → Prop}
    (hmove : ∀ c m, I c → I (c.apply rules m)) (hnow : ∀ c, I c → P c.shared)
    (hmid : ∀ c (w : Nat) a stored, I c → c.workers[w]? = some a → P (a.storePart stored c.shared))
    (hc : I c) (moves : List Move) : ∀ x ∈ c.points rules moves, P x := by
  induction moves generalizing c with
  | nil =>
    intro x hx
    rw [List.mem_singleton.mp hx]
    exact hnow c hc
  | cons m moves ih =>
    intro x hx
    rcases List.mem_cons.mp hx with rfl | hx
    · exact hnow c hc
    · rcases List.mem_append.mp hx with hx | hx
      · obtain ⟨w, a, stored, hw, rfl⟩ := mem_midway hx
        exact hmid c w a stored hc hw
      · exact ih (hmove c m hc) x hx

end Crew

/-! ## The byte counter -/

/-- The byte counter stands at `bytes`, the watermark at `reached`: the counter lies between its
start and the watermark, which it has not reached only while a worker is about to raise it there. -/
structure Reports (start : Nat) (ws : List Stage) (bytes reached : Nat) : Prop where
  start_le : start ≤ bytes
  bytes_le : bytes ≤ max start reached
  raise_le : ∀ a ∈ ws, ∀ n, a.raise? = some n → n ≤ reached
  pending : reached ≤ bytes ∨ ∃ a ∈ ws, a.raise? = some reached

namespace Reports

variable {start bytes reached reached' w : Nat} {ws : List Stage} {a a' : Stage}

theorem new (start n : Nat) {reached : Nat} (h : reached ≤ start) :
    Reports start (List.replicate n .seeking) start reached where
  start_le := Nat.le_refl _
  bytes_le := Nat.le_max_left _ _
  raise_le a ha n hn := by
    rw [List.eq_of_mem_replicate ha] at hn
    cases hn
  pending := Or.inl h

theorem bytes_eq (h : Reports start ws bytes reached) (hquiet : ∀ a ∈ ws, a.raise? = none) :
    bytes = max start reached := by
  have hstart := h.start_le
  have hle := h.bytes_le
  rcases h.pending with hreached | ⟨a, ha, hraise⟩
  · omega
  · rw [hquiet a ha] at hraise
    cases hraise

theorem swap (h : Reports start ws bytes reached) (hw : ws[w]? = some a)
    (hraise : a'.raise? = a.raise?) : Reports start (ws.set w a') bytes reached where
  start_le := h.start_le
  bytes_le := h.bytes_le
  raise_le b hb n hn := by
    rcases List.mem_or_eq_of_mem_set hb with hmem | rfl
    · exact h.raise_le b hmem n hn
    · exact h.raise_le a (List.mem_of_getElem? hw) n (hraise ▸ hn)
  pending := by
    refine h.pending.imp id fun ⟨b, hb, hpending⟩ => ?_
    obtain ⟨i, hi⟩ := List.mem_iff_getElem?.mp hb
    by_cases hiw : w = i
    · subst hiw
      obtain rfl : a = b := Option.some.inj (hw.symm.trans hi)
      exact ⟨a', List.mem_set (List.getElem?_eq_some_iff.mp hw).1 a', hraise ▸ hpending⟩
    · exact ⟨b, List.mem_of_getElem? ((List.getElem?_set_ne hiw).trans hi), hpending⟩

theorem mark (h : Reports start ws bytes reached) (hw : ws[w]? = some a)
    (hgrow : reached ≤ reached') (hraise : a'.raise? = some reached') :
    Reports start (ws.set w a') bytes reached' where
  start_le := h.start_le
  bytes_le := by
    have := h.bytes_le
    omega
  raise_le b hb n hn := by
    rcases List.mem_or_eq_of_mem_set hb with hmem | rfl
    · exact Nat.le_trans (h.raise_le b hmem n hn) hgrow
    · exact Nat.le_of_eq (Option.some.inj (hn.symm.trans hraise))
  pending := Or.inr ⟨a', List.mem_set (List.getElem?_eq_some_iff.mp hw).1 a', hraise⟩

theorem raise (h : Reports start ws bytes reached) (hw : ws[w]? = some a) {n : Nat}
    (ha : a.raise? = some n) (ha' : a'.raise? = none) :
    Reports start (ws.set w a') (max bytes n) reached where
  start_le := Nat.le_trans h.start_le (Nat.le_max_left _ _)
  bytes_le := by
    have := h.raise_le a (List.mem_of_getElem? hw) n ha
    have := h.bytes_le
    omega
  raise_le b hb m hm := by
    rcases List.mem_or_eq_of_mem_set hb with hmem | rfl
    · exact h.raise_le b hmem m hm
    · rw [ha'] at hm
      cases hm
  pending := by
    rcases h.pending with hle | ⟨b, hb, hpending⟩
    · exact Or.inl (by omega)
    · obtain ⟨i, hi⟩ := List.mem_iff_getElem?.mp hb
      by_cases hiw : w = i
      · subst hiw
        obtain rfl : a = b := Option.some.inj (hw.symm.trans hi)
        obtain rfl : n = reached := Option.some.inj (ha.symm.trans hpending)
        exact Or.inl (Nat.le_max_right _ _)
      · exact Or.inr ⟨b, List.mem_of_getElem? ((List.getElem?_set_ne hiw).trans hi), hpending⟩

theorem whole {total : Nat} (h : Reports start ws bytes reached) (hle : reached ≤ total)
    {ws' : List Stage} (hquiet : ∀ a ∈ ws', a.raise? = none) :
    Reports start ws' (max bytes total) total where
  start_le := Nat.le_trans h.start_le (Nat.le_max_left _ _)
  bytes_le := by
    have := h.bytes_le
    omega
  raise_le a ha n hn := by
    rw [hquiet a ha] at hn
    cases hn
  pending := Or.inl (Nat.le_max_right _ _)

end Reports

namespace Session

variable {ρ : Type}

theorem bytes_cancelIf (x : Session ρ) (raise : Bool) :
    (x.cancelIf raise).progress.bytes = x.progress.bytes := by
  cases raise <;> rfl

theorem bytes_ask [Remote ρ] (x : Session ρ) (q : Query) :
    (x.ask q).2.progress.bytes = x.progress.bytes := bytes_cancelIf _ _

end Session

theorem Stage.raise?_of_finished {a : Stage} (h : a.finished = true) : a.raise? = none := by
  cases a <;> first | rfl | cases h

variable {ρ σ : Type} [Remote ρ] [RangeSink σ] {rules : WorkerRules}

theorem Stage.Step.bytes_le {w : Nat} {a a' : Stage} {x x' : Shared ρ σ}
    (h : Step rules w x a a' x') : x.session.progress.bytes ≤ x'.session.progress.bytes := by
  obtain ⟨r, attempt, -, -, heq⟩ | ⟨-, heq | ⟨n, heq⟩⟩ := h.session
  · rw [heq]
    exact Nat.le_of_eq (Session.bytes_ask _ _).symm
  · exact Nat.le_of_eq (by rw [heq])
  · rw [heq]
    exact Progress.bytes_advanceTo _ _

theorem Reports.advance {start w : Nat} {ws : List Stage} {x x' : Shared ρ σ}
    {marked lost : List ByteRange} (hacc : Accounts ws x.tracker marked lost) {a a' : Stage}
    (hw : ws[w]? = some a) (hstep : Stage.Step rules w x a a' x')
    (h : Reports start ws x.session.progress.bytes x.tracker.watermark.reached) :
    Reports start (ws.set w a') x'.session.progress.bytes x'.tracker.watermark.reached := by
  cases hstep with
  | yield polls => cases polls <;> exact h.swap hw rfl
  | pause | fail | accept | crash =>
    show Reports start _ (x.ask w _).2.progress.bytes _
    rw [Shared.ask, Session.bytes_ask]
    exact h.swap hw rfl
  | @mark _ wm ok =>
    obtain ⟨_, hmark, hacc'⟩ := hacc.mark hw rfl rfl
    cases hmark.symm.trans ok
    have hgrow : x.tracker.watermark.reached ≤ wm.reached :=
      (hacc'.covered_iff _).mp (((hacc.covered_iff _).mpr (Nat.le_refl _)).cons _)
    exact h.mark hw hgrow rfl
  | raise => exact h.raise hw rfl rfl
  | whole ok =>
    obtain ⟨t', hlt, hwhole, -, htotal, -, -, hsettled⟩ :=
      hacc.recordWhole hw x.session.progress Tracker.statusWhole
    cases hwhole.symm.trans ok
    show Reports start _ (x.session.progress.advanceTo x.tracker.total).bytes _
    rw [hsettled.reached]
    exact h.whole hacc.reached_le fun a ha => Stage.raise?_of_finished (hsettled.finished a ha)
  | overrun overruns => exact absurd overruns (hacc.not_overruns hw)
  | _ => exact h.swap hw rfl

namespace Crew

variable {c : Crew ρ σ} {marked : List ByteRange} {start : Nat}

/-- The byte counter and the watermark of the crew. -/
def Reporting (start : Nat) (c : Crew ρ σ) : Prop :=
  Reports start c.workers c.shared.session.progress.bytes c.shared.tracker.watermark.reached

theorem Reporting.apply (hacc : c.Accounted marked) (h : c.Reporting start) (m : Move) :
    (c.apply rules m).Reporting start := by
  have hmoved := c.moved_apply rules m
  generalize c.apply rules m = c' at hmoved ⊢
  cases hmoved with
  | still | cancel => exact h
  | step hw hbusy hstep =>
    obtain ⟨lost, hacc⟩ := hacc.accounts hw hbusy
    exact Reports.advance hacc hw hstep h
  | lose hw hcall =>
    rw [Reporting, Stage.session_storePart, Stage.tracker_storePart]
    exact h.swap hw (by cases hcall <;> rfl)
  | refuse hw =>
    rw [Reporting, Stage.session_storePart, Stage.tracker_storePart]
    exact h.swap hw rfl

theorem bytes_le_apply (rules : WorkerRules) (c : Crew ρ σ) (m : Move) :
    c.shared.session.progress.bytes ≤ (c.apply rules m).shared.session.progress.bytes := by
  have hmoved := c.moved_apply rules m
  generalize c.apply rules m = c' at hmoved ⊢
  cases hmoved with
  | still | cancel => exact Nat.le_refl _
  | step _ _ hstep => exact hstep.bytes_le
  | lose | refuse => exact Nat.le_of_eq (by rw [Stage.session_storePart])

theorem bytes_le_after (rules : WorkerRules) (c : Crew ρ σ) (moves : List Move) :
    c.shared.session.progress.bytes ≤ (c.after rules moves).shared.session.progress.bytes := by
  induction moves generalizing c with
  | nil => exact Nat.le_refl _
  | cons m moves ih => exact Nat.le_trans (bytes_le_apply rules c m) (ih (c.apply rules m))

theorem pairwise_points (rules : WorkerRules) (c : Crew ρ σ) (moves : List Move) :
    (c.points rules moves).Pairwise fun x y =>
      x.session.progress.bytes ≤ y.session.progress.bytes := by
  have hlow : ∀ (moves : List Move) (c : Crew ρ σ), ∀ x ∈ c.points rules moves,
      c.shared.session.progress.bytes ≤ x.session.progress.bytes := fun moves c =>
    forall_points (I := fun c' : Crew ρ σ =>
        c.shared.session.progress.bytes ≤ c'.shared.session.progress.bytes)
      (fun c' m h => Nat.le_trans h (bytes_le_apply rules c' m)) (fun _ h => h)
      (fun c' w a stored h _ => by rw [Stage.session_storePart]; exact h) (Nat.le_refl _) moves
  have hmid : ∀ (c : Crew ρ σ) (m : Move), ∀ x ∈ c.midway m,
      x.session.progress.bytes = c.shared.session.progress.bytes := by
    intro c m x hx
    obtain ⟨w, a, stored, -, rfl⟩ := mem_midway hx
    rw [Stage.session_storePart]
  induction moves generalizing c with
  | nil => exact List.pairwise_singleton _ _
  | cons m moves ih =>
    have hnext := fun x hx => Nat.le_trans (bytes_le_apply rules c m)
      (hlow moves (c.apply rules m) x hx)
    refine List.pairwise_cons.mpr ⟨fun x hx => ?_, List.pairwise_append.mpr
      ⟨?_, ih (c.apply rules m), fun x hx y hy => ?_⟩⟩
    · rcases List.mem_append.mp hx with hx | hx
      · exact Nat.le_of_eq (hmid c m x hx).symm
      · exact hnext x hx
    · refine List.Pairwise.imp_of_mem (R := fun _ _ => True) (fun {x y} hx hy _ => ?_)
        (List.pairwise_of_forall fun _ _ => trivial)
      exact Nat.le_of_eq ((hmid c m x hx).trans (hmid c m y hy).symm)
    · rw [hmid c m x hx]
      exact hnext y hy

end Crew

/-! ## The sink -/

/-- What is true at a point of an attempt at the bytes from `resume` to `total` that started with
the sink `k₀` and the byte counter at `start`. -/
structure AtPoint {ρ : Type} (good : Nat → UInt8 → Prop) (start resume total : Nat) (k₀ : Sink)
    (x : Shared ρ Sink) : Prop where
  sound : x.sink.Sound
  follows : k₀.Follows total x.sink
  keeps : KeepsGood good k₀.byteAt x.sink.byteAt
  resume_le : resume ≤ x.tracker.watermark.reached
  reached_le : x.tracker.watermark.reached ≤ total
  bytes_le : x.session.progress.bytes ≤ max start x.tracker.watermark.reached
  right : Agrees good k₀.byteAt 0 resume →
    Agrees good x.sink.byteAt 0 x.tracker.watermark.reached

namespace Crew

variable {ρ : Type} {url : String} {good : Nat → UInt8 → Prop}
  {start resume total chunk : Nat} {rules : WorkerRules} {k₀ : Sink} {c : Crew ρ Sink}
  {marked : List ByteRange}

/-- The books, the bytes and the counter of a crew at work. -/
structure AtWork (url : String) (good : Nat → UInt8 → Prop) (start resume total : Nat)
    (rules : WorkerRules) (k₀ : Sink) (c : Crew ρ Sink) (marked : List ByteRange) : Prop where
  solitary : Solitary rules c
  accounted : c.Accounted marked
  faithful : c.Faithful url total good k₀ marked
  reporting : c.Reporting start
  resume_eq : c.shared.tracker.resume = resume
  resume_le : resume ≤ total

theorem atWork_new {x : Shared ρ Sink} (hs : x.sink.Sound)
    (htracker : x.tracker = .new url resume total chunk) (hle : resume ≤ total)
    (hfit : total < Offset.limit) (hstart : resume ≤ x.session.progress.bytes) {n : Nat}
    (hone : rules.acceptWhole = true → n = 1) :
    (new x n).AtWork url good x.session.progress.bytes resume total rules x.sink [] where
  solitary h := by
    rw [new, List.length_replicate]
    exact hone h
  accounted := accounted_new htracker hle hfit n
  faithful := faithful_new hs htracker n
  reporting := by
    show Reports _ _ _ x.tracker.watermark.reached
    rw [htracker]
    exact Reports.new _ n hstart
  resume_eq := by rw [new, htracker]; rfl
  resume_le := hle

theorem AtWork.atPoint (h : c.AtWork url good start resume total rules k₀ marked) :
    AtPoint good start resume total k₀ c.shared where
  sound := h.faithful.sound
  follows := h.faithful.follows
  keeps := h.faithful.keeps
  resume_le := by
    have hle := h.resume_le
    have hreached := h.accounted.resume_le
    rw [h.resume_eq, h.faithful.total_eq] at hreached
    omega
  reached_le := h.faithful.total_eq ▸ h.accounted.reached_le
  bytes_le := h.reporting.bytes_le
  right hright o _ ho := by
    have hle : c.shared.tracker.resume ≤ c.shared.tracker.total := by
      rw [h.resume_eq, h.faithful.total_eq]
      exact h.resume_le
    rcases (h.accounted.covered_iff hle _).mpr (Nat.le_refl _) o ho with
      hlow | ⟨r, hr, hfirst, hpast⟩
    · exact hright.keeps h.faithful.keeps o (Nat.zero_le o) (h.resume_eq ▸ hlow)
    · exact h.faithful.marked r hr o hfirst hpast

theorem AtWork.atPoint_storePart (h : c.AtWork url good start resume total rules k₀ marked)
    {w : Nat} {a : Stage} (hw : c.workers[w]? = some a) (stored : Nat) :
    AtPoint good start resume total k₀ (a.storePart stored c.shared) := by
  obtain ⟨hfollows, hkeeps⟩ := Stage.storePart_good
    (h.faithful.workers a (List.mem_of_getElem? hw)) h.faithful.sound stored
  have hpoint := h.atPoint
  refine ⟨hfollows.sound hpoint.sound, hpoint.follows.trans hfollows, hpoint.keeps.trans hkeeps,
    ?_, ?_, ?_, fun hright => ?_⟩ <;> rw [Stage.tracker_storePart]
  · exact hpoint.resume_le
  · exact hpoint.reached_le
  · rw [Stage.session_storePart]
    exact hpoint.bytes_le
  · exact (hpoint.right hright).keeps hkeeps

theorem AtWork.bytes_eq (h : c.AtWork url good start resume total rules k₀ marked)
    (hfin : c.finished = true) :
    c.shared.session.progress.bytes = max start c.shared.tracker.watermark.reached :=
  h.reporting.bytes_eq fun a ha => Stage.raise?_of_finished (List.all_eq_true.mp hfin a ha)

variable [Remote ρ]

theorem AtWork.apply (hserves : Serves ρ url total good)
    (h : c.AtWork url good start resume total rules k₀ marked) (m : Move) :
    (c.apply rules m).AtWork url good start resume total rules k₀
      ((c.records m).toList ++ marked) where
  solitary := h.solitary.apply m
  accounted := h.accounted.apply h.solitary m
  faithful := h.faithful.apply hserves h.accounted m
  reporting := h.reporting.apply h.accounted m
  resume_eq := by
    have htask : (c.apply rules m).shared.tracker.task = c.shared.tracker.task := task_apply c m
    exact (congrArg (·.2.1) htask).trans h.resume_eq
  resume_le := h.resume_le

theorem AtWork.after (hserves : Serves ρ url total good)
    (h : c.AtWork url good start resume total rules k₀ marked) (moves : List Move) :
    ∃ marked', (c.after rules moves).AtWork url good start resume total rules k₀ marked' := by
  induction moves generalizing c marked with
  | nil => exact ⟨marked, h⟩
  | cons m moves ih => exact ih (h.apply hserves m)

theorem AtWork.points (hserves : Serves ρ url total good)
    (h : c.AtWork url good start resume total rules k₀ marked) (moves : List Move) :
    ∀ x ∈ c.points rules moves, AtPoint good start resume total k₀ x :=
  forall_points
    (I := fun c => ∃ marked, c.AtWork url good start resume total rules k₀ marked)
    (fun _ m ⟨_, h⟩ => ⟨_, h.apply hserves m⟩) (fun _ ⟨_, h⟩ => h.atPoint)
    (fun _ _ _ stored ⟨_, h⟩ hw => h.atPoint_storePart hw stored) ⟨marked, h⟩ moves

end Crew

end RangeTransfer
