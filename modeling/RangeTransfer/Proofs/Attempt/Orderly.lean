import RangeTransfer.Proofs.Attempt.Points
/-!
# One worker alone writes in order

A worker that is alone fetches its ranges one after the other, and stops at the first that fails. So
it stores every range where the watermark stands (`Stage.InOrder`), nothing is ever stored behind a
gap, and a sink that held good bytes only never holds any others, not even inside a write
(`Crew.Orderly.points`).
-/

namespace RangeTransfer

/-! ## Good bytes only -/

/-- Whatever byte is there is good. -/
def Clean (good : Nat → UInt8 → Prop) (v : Nat → Option UInt8) : Prop :=
  ∀ o x, v o = some x → good o x

theorem Puts.clean {good : Nat → UInt8 → Prop} {v v' : Nat → Option UInt8} {a : Nat}
    {data : ByteArray} (h : Puts v v' a data) (hgood : GoodAt good a data)
    (hbelow : Agrees good v 0 a) (hclean : Clean good v) : Clean good v' := by
  intro o x hx
  have hput := h o
  split at hput
  · rename_i hin
    have := hgood (o - a) x (hput ▸ hx)
    rwa [Nat.add_sub_cancel' hin.1] at this
  · rcases hput with heq | ⟨hnone, -, hlt⟩
    · exact hclean o x (heq ▸ hx)
    · obtain ⟨y, hy, -⟩ := hbelow o (Nat.zero_le o) hlt
      rw [hnone] at hy
      cases hy

theorem Sink.clean_write {k : Sink} {good : Nat → UInt8 → Prop} {total offset : Nat}
    {data : ByteArray} (h : k.Sound) (hle : offset + data.size ≤ total)
    (hgood : GoodAt good offset data) (hbelow : Agrees good k.byteAt 0 offset)
    (hclean : Clean good k.byteAt) : Clean good (k.write offset data).2.byteAt := by
  obtain ⟨m, r, k', heq, -, -, -, hputs⟩ := Sink.write_spec h hle
  rw [heq]
  exact hputs.clean (hgood.extract m) hbelow hclean

/-! ## One worker -/

namespace Stage

/-- A worker that is alone stands where the watermark does: it has not handed out more than the
range it is busy with, and that one starts no later. -/
def InOrder (reached next : Nat) : Stage → Prop
  | seeking | marked _ _ | counted _ _ => next ≤ reached
  | claimed r | asking r _ | pausing r _ | holding r _ | written r =>
    r.first ≤ reached ∧ next ≤ r.pastEnd
  | failing _ _ | writtenWhole _ | stopped | died _ => True

variable {ρ σ : Type} [RangeSink σ]

variable [Remote ρ] {rules : WorkerRules} {w : Nat} {a a' : Stage} {x x' : Shared ρ σ}

theorem Step.sink_eq_storePart (h : Step rules w x a a' x') :
    x'.sink = (a.storePart a.pending x).sink := by
  cases h with
  | store | storeWhole => simp only [storePart, pending, ByteArray.extract_zero_size]
  | @refuse _ body | @breakOff _ body =>
    cases body <;> simp only [Accepted.write, storePart, pending, ByteArray.extract_zero_size]
  | yield polls => cases polls <;> rfl
  | overrun overruns => cases overruns <;> rfl
  | rest finished => cases a <;> cases finished <;> rfl
  | _ => rfl

theorem InOrder.step {recorded lost : List ByteRange} (hacc : Accounts [a] x.tracker recorded lost)
    (h : a.InOrder x.tracker.watermark.reached x.tracker.plan.next) (hstep : Step rules 0 x a a' x') :
    a'.InOrder x'.tracker.watermark.reached x'.tracker.plan.next := by
  cases hstep with
  | claim => exact ⟨h, Nat.le_of_eq (ByteRange.upTo_pastEnd _).symm⟩
  | start | again | pause | accept | store | count | raise | rest => exact h
  | @mark r wm ok =>
    obtain ⟨_, hmark, hacc'⟩ := hacc.mark (w := 0) rfl rfl rfl
    cases hmark.symm.trans ok
    -- everything below the range was there, so the watermark gets to its end
    refine Nat.le_trans h.2 ((hacc'.covered_iff r.pastEnd).mp fun o ho => ?_)
    by_cases hlow : o < r.first
    · exact ((hacc.covered_iff _).mpr (Nat.le_refl _)).cons r o (Nat.lt_of_lt_of_le hlow h.1)
    · exact Or.inr ⟨r, List.mem_cons_self, Nat.not_lt.mp hlow, ho⟩
  | _ => trivial

theorem clean_storePart {ρ : Type} {good : Nat → UInt8 → Prop} {total reached next : Nat} {a : Stage}
    {x : Shared ρ Sink} (h : a.InOrder reached next) (hs : x.sink.Sound)
    (hfaithful : a.Faithful good total x.sink.byteAt)
    (hright : Agrees good x.sink.byteAt 0 reached) (hclean : Clean good x.sink.byteAt)
    (stored : Nat) : Clean good (a.storePart stored x).sink.byteAt := by
  cases a with
  | holding r body =>
    cases body with
    | part body =>
      obtain ⟨hsize, hpast, hgood⟩ := hfaithful
      have hle : r.first + (body.extract 0 stored).size ≤ total := by
        rw [ByteArray.size_extract]
        omega
      exact Sink.clean_write hs hle (hgood.extract stored) (hright.mono (Nat.le_refl _) h.1) hclean
    | whole body =>
      obtain ⟨hsize, hgood⟩ := hfaithful
      have hle : 0 + (body.extract 0 stored).size ≤ total := by
        rw [ByteArray.size_extract]
        omega
      exact Sink.clean_write hs hle (hgood.extract stored)
        (fun o _ ho => absurd ho (Nat.not_lt_zero o)) hclean
  | _ => exact hclean

end Stage

/-! ## A crew of one -/

namespace Crew

variable {ρ : Type} {url : String} {good : Nat → UInt8 → Prop}
  {start resume total chunk : Nat} {rules : WorkerRules} {k₀ : Sink} {c : Crew ρ Sink}
  {marked : List ByteRange}

/-- A worker that is alone at work, with nothing but good bytes in its sink. -/
structure Orderly (url : String) (good : Nat → UInt8 → Prop) (start resume total : Nat)
    (rules : WorkerRules) (k₀ : Sink) (c : Crew ρ Sink) (marked : List ByteRange) : Prop where
  work : c.AtWork url good start resume total rules k₀ marked
  inOrder : ∃ a, c.workers = [a] ∧
    a.InOrder c.shared.tracker.watermark.reached c.shared.tracker.plan.next
  clean : Clean good c.shared.sink.byteAt

theorem Orderly.clean_storePart (hresumed : Agrees good k₀.byteAt 0 resume)
    (h : c.Orderly url good start resume total rules k₀ marked) {w : Nat} {a : Stage}
    (hw : c.workers[w]? = some a) (stored : Nat) :
    Clean good (a.storePart stored c.shared).sink.byteAt := by
  obtain ⟨a', ha, horder⟩ := h.inOrder
  have hmem := List.mem_of_getElem? hw
  obtain rfl : a = a' := List.mem_singleton.mp (ha ▸ hmem)
  exact Stage.clean_storePart horder h.work.faithful.sound (h.work.faithful.workers a hmem)
    (h.work.atPoint.right hresumed) h.clean stored

variable [Remote ρ]

theorem inOrder_apply {σ : Type} [RangeSink σ] {c : Crew ρ σ} {recorded : List ByteRange}
    (hacc : c.Accounted recorded)
    (h : ∃ a, c.workers = [a] ∧
      a.InOrder c.shared.tracker.watermark.reached c.shared.tracker.plan.next) (m : Move) :
    ∃ a, (c.apply rules m).workers = [a] ∧
      a.InOrder (c.apply rules m).shared.tracker.watermark.reached
        (c.apply rules m).shared.tracker.plan.next := by
  obtain ⟨a, ha, horder⟩ := h
  have hone : ∀ {w : Nat} {b : Stage} (a' : Stage), c.workers[w]? = some b →
      w = 0 ∧ b = a ∧ c.workers.set w a' = [a'] := by
    intro w b a' hw
    rw [ha] at hw ⊢
    cases w with
    | zero => exact ⟨rfl, (Option.some.inj hw).symm, rfl⟩
    | succ w => cases hw
  have hmoved := c.moved_apply rules m
  generalize c.apply rules m = c' at hmoved ⊢
  cases hmoved with
  | still | cancel => exact ⟨a, ha, horder⟩
  | @step _ _ a' _ hw hbusy hstep =>
    obtain ⟨lost, hacc⟩ := hacc.accounts hw hbusy
    obtain ⟨rfl, rfl, hset⟩ := hone a' hw
    exact ⟨a', hset, horder.step (ha ▸ hacc) hstep⟩
  | lose hw => exact ⟨_, (hone _ hw).2.2, trivial⟩
  | refuse hw => exact ⟨_, (hone _ hw).2.2, trivial⟩

theorem Orderly.apply (hserves : Serves ρ url total good) (hresumed : Agrees good k₀.byteAt 0 resume)
    (h : c.Orderly url good start resume total rules k₀ marked) (m : Move) :
    (c.apply rules m).Orderly url good start resume total rules k₀
      ((c.records m).toList ++ marked) := by
  refine ⟨h.work.apply hserves m, inOrder_apply h.work.accounted h.inOrder m, ?_⟩
  have hmoved := c.moved_apply rules m
  generalize c.apply rules m = c' at hmoved ⊢
  cases hmoved with
  | still | cancel => exact h.clean
  | step hw _ hstep =>
    show Clean good (_ : Shared ρ Sink).sink.byteAt
    rw [hstep.sink_eq_storePart]
    exact h.clean_storePart hresumed hw _
  | lose hw => exact h.clean_storePart hresumed hw _
  | refuse hw => exact h.clean_storePart hresumed hw _

omit [Remote ρ] in
theorem orderly_new {x : Shared ρ Sink} (hs : x.sink.Sound)
    (htracker : x.tracker = .new url resume total chunk) (hle : resume ≤ total)
    (hfit : total < Offset.limit) (hstart : resume ≤ x.session.progress.bytes)
    (hclean : Clean good x.sink.byteAt) :
    (new x 1).Orderly url good x.session.progress.bytes resume total rules x.sink [] where
  work := atWork_new hs htracker hle hfit hstart fun _ => rfl
  inOrder := ⟨.seeking, rfl, by
    show x.tracker.plan.next ≤ x.tracker.watermark.reached
    rw [htracker]
    exact Nat.le_refl _⟩
  clean := hclean

/-- A worker that is alone leaves good bytes only in its sink, at every point of its moves. -/
theorem Orderly.points (hserves : Serves ρ url total good)
    (hresumed : Agrees good k₀.byteAt 0 resume)
    (h : c.Orderly url good start resume total rules k₀ marked) (moves : List Move) :
    ∀ x ∈ c.points rules moves, Clean good x.sink.byteAt :=
  forall_points
    (I := fun c => ∃ marked, c.Orderly url good start resume total rules k₀ marked)
    (fun _ m ⟨_, h⟩ => ⟨_, h.apply hserves hresumed m⟩) (fun _ ⟨_, h⟩ => h.clean)
    (fun _ _ _ stored ⟨_, h⟩ hw => h.clean_storePart hresumed hw stored) ⟨marked, h⟩ moves

end Crew

end RangeTransfer
