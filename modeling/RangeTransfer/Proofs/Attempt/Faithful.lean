import RangeTransfer.Proofs.Attempt.Outcome
import RangeTransfer.Proofs.Sink.Basic
import RangeTransfer.Proofs.Sink.Good
/-!
# The bytes of a crew

If every body that the remote gets accepted has good bytes only (`Serves`), the workers put good
bytes into the sink: what is good stays good, and every range that the crew has recorded is good
(`Faithful.after`), whichever workers stop, fail or die. A remote is `Truthful` if it serves the
bytes of the object.
-/

namespace RangeTransfer

/-- Every body that is accepted for a range of the object of `total` bytes at `url` is good. -/
def Serves (ρ : Type) [Remote ρ] (url : String) (total : Nat) (good : Nat → UInt8 → Prop) : Prop :=
  ∀ (m : ρ) (q : Query) (r : ByteRange) (response : Response) (acceptWhole : Bool),
    q.url = url → q.range = some r → r.pastEnd ≤ total →
    (Remote.get m q).1.answer = .response response →
    (∀ body, classify url r total response acceptWhole = .ok (.part body) → GoodAt good r.first body) ∧
    ∀ body, classify url r total response acceptWhole = .ok (.whole body) → GoodAt good 0 body

/-! ## Truthful remotes -/

/-- Every body that is accepted for a range of the object at `url` holds the bytes of that range, or
of the whole object if it is accepted as such. -/
def Truthful (ρ : Type) [Remote ρ] (url : String) (object : ByteArray) : Prop :=
  ∀ (m : ρ) (q : Query) (r : ByteRange) (response : Response) (acceptWhole : Bool),
    q.url = url → q.range = some r → r.pastEnd ≤ object.size →
    (Remote.get m q).1.answer = .response response →
    (∀ body, classify url r object.size response acceptWhole = .ok (.part body) →
      body = object.extract r.first r.pastEnd) ∧
    ∀ body, classify url r object.size response acceptWhole = .ok (.whole body) → body = object

theorem Truthful.serves {ρ : Type} [Remote ρ] {url : String} {object : ByteArray}
    (h : Truthful ρ url object) : Serves ρ url object.size (IsByte object) := by
  intro m q r response acceptWhole hurl hrange hpast hanswer
  obtain ⟨hpart, hwhole⟩ := h m q r response acceptWhole hurl hrange hpast hanswer
  refine ⟨fun body hbody => ?_, fun body hbody i x hx => ?_⟩
  · rw [hpart body hbody]
    exact goodAt_extract object _ _
  · rw [hwhole body hbody] at hx
    rwa [IsByte, Nat.zero_add]

theorem serves_any (ρ : Type) [Remote ρ] (url : String) (total : Nat) :
    Serves ρ url total fun _ _ => True :=
  fun _ _ _ _ _ _ _ _ _ => ⟨fun _ _ _ _ _ => trivial, fun _ _ _ _ _ => trivial⟩

/-! ## Workers -/

theorem Sink.write_good {k : Sink} {good : Nat → UInt8 → Prop} {total offset : Nat}
    {data : ByteArray} (h : k.Sound) (hle : offset + data.size ≤ total)
    (hgood : GoodAt good offset data) :
    k.Follows total (k.write offset data).2 ∧
      KeepsGood good k.byteAt (k.write offset data).2.byteAt ∧
      ((k.write offset data).1 = .ok () →
        Agrees good (k.write offset data).2.byteAt offset (offset + data.size)) := by
  obtain ⟨m, r, k', heq, hm, hall, hfollows, hputs⟩ := Sink.write_spec h hle
  rw [heq]
  refine ⟨hfollows, hputs.keepsGood (hgood.extract m), fun hr => ?_⟩
  have := hputs.agrees (hgood.extract m)
  rwa [hall hr, ByteArray.extract_zero_size] at this

/-- What the worker has in hand is good, and what it has stored is in `v`. -/
def Stage.Faithful (good : Nat → UInt8 → Prop) (total : Nat) (v : Nat → Option UInt8) : Stage → Prop
  | holding r (.part body) =>
    r.first + body.size = r.pastEnd ∧ r.pastEnd ≤ total ∧ GoodAt good r.first body
  | holding _ (.whole body) => body.size = total ∧ GoodAt good 0 body
  | written r => Agrees good v r.first r.pastEnd
  | writtenWhole _ => Agrees good v 0 total
  | _ => True

theorem Stage.Faithful.keeps {good : Nat → UInt8 → Prop} {total : Nat} {v v' : Nat → Option UInt8}
    {a : Stage} (h : a.Faithful good total v) (hkeeps : KeepsGood good v v') :
    a.Faithful good total v' := by
  cases a with
  | holding r body => cases body <;> exact h
  | written r => exact Agrees.keeps h hkeeps
  | writtenWhole r => exact Agrees.keeps h hkeeps
  | _ => trivial

theorem Stage.storePart_good {ρ : Type} {good : Nat → UInt8 → Prop} {total : Nat} {a : Stage}
    {x : Shared ρ Sink} (h : a.Faithful good total x.sink.byteAt) (hs : x.sink.Sound)
    (stored : Nat) :
    x.sink.Follows total (a.storePart stored x).sink ∧
      KeepsGood good x.sink.byteAt (a.storePart stored x).sink.byteAt := by
  have hpiece : ∀ {offset : Nat} {body : ByteArray}, offset + body.size ≤ total →
      GoodAt good offset body →
      x.sink.Follows total (x.sink.write offset (body.extract 0 stored)).2 ∧
        KeepsGood good x.sink.byteAt (x.sink.write offset (body.extract 0 stored)).2.byteAt := by
    intro offset body hle hgood
    obtain ⟨hfollows, hkeeps, -⟩ := Sink.write_good hs
      (show offset + (body.extract 0 stored).size ≤ total by rw [ByteArray.size_extract]; omega)
      (hgood.extract stored)
    exact ⟨hfollows, hkeeps⟩
  cases a with
  | holding r body =>
    cases body with
    | part body => exact hpiece (h.1 ▸ h.2.1) h.2.2
    | whole body => exact hpiece (by rw [h.1]; omega) h.2
  | _ => exact ⟨Sink.Follows.refl _ _, KeepsGood.refl _ _⟩

theorem Stage.Faithful.write_eq_ok {σ : Type} [RangeSink σ] {good : Nat → UInt8 → Prop} {total : Nat}
    {v : Nat → Option UInt8} {r : ByteRange} {body : Accepted} {k : σ}
    (h : (holding r body).Faithful good total v)
    (hwrites : ∀ offset data, offset + data.size ≤ total →
      (RangeSink.write k offset data).1 = .ok ()) : (body.write r k).1 = .ok () := by
  cases body with
  | part data => exact hwrites _ _ (h.1 ▸ h.2.1)
  | whole data => exact hwrites _ _ (by rw [Nat.zero_add]; exact Nat.le_of_eq h.1)

theorem Stage.Faithful.write_good {good : Nat → UInt8 → Prop} {total : Nat} {v : Nat → Option UInt8}
    {r : ByteRange} {body : Accepted} {k : Sink} (h : (holding r body).Faithful good total v)
    (hs : k.Sound) : k.Follows total (body.write r k).2 ∧
      KeepsGood good k.byteAt (body.write r k).2.byteAt := by
  cases body with
  | part data =>
    obtain ⟨hfollows, hkeeps, -⟩ := Sink.write_good hs (h.1 ▸ h.2.1) h.2.2
    exact ⟨hfollows, hkeeps⟩
  | whole data =>
    obtain ⟨hfollows, hkeeps, -⟩ := Sink.write_good hs
      (show 0 + data.size ≤ total by rw [h.1]; omega) h.2
    exact ⟨hfollows, hkeeps⟩

namespace Crew

variable {ρ : Type} {url : String} {total : Nat} {good : Nat → UInt8 → Prop} {k₀ : Sink}
  {c : Crew ρ Sink} {marked : List ByteRange}

/-- The sink of the crew holds what `k₀` held, and everything that the crew has recorded. -/
structure Faithful (url : String) (total : Nat) (good : Nat → UInt8 → Prop) (k₀ : Sink)
    (c : Crew ρ Sink) (marked : List ByteRange) : Prop where
  url_eq : c.shared.tracker.url = url
  total_eq : c.shared.tracker.total = total
  sound : c.shared.sink.Sound
  follows : k₀.Follows total c.shared.sink
  keeps : KeepsGood good k₀.byteAt c.shared.sink.byteAt
  workers : ∀ a ∈ c.workers, a.Faithful good total c.shared.sink.byteAt
  marked : ∀ r ∈ marked, Agrees good c.shared.sink.byteAt r.first r.pastEnd

theorem faithful_new {x : Shared ρ Sink} {resume chunk : Nat} (hs : x.sink.Sound)
    (htracker : x.tracker = .new url resume total chunk) (n : Nat) :
    (new x n).Faithful url total good x.sink [] where
  url_eq := by rw [new, htracker]; rfl
  total_eq := by rw [new, htracker]; rfl
  sound := hs
  follows := Sink.Follows.refl _ _
  keeps := KeepsGood.refl _ _
  workers a ha := by rw [List.eq_of_mem_replicate ha]; trivial
  marked := nofun

theorem Faithful.step (h : c.Faithful url total good k₀ marked) {w : Nat} {a' : Stage}
    {x : Shared ρ Sink} {recorded : List ByteRange}
    (htask : x.tracker.task = c.shared.tracker.task)
    (hfollows : c.shared.sink.Follows total x.sink)
    (hkeeps : KeepsGood good c.shared.sink.byteAt x.sink.byteAt)
    (ha' : a'.Faithful good total x.sink.byteAt)
    (hrecorded : ∀ r ∈ recorded, Agrees good x.sink.byteAt r.first r.pastEnd) :
    Faithful url total good k₀ ⟨x, c.workers.set w a'⟩ (recorded ++ marked) := by
  refine ⟨(Tracker.url_eq_of_task htask).trans h.url_eq,
    (Tracker.total_eq_of_task htask).trans h.total_eq, hfollows.sound h.sound,
    h.follows.trans hfollows, h.keeps.trans hkeeps, fun a ha => ?_, fun r hr => ?_⟩
  · rcases List.mem_or_eq_of_mem_set ha with hmem | rfl
    · exact (h.workers a hmem).keeps hkeeps
    · exact ha'
  · rcases List.mem_append.mp hr with hnew | hold
    · exact hrecorded r hnew
    · exact (h.marked r hold).keeps hkeeps

theorem Faithful.quiet (h : c.Faithful url total good k₀ marked) {w : Nat} {a' : Stage}
    {x : Shared ρ Sink} (htask : x.tracker.task = c.shared.tracker.task)
    (hfollows : c.shared.sink.Follows total x.sink)
    (hkeeps : KeepsGood good c.shared.sink.byteAt x.sink.byteAt)
    (ha' : a'.Faithful good total x.sink.byteAt) :
    Faithful url total good k₀ ⟨x, c.workers.set w a'⟩ marked := by
  have := h.step (w := w) htask hfollows hkeeps ha' (show ∀ r ∈ ([] : List ByteRange), _ from nofun)
  exact this

theorem Faithful.stop (h : c.Faithful url total good k₀ marked) {w : Nat} {a a' : Stage}
    (hw : c.workers[w]? = some a) (stored : Nat) (ha' : a'.Faithful good total
      (a.storePart stored c.shared).sink.byteAt) :
    Faithful url total good k₀ ⟨a.storePart stored c.shared, c.workers.set w a'⟩ marked := by
  obtain ⟨hfollows, hkeeps⟩ :=
    Stage.storePart_good (h.workers a (List.mem_of_getElem? hw)) h.sound stored
  exact h.quiet (by rw [Stage.tracker_storePart]) hfollows hkeeps ha'

variable [Remote ρ] {rules : WorkerRules}

theorem Faithful.advance (hserves : Serves ρ url total good) (h : c.Faithful url total good k₀ marked)
    (hacc : c.Accounted marked) {w : Nat} {a a' : Stage} {x' : Shared ρ Sink}
    (hw : c.workers[w]? = some a) (hstep : Stage.Step rules w c.shared a a' x') :
    Faithful url total good k₀ ⟨x', c.workers.set w a'⟩
      ((a.records c.shared.tracker).toList ++ marked) := by
  have ha := h.workers a (List.mem_of_getElem? hw)
  have hfollows := Sink.Follows.refl total c.shared.sink
  have hkeeps := KeepsGood.refl good c.shared.sink.byteAt
  cases hstep with
  | yield polls => cases polls <;> exact h.quiet rfl hfollows hkeeps trivial
  | @accept r _ response body _ _ answer accepted =>
    have hpast := (hacc.bounds hw rfl rfl).2
    rw [h.total_eq] at hpast accepted
    rw [h.url_eq] at accepted
    obtain ⟨hpart, hwhole⟩ := hserves c.shared.session.remote ⟨w, c.shared.tracker.url, some r⟩ r
      response rules.acceptWhole h.url_eq rfl hpast answer
    refine h.quiet rfl hfollows hkeeps ?_
    cases body with
    | part data => exact ⟨first_add_size_of_part accepted, hpast, hpart data accepted⟩
    | whole data => exact ⟨(classify_whole accepted).2.2.2, hwhole data accepted⟩
  | store stored =>
    obtain ⟨hsize, hpast, hgood⟩ := ha
    obtain ⟨hfollows, hkeeps, hagrees⟩ := Sink.write_good h.sound (hsize ▸ hpast) hgood
    rw [hsize] at hagrees
    exact h.quiet rfl hfollows hkeeps (hagrees stored)
  | @storeWhole _ data stored =>
    obtain ⟨hsize, hgood⟩ := ha
    obtain ⟨hfollows, hkeeps, hagrees⟩ :=
      Sink.write_good h.sound (show 0 + data.size ≤ total by omega) hgood
    rw [Nat.zero_add, hsize] at hagrees
    exact h.quiet rfl hfollows hkeeps (hagrees stored)
  | refuse | breakOff =>
    obtain ⟨hfollows, hkeeps⟩ := ha.write_good h.sound
    exact h.quiet rfl hfollows hkeeps trivial
  | mark =>
    refine h.step rfl hfollows hkeeps trivial fun q hq => ?_
    obtain rfl := List.mem_singleton.mp hq
    exact ha
  | whole =>
    refine h.step rfl hfollows hkeeps trivial fun q hq => ?_
    simp only [Stage.records] at hq
    split at hq
    · obtain rfl := List.mem_singleton.mp hq
      rw [ByteRange.upTo_first, ByteRange.upTo_pastEnd, h.total_eq]
      exact Agrees.mono ha (Nat.zero_le _) (Nat.le_refl _)
    · cases hq
  | overrun overruns => exact absurd overruns (hacc.not_overruns hw)
  | rest finished => cases a <;> cases finished <;> exact h.quiet rfl hfollows hkeeps trivial
  | _ => exact h.quiet rfl hfollows hkeeps trivial

theorem Faithful.apply (hserves : Serves ρ url total good) (h : c.Faithful url total good k₀ marked)
    (hacc : c.Accounted marked) (m : Move) :
    (c.apply rules m).Faithful url total good k₀ ((c.records m).toList ++ marked) := by
  have hmoved := c.moved_apply rules m
  generalize c.apply rules m = c' at hmoved ⊢
  cases hmoved with
  | still idle =>
    rw [records_of_idle idle]
    exact h
  | step hw _ hstep =>
    rw [records_advance hw]
    exact h.advance hserves hacc hw hstep
  | cancel => exact ⟨h.url_eq, h.total_eq, h.sound, h.follows, h.keeps, h.workers, h.marked⟩
  | @lose _ stored _ _ hw _ => exact h.stop hw stored trivial
  | @refuse _ stored _ _ _ _ hw => exact h.stop hw stored trivial

theorem Faithful.after (hserves : Serves ρ url total good) (hs : Solitary rules c)
    (h : c.Faithful url total good k₀ marked) (hacc : c.Accounted marked) (moves : List Move) :
    (c.after rules moves).Faithful url total good k₀ (c.recorded rules moves ++ marked) := by
  induction moves generalizing c marked with
  | nil => exact h
  | cons m moves ih =>
    have := ih (hs.apply m) (h.apply hserves hacc m) (hacc.apply hs m)
    rwa [← List.append_assoc] at this

end Crew

end RangeTransfer
