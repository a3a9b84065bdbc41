import RangeTransfer.Attempt.Watermark
import RangeTransfer.Proofs.Range.Plan
/-!
# What a watermark says

`w.Marks resume rs`: the watermark `w`, started at `resume`, has taken in exactly the ranges `rs`.
Completing a range that overlaps none of them takes it in (`Marks.complete`), in whatever order
the ranges come. The offset that a watermark has reached is then the greatest one below which every
byte lies in a range taken in (`Marks.reached_spec`).
-/

namespace RangeTransfer.Watermark

/-- A waiting entry covers `o`. -/
def Waits (waiting : List (Nat × Nat)) (o : Nat) : Prop := ∃ p ∈ waiting, p.1 ≤ o ∧ o < p.2

/-- Waiting entries are not empty, start above `low`, and follow each other without overlap. -/
def Sorted : Nat → List (Nat × Nat) → Prop
  | _, [] => True
  | low, (k, e) :: rest => low ≤ k ∧ k < e ∧ Sorted e rest

/-- The watermark that started at `resume` has taken in exactly the ranges of `rs`. -/
structure Marks (w : Watermark) (resume : Nat) (rs : List ByteRange) : Prop where
  resume_le : resume ≤ w.reached
  sorted : Sorted (w.reached + 1) w.waiting
  covers : ∀ o, resume ≤ o → ((o < w.reached ∨ Waits w.waiting o) ↔ ∃ r ∈ rs, r.Has o)

theorem marks_new (resume : Nat) : (new resume).Marks resume [] where
  resume_le := Nat.le_refl _
  sorted := trivial
  covers o ho := by
    simp only [new, Waits, List.not_mem_nil, false_and, exists_false, or_false, iff_false]
    omega

@[simp] theorem waits_nil (o : Nat) : ¬ Waits [] o := by simp [Waits]

@[simp] theorem waits_cons (k e : Nat) (l : List (Nat × Nat)) (o : Nat) :
    Waits ((k, e) :: l) o ↔ (k ≤ o ∧ o < e) ∨ Waits l o := by
  simp only [Waits, List.mem_cons, exists_eq_or_imp]

theorem Sorted.le_of_waits {low : Nat} {l : List (Nat × Nat)} (h : Sorted low l) {o : Nat}
    (ho : Waits l o) : low ≤ o := by
  induction l generalizing low with
  | nil => exact absurd ho (waits_nil o)
  | cons p l ih =>
    obtain ⟨k, e⟩ := p
    obtain ⟨h₁, h₂, h₃⟩ := h
    rcases (waits_cons k e l o).mp ho with ho | ho
    · omega
    · have := ih h₃ ho
      omega

/-! ## Waiting -/

theorem wait_spec {first past : Nat} (hlt : first < past) {low : Nat} {l : List (Nat × Nat)}
    (hs : Sorted low l) (hlow : low ≤ first)
    (hapart : ∀ o, Waits l o → ¬ (first ≤ o ∧ o < past)) :
    Sorted low (wait first past l) ∧
      ∀ o, Waits (wait first past l) o ↔ (first ≤ o ∧ o < past) ∨ Waits l o := by
  induction l generalizing low with
  | nil => exact ⟨⟨hlow, hlt, trivial⟩, fun o => waits_cons first past [] o⟩
  | cons p l ih =>
    obtain ⟨k, e⟩ := p
    obtain ⟨h₁, h₂, h₃⟩ := hs
    have hk : ¬ (first ≤ k ∧ k < past) := hapart k ((waits_cons k e l k).mpr (Or.inl ⟨by omega, h₂⟩))
    have hfirst : ¬ (k ≤ first ∧ first < e) := fun h =>
      hapart first ((waits_cons k e l first).mpr (Or.inl h)) ⟨Nat.le_refl _, hlt⟩
    by_cases hbefore : first < k
    · rw [wait, if_pos hbefore]
      exact ⟨⟨hlow, hlt, by omega, h₂, h₃⟩, fun o => waits_cons first past _ o⟩
    · have hne : first ≠ k := fun h => hfirst ⟨by omega, by omega⟩
      rw [wait, if_neg hbefore, if_neg hne]
      obtain ⟨hs', hw⟩ := ih h₃ (by omega)
        (fun o ho => hapart o ((waits_cons k e l o).mpr (Or.inr ho)))
      refine ⟨⟨h₁, h₂, hs'⟩, fun o => ?_⟩
      rw [waits_cons, hw o, waits_cons]
      exact or_left_comm

/-! ## Absorbing -/

theorem absorb_spec {reached : Nat} {l : List (Nat × Nat)} (hs : Sorted reached l) :
    reached ≤ (absorb reached l).reached ∧
      Sorted ((absorb reached l).reached + 1) (absorb reached l).waiting ∧
      ∀ o, (o < (absorb reached l).reached ∨ Waits (absorb reached l).waiting o) ↔
        o < reached ∨ Waits l o := by
  induction l generalizing reached with
  | nil => exact ⟨Nat.le_refl _, trivial, fun o => Iff.rfl⟩
  | cons p l ih =>
    obtain ⟨k, e⟩ := p
    obtain ⟨h₁, h₂, h₃⟩ := hs
    by_cases hgap : reached < k
    · rw [absorb, if_pos hgap]
      exact ⟨Nat.le_refl _, ⟨hgap, h₂, h₃⟩, fun o => Iff.rfl⟩
    · have hmax : max reached e = e := by omega
      rw [absorb, if_neg hgap, hmax]
      obtain ⟨hle, hs', hw⟩ := ih h₃
      refine ⟨by omega, hs', fun o => ?_⟩
      rw [hw o, waits_cons, ← or_assoc]
      refine or_congr_left ?_
      omega

/-! ## Completing a range -/

theorem Marks.complete {w : Watermark} {resume : Nat} {rs : List ByteRange} {r : ByteRange}
    (hm : w.Marks resume rs) (hresume : resume ≤ r.first) (hapart : ∀ q ∈ rs, r.Apart q)
    (hfit : r.pastEnd < Offset.limit) :
    ∃ w', w.complete r = .ok w' ∧ w'.Marks resume (r :: rs) := by
  have hlt := r.first_lt_pastEnd
  have hfree : ∀ o, resume ≤ o → (o < w.reached ∨ Waits w.waiting o) → ¬ r.Has o := by
    intro o ho hmarked hr
    obtain ⟨q, hq, hqo⟩ := (hm.covers o ho).mp hmarked
    exact (hapart q hq).not_has hr hqo
  have hreached : w.reached ≤ r.first := Nat.le_of_not_lt fun h =>
    hfree r.first hresume (Or.inl h) r.has_first
  have hwaits : ∀ o, Waits w.waiting o → ¬ (r.first ≤ o ∧ o < r.pastEnd) := fun o ho hr =>
    hfree o (by have := hm.sorted.le_of_waits ho; have := hm.resume_le; omega) (Or.inr ho) hr
  simp only [Watermark.complete, ByteRange.pastEndChecked_eq hfit, bind, Except.bind]
  by_cases hgap : w.reached < r.first
  · rw [if_pos hgap]
    obtain ⟨hs, hw⟩ := wait_spec hlt hm.sorted (by omega) hwaits
    refine ⟨_, rfl, hm.resume_le, hs, fun o ho => ?_⟩
    rw [hw o]
    simp only [List.mem_cons, exists_eq_or_imp, ← hm.covers o ho]
    exact or_left_comm
  · have hfirst : r.first = w.reached := by omega
    have hmax : max w.reached r.pastEnd = r.pastEnd := by omega
    have hs : Sorted r.pastEnd w.waiting := by
      have hsorted := hm.sorted
      cases hwl : w.waiting with
      | nil => trivial
      | cons p l =>
        obtain ⟨k, e⟩ := p
        rw [hwl] at hsorted hwaits
        obtain ⟨h₁, h₂, h₃⟩ := hsorted
        have := hwaits k ((waits_cons k e l k).mpr (Or.inl ⟨Nat.le_refl _, h₂⟩))
        exact ⟨by omega, h₂, h₃⟩
    rw [if_neg hgap, hmax]
    obtain ⟨hle, hs', hw⟩ := absorb_spec hs
    refine ⟨_, rfl, Nat.le_trans (by have := hm.resume_le; omega) hle, hs', fun o ho => ?_⟩
    rw [hw o]
    simp only [List.mem_cons, exists_eq_or_imp, ← hm.covers o ho, ← or_assoc]
    refine or_congr_left ?_
    simp only [ByteRange.Has]
    omega

theorem absorb_all {low reached : Nat} {l : List (Nat × Nat)} (hs : Sorted low l)
    (hbelow : ∀ o, Waits l o → o < reached) : absorb reached l = ⟨reached, []⟩ := by
  induction l generalizing low with
  | nil => rfl
  | cons p l ih =>
    obtain ⟨k, e⟩ := p
    obtain ⟨_, hlt, hs'⟩ := hs
    have hk := hbelow k ((waits_cons k e l k).mpr (Or.inl ⟨Nat.le_refl _, hlt⟩))
    have he := hbelow (e - 1) ((waits_cons k e l (e - 1)).mpr (Or.inl (by omega)))
    rw [absorb, if_neg (by omega), Nat.max_eq_left (by omega)]
    exact ih hs' fun o ho => hbelow o ((waits_cons k e l o).mpr (Or.inr ho))

theorem Marks.complete_rest {w : Watermark} {resume total : Nat} {rs : List ByteRange}
    (hm : w.Marks resume rs) (hbound : ∀ r ∈ rs, r.pastEnd ≤ total) (hlt : resume < total)
    (hfit : total < Offset.limit) :
    w.complete (.upTo resume total hlt) = .ok ⟨total, []⟩ := by
  have hbelow : ∀ o, resume ≤ o → (o < w.reached ∨ Waits w.waiting o) → o < total := by
    intro o ho hmarked
    obtain ⟨r, hr, hro⟩ := (hm.covers o ho).mp hmarked
    exact Nat.lt_of_lt_of_le hro.2 (hbound r hr)
  have hreached : w.reached ≤ total := Nat.le_of_not_lt fun h =>
    Nat.lt_irrefl _ (hbelow total (Nat.le_of_lt hlt) (Or.inl h))
  have hgap : ¬ w.reached < (ByteRange.upTo resume total hlt).first := Nat.not_lt.mpr hm.resume_le
  simp only [Watermark.complete, ByteRange.pastEndChecked_eq
    (r := .upTo resume total hlt) (by rwa [ByteRange.upTo_pastEnd]), bind, Except.bind,
    ByteRange.upTo_pastEnd, if_neg hgap, Nat.max_eq_right hreached]
  rw [absorb_all hm.sorted fun o ho =>
    hbelow o (by have := hm.sorted.le_of_waits ho; have := hm.resume_le; omega) (Or.inr ho)]
  rfl

/-- The offset that the watermark has reached is the greatest one below which every byte from
`resume` on lies in a range taken in. -/
theorem Marks.reached_spec {w : Watermark} {resume : Nat} {rs : List ByteRange}
    (hm : w.Marks resume rs) :
    (∀ o, resume ≤ o → o < w.reached → ∃ r ∈ rs, r.Has o) ∧ ¬ ∃ r ∈ rs, r.Has w.reached := by
  refine ⟨fun o ho hlt => (hm.covers o ho).mp (Or.inl hlt), fun h => ?_⟩
  rcases (hm.covers w.reached hm.resume_le).mpr h with h | h
  · omega
  · have := hm.sorted.le_of_waits h
    omega

end RangeTransfer.Watermark
