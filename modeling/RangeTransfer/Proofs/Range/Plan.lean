import RangeTransfer.Range.Plan
/-!
# The ranges of a plan

`Plan.ranges` lists what a plan still hands out. Where offsets fit 64 bits a plan hands out exactly
one range at a time off the front of that list (`take_of_lt`, `ranges_of_lt`), and the list is
consecutive: each range starts where the one before it ended, the first at the offset of the plan
and the last one ends with the object (`consecutive_ranges`). Consecutive ranges do not overlap,
cover everything between their ends, and their lengths add up to the distance.
-/

namespace RangeTransfer

namespace ByteRange

/-- `o` is the offset of one of the bytes of `r`. -/
def Has (r : ByteRange) (o : Nat) : Prop := r.first ≤ o ∧ o < r.pastEnd

instance (r : ByteRange) (o : Nat) : Decidable (r.Has o) := inferInstanceAs (Decidable (_ ∧ _))

/-- No byte lies in both ranges. -/
def Apart (r q : ByteRange) : Prop := r.pastEnd ≤ q.first ∨ q.pastEnd ≤ r.first

theorem Apart.symm {r q : ByteRange} (h : r.Apart q) : q.Apart r := Or.symm h

theorem first_lt_pastEnd (r : ByteRange) : r.first < r.pastEnd := Nat.lt_succ_of_le r.first_le_last

theorem has_first (r : ByteRange) : r.Has r.first := ⟨Nat.le_refl _, r.first_lt_pastEnd⟩

theorem length_eq (r : ByteRange) : r.length = r.pastEnd - r.first := by
  have := r.first_add_length
  omega

theorem Apart.not_has {r q : ByteRange} (h : r.Apart q) {o : Nat} (ho : r.Has o) : ¬ q.Has o := by
  rintro ⟨h₁, h₂⟩
  obtain ⟨h₃, h₄⟩ := ho
  rcases h with h | h <;> omega

theorem not_apart_self (r : ByteRange) : ¬ r.Apart r := by
  have := r.first_lt_pastEnd
  rintro (h | h) <;> omega

/-- The bytes from `first` up to `past`. -/
def upTo (first past : Nat) (h : first < past) : ByteRange := ⟨first, past - 1, by omega⟩

@[simp] theorem upTo_first {a b : Nat} (h : a < b) : (upTo a b h).first = a := rfl

@[simp] theorem upTo_pastEnd {a b : Nat} (h : a < b) : (upTo a b h).pastEnd = b := by
  simp only [upTo, pastEnd]; omega

theorem ext_pastEnd {r q : ByteRange} (h₁ : r.first = q.first) (h₂ : r.pastEnd = q.pastEnd) :
    r = q := by
  cases r; cases q
  simp only [pastEnd] at h₁ h₂
  simp only [mk.injEq]
  omega

theorem pastEndChecked_eq {r : ByteRange} (h : r.pastEnd < Offset.limit) :
    r.pastEndChecked = .ok r.pastEnd := Offset.add_eq_ok h

theorem lengthChecked_eq {r : ByteRange} (h : r.pastEnd < Offset.limit) :
    r.lengthChecked = .ok r.length := by
  refine Offset.add_eq_ok ?_
  have := r.first_le_last
  simp only [pastEnd] at h
  omega

end ByteRange

/-! ## Consecutive ranges -/

/-- The ranges of `rs` follow each other without a gap, from `a` to `b`. -/
def Consecutive (a b : Nat) : List ByteRange → Prop
  | [] => a = b
  | r :: rs => r.first = a ∧ Consecutive r.pastEnd b rs

/-- Number of bytes in all the ranges of `rs`. -/
def totalLength : List ByteRange → Nat
  | [] => 0
  | r :: rs => r.length + totalLength rs

@[simp] theorem totalLength_nil : totalLength [] = 0 := rfl

@[simp] theorem totalLength_cons (r : ByteRange) (rs : List ByteRange) :
    totalLength (r :: rs) = r.length + totalLength rs := rfl

@[simp] theorem totalLength_append (rs qs : List ByteRange) :
    totalLength (rs ++ qs) = totalLength rs + totalLength qs := by
  induction rs with
  | nil => simp
  | cons r rs ih => simp [ih, Nat.add_assoc]

theorem totalLength_perm {rs qs : List ByteRange} (h : rs.Perm qs) :
    totalLength rs = totalLength qs := by
  induction h with
  | nil => rfl
  | cons r h ih => rw [totalLength_cons, totalLength_cons, ih]
  | swap r q rs => simp only [totalLength_cons, Nat.add_left_comm]
  | trans h h' ih ih' => exact ih.trans ih'

theorem eq_nil_of_totalLength_eq_zero {rs : List ByteRange} (h : totalLength rs = 0) : rs = [] := by
  cases rs with
  | nil => rfl
  | cons r rs =>
    have := r.length_pos
    rw [totalLength_cons] at h
    omega

namespace Consecutive

variable {a b : Nat} {rs : List ByteRange}

theorem le (h : Consecutive a b rs) : a ≤ b := by
  induction rs generalizing a with
  | nil => exact Nat.le_of_eq h
  | cons r rs ih =>
    have := ih h.2
    have := r.first_lt_pastEnd
    have := h.1
    omega

theorem totalLength_eq (h : Consecutive a b rs) : totalLength rs = b - a := by
  induction rs generalizing a with
  | nil => rw [show a = b from h]; simp
  | cons r rs ih =>
    have hle := le h.2
    have hlt := r.first_lt_pastEnd
    have hlen := r.length_eq
    have hfirst := h.1
    rw [totalLength_cons, ih h.2]
    omega

theorem bounds (h : Consecutive a b rs) {r : ByteRange} (hr : r ∈ rs) :
    a ≤ r.first ∧ r.pastEnd ≤ b := by
  induction rs generalizing a with
  | nil => cases hr
  | cons q rs ih =>
    have hle := le h.2
    have hlt := q.first_lt_pastEnd
    have hfirst := h.1
    rcases List.mem_cons.mp hr with rfl | hr
    · exact ⟨by omega, hle⟩
    · have := ih h.2 hr
      exact ⟨by omega, this.2⟩

theorem exists_has (h : Consecutive a b rs) {o : Nat} (h₁ : a ≤ o) (h₂ : o < b) :
    ∃ r ∈ rs, r.Has o := by
  induction rs generalizing a with
  | nil => have : a = b := h; omega
  | cons q rs ih =>
    by_cases ho : o < q.pastEnd
    · exact ⟨q, by simp, by have := h.1; omega, ho⟩
    · obtain ⟨r, hr, hro⟩ := ih h.2 (by omega)
      exact ⟨r, by simp [hr], hro⟩

theorem pairwise_apart (h : Consecutive a b rs) : rs.Pairwise ByteRange.Apart := by
  induction rs generalizing a with
  | nil => exact List.Pairwise.nil
  | cons q rs ih =>
    exact List.pairwise_cons.mpr ⟨fun r hr => Or.inl (bounds h.2 hr).1, ih h.2⟩

theorem apart (h : Consecutive a b rs) {r q : ByteRange} (hr : r ∈ rs) (hq : q ∈ rs)
    (hne : r ≠ q) : r.Apart q := by
  induction rs generalizing a with
  | nil => cases hr
  | cons p rs ih =>
    rcases List.mem_cons.mp hr with rfl | hr' <;> rcases List.mem_cons.mp hq with rfl | hq'
    · exact absurd rfl hne
    · exact Or.inl (bounds h.2 hq').1
    · exact Or.inr (bounds h.2 hr').1
    · exact ih h.2 hr' hq'

theorem eq_of_has (h : Consecutive a b rs) {r q : ByteRange} (hr : r ∈ rs) (hq : q ∈ rs) {o : Nat}
    (hro : r.Has o) (hqo : q.Has o) : r = q :=
  Classical.byContradiction fun hne => (h.apart hr hq hne).not_has hro hqo

theorem split {c : Nat} {qs : List ByteRange} (h : Consecutive a c (rs ++ qs)) :
    ∃ b, Consecutive a b rs ∧ Consecutive b c qs := by
  induction rs generalizing a with
  | nil => exact ⟨a, rfl, h⟩
  | cons r rs ih =>
    obtain ⟨b, h₁, h₂⟩ := ih h.2
    exact ⟨b, ⟨h.1, h₁⟩, h₂⟩

end Consecutive

/-! ## What a plan hands out -/

namespace Plan

/-- The ranges that are not handed out yet, in order. -/
def ranges (p : Plan) : List ByteRange :=
  match p.takeMany p.remaining with
  | .ok (rs, _) => rs
  | .error _ => []

variable {p : Plan}

/-- The first offset past the next range. -/
def nextEnd (p : Plan) : Nat := min (p.next + p.chunk) p.total

theorem lt_nextEnd (h : p.next < p.total) : p.next < p.nextEnd := by
  have := p.chunk_pos
  simp only [nextEnd]; omega

/-- The plan after its next range. -/
def rest (p : Plan) : Plan := { p with next := p.nextEnd }

theorem take_of_lt (h : p.next < p.total) (hfit : p.total < Offset.limit) :
    p.take = .ok (some (.upTo p.next p.nextEnd (lt_nextEnd h)), p.rest) := by
  have hpos := p.chunk_pos
  have hlast : min (Offset.addCapped p.next (max p.chunk 1 - 1)) (p.total - 1) = p.nextEnd - 1 := by
    simp only [Offset.addCapped, Offset.last, nextEnd]; omega
  have hle : p.next ≤ min (Offset.addCapped p.next (max p.chunk 1 - 1)) (p.total - 1) := by
    have := lt_nextEnd h
    omega
  have hend : (ByteRange.mk _ _ hle).pastEnd = p.nextEnd := by
    have := lt_nextEnd h
    simp only [ByteRange.pastEnd]; omega
  have hbound : p.nextEnd ≤ p.total := Nat.min_le_right _ _
  have hrange : ByteRange.mk _ _ hle = .upTo p.next p.nextEnd (lt_nextEnd h) :=
    ByteRange.ext_pastEnd rfl (by rw [hend, ByteRange.upTo_pastEnd])
  simp only [take, rangeAt, h, if_true, ByteRange.make_eq_ok hle, Functor.map, Except.map, bind,
    Except.bind]
  rw [ByteRange.pastEndChecked_eq (by rw [hend]; omega), hend, hrange]
  rfl

theorem take_of_le (h : p.total ≤ p.next) : p.take = .ok (none, p) := by
  simp only [take, rangeAt, Nat.not_lt.mpr h, if_false]
  rfl

theorem take_none {p q : Plan} (h : p.take = .ok (none, q)) : p.total ≤ p.next ∧ q = p := by
  simp only [take, rangeAt] at h
  split at h
  · simp only [ByteRange.make] at h
    split at h
    · simp only [Functor.map, Except.map, bind, Except.bind] at h
      split at h <;> cases h
    · cases h
  · rename_i hle
    cases h
    exact ⟨Nat.not_lt.mp hle, rfl⟩

theorem take_some {p q : Plan} {r : ByteRange} (h : p.take = .ok (some r, q)) :
    ∃ hlt : p.next < p.total, r = .upTo _ _ (lt_nextEnd hlt) ∧ q = p.rest := by
  simp only [take, rangeAt] at h
  split at h
  · rename_i hlt
    refine ⟨hlt, ?_⟩
    simp only [ByteRange.make] at h
    split at h
    · simp only [Functor.map, Except.map, bind, Except.bind, ByteRange.pastEndChecked,
        Offset.add] at h
      split at h
      · cases h
      · rename_i past hpast
        split at hpast
        · cases hpast
          cases h
          have hpos := p.chunk_pos
          -- the end was not capped, or one could not have been added to it
          have hend : min (Offset.addCapped p.next (max p.chunk 1 - 1)) (p.total - 1) + 1 = p.nextEnd := by
            simp only [nextEnd, Offset.addCapped, Offset.last] at *
            omega
          refine ⟨ByteRange.ext_pastEnd rfl ?_, ?_⟩
          · rw [ByteRange.upTo_pastEnd]
            exact hend
          · simp only [rest, hend]
        · cases hpast
    · cases h
  · cases h

theorem takeMany_succ_of_lt (n : Nat) (h : p.next < p.total) (hfit : p.total < Offset.limit) :
    p.takeMany (n + 1) = (p.rest.takeMany n).map
      fun x => (.upTo p.next p.nextEnd (lt_nextEnd h) :: x.1, x.2) := by
  simp only [takeMany, take_of_lt h hfit, bind, Except.bind]
  cases rest p |>.takeMany n <;> rfl

theorem takeMany_of_le (n : Nat) (h : p.total ≤ p.next) : p.takeMany n = .ok ([], p) := by
  cases n with
  | zero => rfl
  | succ n => simp only [takeMany, take_of_le h]; rfl

theorem remaining_rest (h : p.next < p.total) : p.rest.remaining < p.remaining := by
  have := lt_nextEnd h
  simp only [remaining, rest]; omega

/-- What holds of a plan that has handed out everything, and of any other one if it holds of the
plan after its next range, holds of every plan. -/
theorem induction_rest {P : Plan → Prop} (done : ∀ p, p.total ≤ p.next → P p)
    (more : ∀ p, p.next < p.total → P p.rest → P p) (p : Plan) : P p := by
  generalize hn : p.remaining = n
  induction n using Nat.strongRecOn generalizing p with
  | ind n ih =>
    by_cases hlt : p.next < p.total
    · exact more p hlt (ih _ (hn ▸ remaining_rest hlt) p.rest rfl)
    · exact done p (Nat.not_lt.mp hlt)

theorem takeMany_of_remaining_le (hfit : p.total < Offset.limit) {n : Nat}
    (hn : p.remaining ≤ n) : ∃ q, p.takeMany n = .ok (p.ranges, q) := by
  induction n using Nat.strongRecOn generalizing p with
  | ind n ih =>
    by_cases h : p.next < p.total
    · have hlt := remaining_rest h
      obtain ⟨m, rfl⟩ : ∃ m, n = m + 1 := ⟨n - 1, by omega⟩
      obtain ⟨k, hk⟩ : ∃ k, p.remaining = k + 1 := ⟨p.remaining - 1, by omega⟩
      obtain ⟨q, hq⟩ := ih m (by omega) (p := p.rest) hfit (by omega)
      obtain ⟨q', hq'⟩ := ih k (by omega) (p := p.rest) hfit (by omega)
      refine ⟨q, ?_⟩
      rw [ranges, hk, takeMany_succ_of_lt m h hfit, takeMany_succ_of_lt k h hfit, hq, hq']
      rfl
    · refine ⟨p, ?_⟩
      rw [ranges, takeMany_of_le _ (Nat.not_lt.mp h), takeMany_of_le _ (Nat.not_lt.mp h)]

theorem ranges_of_lt (h : p.next < p.total) (hfit : p.total < Offset.limit) :
    p.ranges = .upTo p.next p.nextEnd (lt_nextEnd h) :: p.rest.ranges := by
  have hlt := remaining_rest h
  obtain ⟨k, hk⟩ : ∃ k, p.remaining = k + 1 := ⟨p.remaining - 1, by omega⟩
  obtain ⟨q, hq⟩ := takeMany_of_remaining_le (p := p.rest) hfit (n := k) (by omega)
  rw [ranges, hk, takeMany_succ_of_lt k h hfit, hq]
  rfl

theorem ranges_of_le (h : p.total ≤ p.next) : p.ranges = [] := by
  rw [ranges, takeMany_of_le _ h]

theorem consecutive_ranges (h : p.next ≤ p.total) (hfit : p.total < Offset.limit) :
    Consecutive p.next p.total p.ranges := by
  induction p using induction_rest with
  | done p hle =>
    rw [ranges_of_le hle]
    exact Nat.le_antisymm h hle
  | more p hlt ih =>
    rw [ranges_of_lt hlt hfit]
    refine ⟨ByteRange.upTo_first _, ?_⟩
    rw [ByteRange.upTo_pastEnd]
    exact ih (Nat.min_le_right _ _) hfit

theorem consecutive_new {resume total : Nat} (chunk : Nat) (hle : resume ≤ total)
    (hfit : total < Offset.limit) : Consecutive resume total (Plan.new resume total chunk).ranges :=
  consecutive_ranges (p := .new resume total chunk) hle hfit

end Plan

end RangeTransfer
