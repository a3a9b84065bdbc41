import RangeTransfer.Proofs.Text.Decimal
import RangeTransfer.Proofs.Text.Trimming
import RangeTransfer.Range.ContentRange
/-!
# What a `Content-Range` header says

A header that says something is made of `Pieces`: the unit, the two ends of the range and the total,
between marks and blanks. `parse` reads a header just if its numbers are numerals that fit, in order
(`parse_eq_some_iff`). It can also be read in stages: first a pattern finds the pieces, for which any
Unicode numeral is a digit, and then the numbers in them are read (`Pieces.read`). A header has at most one
set of pieces (`Matches.unique`), so both ways agree, and the range that is made in the end is never
empty. `parse_spec` says all this, and that a header that is printed is read back.
-/

namespace RangeTransfer.ContentRange
open Text

/-! ## Pieces -/

/-- The parts of a header, with the blanks before, between and after them. -/
structure Pieces where
  before : List Char
  gap : List Char
  first : List Char
  last : List Char
  total : List Char
  after : List Char

namespace Pieces

def afterUnit (p : Pieces) : List Char :=
  p.gap ++ (p.first ++ '-' :: (p.last ++ '/' :: (p.total ++ p.after)))

def text (p : Pieces) : List Char := p.before ++ 'b' :: 'y' :: 't' :: 'e' :: 's' :: p.afterUnit

/-- Only blanks stand around the unit and behind the total, and at least one behind the unit. -/
structure Spaced (p : Pieces) : Prop where
  before : ∀ c ∈ p.before, isBlank c = true
  gap : ∀ c ∈ p.gap, isBlank c = true
  gap_ne_nil : p.gap ≠ []
  after : ∀ c ∈ p.after, isBlank c = true

end Pieces

/-- `cs` writes the length `total` of an object: a star if it is not known. -/
def WritesTotal (cs : List Char) : Option Nat → Prop
  | none => cs = ['*']
  | some n => Numeral cs n ∧ n < Offset.limit

/-- The numbers in the pieces are those of `c`, and fit 64 bits. -/
structure Pieces.Says (p : Pieces) (c : ContentRange) : Prop where
  first : Numeral p.first c.range.first
  last : Numeral p.last c.range.last
  last_lt : c.range.last < Offset.limit
  total : WritesTotal p.total c.total

/-- The text `cs` is a header that says `c`. -/
def Written (cs : List Char) (c : ContentRange) : Prop := ∃ p : Pieces, p.text = cs ∧ p.Spaced ∧ p.Says c

/-! ## Reading -/

variable {cs rest : List Char} {c : ContentRange} {value : String}

theorem isBlank_of_isDigit {d : Char} (h : d.isDigit = true) : isBlank d = false := by
  simp only [Char.isDigit, Bool.and_eq_true, decide_eq_true_eq, UInt32.le_iff_toNat_le] at h
  have hlow : 48 ≤ d.toNat := h.1
  have hhigh : d.toNat ≤ 57 := h.2
  simp only [isBlank, blankRuns, Runs.has, List.any_eq_false, Bool.and_eq_true, decide_eq_true_eq,
    List.forall_mem_cons]
  simp
  omega

theorem not_isDigit_of_isBlank {d : Char} (h : isBlank d = true) : d.isDigit = false := by
  cases hd : d.isDigit with
  | false => rfl
  | true =>
    rw [isBlank_of_isDigit hd] at h
    cases h

theorem stops_of_blank (h : ∀ d ∈ cs, isBlank d = true) : Stops Char.isDigit cs := fun d hd =>
  not_isDigit_of_isBlank (h d (List.mem_of_mem_head? hd))

theorem stops_of_numeral {n : Nat} (h : Numeral cs n) (rest : List Char) :
    Stops isBlank (cs ++ rest) := by
  obtain ⟨d, ds, rfl⟩ := List.exists_cons_of_ne_nil h.nonempty
  exact stops_cons (isBlank_of_isDigit (h.digits d List.mem_cons_self)) _

theorem readNumber_eq_some_iff {mark : Char} (hmark : mark.isDigit = false) {n : Nat} :
    readNumber mark cs = some (n, rest) ↔
      ∃ ds, cs = ds ++ mark :: rest ∧ Numeral ds n ∧ n < Offset.limit := by
  unfold readNumber
  constructor
  · intro h
    have hsplit := List.takeWhile_append_dropWhile (p := Char.isDigit) (l := cs)
    split at h
    · rename_i d rest' hdrop
      split at h
      · rename_i heq
        subst heq
        obtain ⟨m, hm, hpair⟩ := Option.map_eq_some_iff.mp h
        cases hpair
        rw [hdrop] at hsplit
        exact ⟨_, hsplit.symm, readDigits_eq_some_iff.mp hm⟩
      · cases h
    · cases h
  · rintro ⟨ds, rfl, hn, hlt⟩
    have hstop : Stops Char.isDigit (mark :: rest) := stops_cons hmark rest
    rw [dropWhile_append_of_stop hn.digits hstop, takeWhile_append_of_stop hn.digits hstop]
    simp only [if_true, readDigits_eq_some_iff.mpr ⟨hn, hlt⟩, Option.map_some]

theorem readTotal_eq_some_iff {total : Option Nat} :
    readTotal cs = some total ↔
      ∃ ds after, cs = ds ++ after ∧ WritesTotal ds total ∧ ∀ d ∈ after, isBlank d = true := by
  constructor
  · intro h
    unfold readTotal at h
    split at h
    · rename_i rest
      split at h
      · rename_i hblank
        cases h
        exact ⟨['*'], rest, rfl, rfl, List.all_eq_true.mp hblank⟩
      · cases h
    · split at h
      · rename_i hblank
        obtain ⟨n, hn, rfl⟩ := Option.map_eq_some_iff.mp h
        exact ⟨_, _, List.takeWhile_append_dropWhile.symm, readDigits_eq_some_iff.mp hn,
          List.all_eq_true.mp hblank⟩
      · cases h
  · rintro ⟨ds, after, rfl, hwrites, hafter⟩
    cases total with
    | none =>
      obtain rfl : ds = ['*'] := hwrites
      simp only [List.singleton_append, readTotal, List.all_eq_true.mpr hafter, if_true]
    | some n =>
      obtain ⟨hn, hlt⟩ := hwrites
      have hstop := stops_of_blank hafter
      obtain ⟨d, ds', hds⟩ := List.exists_cons_of_ne_nil hn.nonempty
      have hstar : d ≠ '*' := by
        rintro rfl
        exact absurd (hn.digits '*' (hds ▸ List.mem_cons_self)) (by decide)
      unfold readTotal
      split
      · rename_i rest heq
        rw [hds, List.cons_append] at heq
        exact absurd (List.cons.inj heq).1 hstar
      · rw [dropWhile_append_of_stop hn.digits hstop, takeWhile_append_of_stop hn.digits hstop,
          if_pos (List.all_eq_true.mpr hafter), readDigits_eq_some_iff.mpr ⟨hn, hlt⟩, Option.map_some]

theorem readAfterUnit_eq_some_iff : readAfterUnit cs = some c ↔
    cs.head?.any isBlank = true ∧
      ∃ afterFirst afterLast, readNumber '-' (cs.dropWhile isBlank) = some (c.range.first, afterFirst) ∧
        readNumber '/' afterFirst = some (c.range.last, afterLast) ∧
        readTotal afterLast = some c.total := by
  obtain ⟨⟨first, last, hle⟩, total⟩ := c
  by_cases hblank : cs.head?.any isBlank = true
  · have hpass : guard (cs.head?.any isBlank = true) = some () := if_pos hblank
    rw [readAfterUnit, hpass, eq_true hblank, true_and]
    simp only [bind, Option.bind_some, Option.bind_eq_some_iff, pure, Prod.exists]
    constructor
    · rintro ⟨a, afterFirst, hfirst, b, afterLast, hlast, h⟩
      split at h
      · obtain ⟨t, ht, hc⟩ := Option.bind_eq_some_iff.mp h
        cases hc
        exact ⟨afterFirst, afterLast, hfirst, hlast, ht⟩
      · cases h
    · rintro ⟨afterFirst, afterLast, hfirst, hlast, ht⟩
      refine ⟨first, afterFirst, hfirst, last, afterLast, hlast, ?_⟩
      rw [dif_pos hle, ht]
      rfl
  · have hstop : guard (cs.head?.any isBlank = true) = (none : Option Unit) := if_neg hblank
    rw [readAfterUnit, hstop, eq_false hblank, false_and]
    simp only [bind, Option.bind_none, reduceCtorEq]

/-- Reading accepts just the headers that are written like this, and reads what they say. -/
theorem parse_eq_some_iff : parse value = some c ↔ Written value.toList c := by
  unfold parse
  constructor
  · intro h
    have hsplit := List.takeWhile_append_dropWhile (p := isBlank) (l := value.toList)
    split at h
    · rename_i rest hdrop
      rw [hdrop] at hsplit
      obtain ⟨hblank, afterFirst, afterLast, hfirst, hlast, htotal⟩ := readAfterUnit_eq_some_iff.mp h
      obtain ⟨first, hcut, hfirst', -⟩ := (readNumber_eq_some_iff (by decide)).mp hfirst
      obtain ⟨last, rfl, hlast', hlt⟩ := (readNumber_eq_some_iff (by decide)).mp hlast
      obtain ⟨total, after, rfl, htotal, hafter⟩ := readTotal_eq_some_iff.mp htotal
      refine ⟨⟨value.toList.takeWhile isBlank, rest.takeWhile isBlank, first, last, total, after⟩, ?_,
        ⟨fun _ h => mem_takeWhile h, fun _ h => mem_takeWhile h, fun hnil => ?_, hafter⟩,
        ⟨hfirst', hlast', hlt, htotal⟩⟩
      · rw [Pieces.text, Pieces.afterUnit, ← hcut, List.takeWhile_append_dropWhile]
        exact hsplit
      · cases rest with
        | nil => cases hblank
        | cons d rest => cases (List.takeWhile_cons_of_pos (p := isBlank) hblank).symm.trans hnil
    · cases h
  · rintro ⟨p, htext, hspaced, hsaid⟩
    have hafter := stops_of_numeral hsaid.first ('-' :: (p.last ++ '/' :: (p.total ++ p.after)))
    rw [← htext, Pieces.text, dropWhile_append_of_stop hspaced.before (stops_cons (by decide) _)]
    refine readAfterUnit_eq_some_iff.mpr ⟨?_, p.last ++ '/' :: (p.total ++ p.after),
      p.total ++ p.after, ?_, ?_, ?_⟩
    · obtain ⟨d, gap, hgap⟩ := List.exists_cons_of_ne_nil hspaced.gap_ne_nil
      rw [Pieces.afterUnit, hgap]
      exact hspaced.gap d (hgap ▸ List.mem_cons_self)
    · rw [Pieces.afterUnit, dropWhile_append_of_stop hspaced.gap hafter]
      exact (readNumber_eq_some_iff (by decide)).mpr ⟨_, rfl, hsaid.first,
        Nat.lt_of_le_of_lt c.range.first_le_last hsaid.last_lt⟩
    · exact (readNumber_eq_some_iff (by decide)).mpr ⟨_, rfl, hsaid.last, hsaid.last_lt⟩
    · exact readTotal_eq_some_iff.mpr ⟨_, _, rfl, hsaid.total, hspaced.after⟩

/-! ## Reading in stages -/

/-- A class of numerals: it has the digits, and no blank, sign or mark. -/
structure NumeralClass (isNumeral : Char → Bool) : Prop where
  digit : ∀ d, d.isDigit = true → isNumeral d = true
  blank : ∀ d, isBlank d = true → isNumeral d = false
  plus : isNumeral '+' = false
  dash : isNumeral '-' = false
  slash : isNumeral '/' = false
  star : isNumeral '*' = false

variable {isNumeral : Char → Bool}

/-- `cs` is a run of numerals, at least one. -/
structure Run (isNumeral : Char → Bool) (cs : List Char) : Prop where
  nonempty : cs ≠ []
  numerals : ∀ d ∈ cs, isNumeral d = true

namespace Pieces

/-- The pieces are of the shape of a header, whatever their numerals denote. -/
structure Matches (isNumeral : Char → Bool) (p : Pieces) : Prop extends p.Spaced where
  first : Run isNumeral p.first
  last : Run isNumeral p.last
  total : p.total = ['*'] ∨ Run isNumeral p.total

/-- The length of an object, if the piece `cs` gives one that fits. -/
def readTotal (cs : List Char) : Option (Option Nat) :=
  if cs = ['*'] then some none else (readCount Offset.limit (String.ofList cs)).map some

/-- What the pieces say. A range whose ends are out of order is told apart before it is made. -/
def read (p : Pieces) : Except Abort (Option ContentRange) :=
  match readCount Offset.limit (String.ofList p.first), readCount Offset.limit (String.ofList p.last) with
  | some first, some last =>
    if last < first then .ok none
    else match readTotal p.total with
      | some total => (ByteRange.make first last).map fun range => some ⟨range, total⟩
      | none => .ok none
  | _, _ => .ok none

end Pieces

theorem Run.of_numeral (hclass : NumeralClass isNumeral) {n : Nat} (h : Numeral cs n) :
    Run isNumeral cs :=
  ⟨h.nonempty, fun d hd => hclass.digit d (h.digits d hd)⟩

theorem Run.stops {p : Char → Bool} (h : Run isNumeral cs) (hp : ∀ d, isNumeral d = true → p d = false)
    (rest : List Char) : Stops p (cs ++ rest) := by
  obtain ⟨d, ds, rfl⟩ := List.exists_cons_of_ne_nil h.nonempty
  exact stops_cons (hp d (h.numerals d List.mem_cons_self)) _

theorem Run.append_ne_cons {mark : Char} (hmark : isNumeral mark = false) (h : Run isNumeral cs)
    (rest rest' : List Char) : cs ++ rest ≠ mark :: rest' := by
  obtain ⟨d, ds, rfl⟩ := List.exists_cons_of_ne_nil h.nonempty
  intro heq
  rw [← (List.cons.inj heq).1, h.numerals d List.mem_cons_self] at hmark
  cases hmark

theorem NumeralClass.not_isBlank (hclass : NumeralClass isNumeral) {d : Char} (h : isNumeral d = true) :
    isBlank d = false := by
  cases hd : isBlank d with
  | false => rfl
  | true =>
    rw [hclass.blank d hd] at h
    cases h

theorem NumeralClass.stops_of_blank (hclass : NumeralClass isNumeral)
    (h : ∀ d ∈ cs, isBlank d = true) : Stops isNumeral cs := fun d hd =>
  hclass.blank d (h d (List.mem_of_mem_head? hd))

/-- A header is cut into pieces in one way at most. -/
theorem Pieces.Matches.unique (hclass : NumeralClass isNumeral) {p q : Pieces}
    (hp : p.Matches isNumeral) (hq : q.Matches isNumeral) (h : p.text = q.text) : p = q := by
  -- from the left, each piece ends where the first character behind it is not of its class
  obtain ⟨hbefore, h⟩ := eq_of_append_eq hp.before hq.before (stops_cons (by decide) _)
    (stops_cons (by decide) _) h
  replace h : "bytes".toList ++ p.afterUnit = "bytes".toList ++ q.afterUnit := h
  have hnot : ∀ d, isNumeral d = true → isBlank d = false := fun d => hclass.not_isBlank
  obtain ⟨hgap, h⟩ := eq_of_append_eq hp.gap hq.gap (hp.first.stops hnot _) (hq.first.stops hnot _)
    (List.append_cancel_left h)
  obtain ⟨hfirst, h⟩ := eq_of_append_eq hp.first.numerals hq.first.numerals
    (stops_cons hclass.dash _) (stops_cons hclass.dash _) h
  obtain ⟨hlast, h⟩ := eq_of_append_eq hp.last.numerals hq.last.numerals
    (stops_cons hclass.slash _) (stops_cons hclass.slash _) (List.cons.inj h).2
  replace h := (List.cons.inj h).2
  have htotal : p.total = q.total ∧ p.after = q.after := by
    rcases hp.total with hstar | hrun <;> rcases hq.total with hstar' | hrun'
    · rw [hstar, hstar'] at h
      exact ⟨hstar.trans hstar'.symm, (List.cons.inj h).2⟩
    · rw [hstar] at h
      exact absurd h.symm (hrun'.append_ne_cons hclass.star _ _)
    · rw [hstar'] at h
      exact absurd h (hrun.append_ne_cons hclass.star _ _)
    · exact eq_of_append_eq hrun.numerals hrun'.numerals (hclass.stops_of_blank hp.after)
        (hclass.stops_of_blank hq.after) h
  cases p
  cases q
  simp only at hbefore hgap hfirst hlast htotal
  simp only [hbefore, hgap, hfirst, hlast, htotal]

theorem Run.readCount_eq_some_iff (hclass : NumeralClass isNumeral) (h : Run isNumeral cs) {limit n : Nat} :
    readCount limit (String.ofList cs) = some n ↔ Numeral cs n ∧ n < limit := by
  have hplus : ¬ ∃ digits, cs = '+' :: digits ∧ Numeral digits n := fun ⟨digits, heq, _⟩ =>
    h.append_ne_cons hclass.plus [] digits ((List.append_nil cs).trans heq)
  rw [Text.readCount_eq_some_iff, Count, String.toList_ofList, or_iff_left hplus]

theorem Pieces.readTotal_eq_some_iff (hclass : NumeralClass isNumeral)
    (h : cs = ['*'] ∨ Run isNumeral cs) {total : Option Nat} :
    Pieces.readTotal cs = some total ↔ WritesTotal cs total := by
  rcases h with rfl | hrun
  · cases total with
    | none => exact iff_of_true rfl rfl
    | some n => exact iff_of_false nofun fun h => absurd (h.1.digits '*' List.mem_cons_self) (by decide)
  · have hstar : cs ≠ ['*'] := fun heq =>
      hrun.append_ne_cons hclass.star [] [] ((List.append_nil cs).trans heq)
    rw [Pieces.readTotal, if_neg hstar, Option.map_eq_some_iff]
    simp only [hrun.readCount_eq_some_iff hclass]
    cases total with
    | none => exact iff_of_false (by rintro ⟨_, -, ⟨⟩⟩) hstar
    | some n => exact ⟨fun ⟨_, h, heq⟩ => Option.some.inj heq ▸ h, fun h => ⟨n, h, rfl⟩⟩

theorem Pieces.Matches.read_eq (hclass : NumeralClass isNumeral) {p : Pieces}
    (h : p.Matches isNumeral) : ∃ said, p.read = .ok said ∧ ∀ c, said = some c ↔ p.Says c := by
  have hfirst {n : Nat} : readCount Offset.limit (String.ofList p.first) = some n ↔ _ :=
    h.first.readCount_eq_some_iff hclass
  have hlast {n : Nat} : readCount Offset.limit (String.ofList p.last) = some n ↔ _ :=
    h.last.readCount_eq_some_iff hclass
  have htotal {total : Option Nat} : readTotal p.total = some total ↔ _ :=
    readTotal_eq_some_iff hclass h.total
  unfold read
  split
  · rename_i first last hreadFirst hreadLast
    obtain ⟨hfirst, -⟩ := hfirst.mp hreadFirst
    obtain ⟨hlast, hlt⟩ := hlast.mp hreadLast
    split
    · rename_i hempty
      refine ⟨none, rfl, fun c => iff_of_false nofun fun hsaid => ?_⟩
      have hle := c.range.first_le_last
      rw [hsaid.first.inj hfirst, hsaid.last.inj hlast] at hle
      omega
    · rename_i hle
      split
      · rename_i total hread
        refine ⟨_, by rw [ByteRange.make_eq_ok (Nat.le_of_not_lt hle)]; rfl, fun c => ⟨?_, fun hsaid => ?_⟩⟩
        · rintro ⟨⟩
          exact ⟨hfirst, hlast, hlt, htotal.mp hread⟩
        · have htotals := htotal.mpr hsaid.total
          obtain ⟨⟨first', last', _⟩, total'⟩ := c
          obtain rfl : first' = first := hsaid.first.inj hfirst
          obtain rfl : last' = last := hsaid.last.inj hlast
          rw [hread] at htotals
          cases htotals
          rfl
      · rename_i hread
        refine ⟨none, rfl, fun c => iff_of_false nofun fun hsaid => ?_⟩
        rw [htotal.mpr hsaid.total] at hread
        cases hread
  · rename_i hread
    refine ⟨none, rfl, fun c => iff_of_false nofun fun hsaid => ?_⟩
    exact hread _ _ (hfirst.mpr ⟨hsaid.first, Nat.lt_of_le_of_lt c.range.first_le_last hsaid.last_lt⟩)
      (hlast.mpr ⟨hsaid.last, hsaid.last_lt⟩)

/-- `cs` gives `outcome` if its pieces are found by their shape and then read. -/
inductive ReadInStages (isNumeral : Char → Bool) (cs : List Char) :
    Except Abort (Option ContentRange) → Prop
  | found {p : Pieces} (shape : p.Matches isNumeral) (text : p.text = cs) : ReadInStages isNumeral cs p.read
  | missing (noMatch : ∀ p : Pieces, p.Matches isNumeral → p.text ≠ cs) :
    ReadInStages isNumeral cs (.ok none)

theorem Pieces.Spaced.matches (hclass : NumeralClass isNumeral) {p : Pieces} (h : p.Spaced)
    (hsaid : p.Says c) : p.Matches isNumeral := by
  refine ⟨h, .of_numeral hclass hsaid.first, .of_numeral hclass hsaid.last, ?_⟩
  have htotal := hsaid.total
  cases hc : c.total with
  | none =>
    rw [hc] at htotal
    exact .inl htotal
  | some n =>
    rw [hc] at htotal
    exact .inr (.of_numeral hclass htotal.1)

theorem ReadInStages.eq_parse (hclass : NumeralClass isNumeral)
    {outcome : Except Abort (Option ContentRange)} (h : ReadInStages isNumeral value.toList outcome) :
    outcome = .ok (parse value) := by
  cases h with
  | found shape text =>
    obtain ⟨said, hread, hsaid⟩ := shape.read_eq hclass
    have hsame : said = parse value := by
      refine Option.ext fun c => (hsaid c).trans (Iff.trans ?_ parse_eq_some_iff.symm)
      refine ⟨fun hc => ⟨_, text, shape.toSpaced, hc⟩, fun ⟨q, hq, hspaced, hc⟩ => ?_⟩
      exact (hspaced.matches hclass hc).unique hclass shape (hq.trans text.symm) ▸ hc
    rw [hread, hsame]
  | missing noMatch =>
    cases hparse : parse value with
    | none => rfl
    | some c =>
      obtain ⟨p, htext, hspaced, hsaid⟩ := parse_eq_some_iff.mp hparse
      exact absurd htext (noMatch p (hspaced.matches hclass hsaid))

theorem readInStages_parse (hclass : NumeralClass isNumeral) (value : String) :
    ReadInStages isNumeral value.toList (.ok (parse value)) := by
  by_cases hfound : ∃ p : Pieces, p.Matches isNumeral ∧ p.text = value.toList
  · obtain ⟨p, hshape, htext⟩ := hfound
    have hread := ReadInStages.found hshape htext
    rwa [hread.eq_parse hclass] at hread
  · have hmissing := ReadInStages.missing fun p hshape htext => hfound ⟨p, hshape, htext⟩
    rwa [hmissing.eq_parse hclass] at hmissing

/-! ## Printing -/

def totalText : Option Nat → String
  | none => "*"
  | some n => toString n

/-- The header as a server prints it. -/
def text (c : ContentRange) : String := "bytes " ++ c.range.text ++ "/" ++ totalText c.total

theorem written_text (hlast : c.range.last < Offset.limit) (htotal : ∀ n, c.total = some n → n < Offset.limit) :
    Written c.text.toList c := by
  refine ⟨⟨[], [' '], (toString c.range.first).toList, (toString c.range.last).toList,
    (totalText c.total).toList, []⟩, ?_, ⟨nofun, ?_, nofun, nofun⟩,
    ⟨numeral_toString _, numeral_toString _, hlast, ?_⟩⟩
  · simp only [Pieces.text, Pieces.afterUnit, text, ByteRange.text, String.toList_append]
    simp
  · simp only [List.mem_singleton, forall_eq]
    decide
  · cases hc : c.total with
    | none => rfl
    | some n => exact ⟨numeral_toString n, htotal n hc⟩

/-- A header is read just if it is written as one, whatever else the pattern takes for a numeral, and never
with an abort; and one that is printed is read back. -/
theorem parse_spec :
    (∀ value c, parse value = some c ↔ Written value.toList c) ∧
    (∀ isNumeral, NumeralClass isNumeral → ∀ value outcome,
      ReadInStages isNumeral value.toList outcome ↔ outcome = .ok (parse value)) ∧
    ∀ c : ContentRange, c.range.last < Offset.limit → (∀ n, c.total = some n → n < Offset.limit) →
      parse c.text = some c := by
  refine ⟨fun _ _ => parse_eq_some_iff, fun isNumeral hclass value outcome => ?_,
    fun c hlast htotal => parse_eq_some_iff.mpr (written_text hlast htotal)⟩
  exact ⟨fun h => h.eq_parse hclass, fun h => h ▸ readInStages_parse hclass value⟩

theorem numeralClass_arabicIndic :
    NumeralClass fun d => d.isDigit || Runs.has [(0x660, 0x669)] d where
  digit _ h := by rw [h]; rfl
  blank d h := by
    have hdigit := not_isDigit_of_isBlank h
    simp only [isBlank, blankRuns, Runs.has, List.any_cons, List.any_nil, Bool.or_false, Bool.or_eq_true,
      Bool.and_eq_true, decide_eq_true_eq] at h
    simp only [hdigit, Runs.has, List.any_cons, List.any_nil, Bool.or_false, Bool.false_or,
      Bool.and_eq_false_iff, decide_eq_false_iff_not]
    omega
  plus := by decide
  dash := by decide
  slash := by decide
  star := by decide

theorem parse_spec_arabicIndic :
    ReadInStages (fun d => d.isDigit || Runs.has [(0x660, 0x669)] d) "bytes \u0663-4/5".toList (.ok none) ∧
      parse (text ⟨⟨0, 0, Nat.le_refl 0⟩, some 10⟩) = some ⟨⟨0, 0, Nat.le_refl 0⟩, some 10⟩ := by
  refine ⟨(parse_spec.2.1 _ numeralClass_arabicIndic _ _).mpr (by decide), parse_spec.2.2 _ (by decide) ?_⟩
  rintro _ ⟨⟩
  decide

end RangeTransfer.ContentRange
