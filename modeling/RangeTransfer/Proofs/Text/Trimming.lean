import Mathlib.Data.List.TakeWhile
import RangeTransfer.Text.Blank
/-!
# Cutting texts by classes of characters

A text is cut where a run of characters of one class ends: a run and what stops it are found again
in the text made of both (`takeWhile_append_of_stop`, `dropWhile_append_of_stop`), so there is one way
to cut it there (`eq_of_append_eq`). Trimming takes such runs off both ends, and leaves nothing just of
a text of the class (`trimWhile_eq_nil_iff`).
-/

namespace RangeTransfer.Text

variable {p : Char → Bool} {cs : List Char} {c : Char}

theorem not_of_head?_dropWhile (h : (cs.dropWhile p).head? = some c) : p c = false := by
  have hhead := List.head?_dropWhile_not p cs
  rw [h] at hhead
  exact hhead

theorem dropWhile_of_head? (h : ∀ c, cs.head? = some c → p c = false) : cs.dropWhile p = cs := by
  cases cs with
  | nil => rfl
  | cons c cs => exact List.dropWhile_cons_of_neg (by rw [h c rfl]; exact Bool.false_ne_true)

/-! ## Runs -/

section Runs

variable {p : Char → Bool} {xs ys rest rest' : List Char}

/-- What follows a run of characters of the class `p` does not go on with it. -/
def Stops (p : Char → Bool) (rest : List Char) : Prop := ∀ c, rest.head? = some c → p c = false

theorem stops_cons {c : Char} (h : p c = false) (rest : List Char) : Stops p (c :: rest) := by
  rintro _ ⟨⟩
  exact h

theorem dropWhile_append_of_stop (hxs : ∀ c ∈ xs, p c = true) (hrest : Stops p rest) :
    (xs ++ rest).dropWhile p = rest := by
  rw [List.dropWhile_append_of_pos hxs, dropWhile_of_head? hrest]

theorem takeWhile_append_of_stop (hxs : ∀ c ∈ xs, p c = true) (hrest : Stops p rest) :
    (xs ++ rest).takeWhile p = xs := by
  have hsplit := List.takeWhile_append_dropWhile (p := p) (l := xs ++ rest)
  rw [dropWhile_append_of_stop hxs hrest] at hsplit
  exact List.append_cancel_right hsplit

theorem eq_of_append_eq (hxs : ∀ c ∈ xs, p c = true) (hys : ∀ c ∈ ys, p c = true)
    (hrest : Stops p rest) (hrest' : Stops p rest') (h : xs ++ rest = ys ++ rest') :
    xs = ys ∧ rest = rest' := by
  constructor
  · rw [← takeWhile_append_of_stop hxs hrest, h, takeWhile_append_of_stop hys hrest']
  · rw [← dropWhile_append_of_stop hxs hrest, h, dropWhile_append_of_stop hys hrest']

theorem mem_takeWhile {c : Char} {cs : List Char} (h : c ∈ cs.takeWhile p) : p c = true :=
  List.all_eq_true.mp List.all_takeWhile c h

end Runs

/-! ## Trimming -/

theorem dropEndWhile_isPrefix (p : Char → Bool) (cs : List Char) : dropEndWhile p cs <+: cs := by
  have h := List.reverse_prefix.mpr (List.dropWhile_suffix p (l := cs.reverse))
  rwa [List.reverse_reverse] at h

theorem not_of_getLast?_trimWhile (h : (trimWhile p cs).getLast? = some c) : p c = false := by
  rw [trimWhile, dropEndWhile, List.getLast?_reverse] at h
  exact not_of_head?_dropWhile h

theorem not_of_head?_trimWhile (h : (trimWhile p cs).head? = some c) : p c = false := by
  obtain ⟨rest, hrest⟩ := dropEndWhile_isPrefix p (cs.dropWhile p)
  have hhead : (cs.dropWhile p).head? = some c := by
    rw [← hrest, List.head?_append, show (dropEndWhile p (cs.dropWhile p)).head? = some c from h]
    rfl
  exact not_of_head?_dropWhile hhead

theorem trimWhile_sublist (p : Char → Bool) (cs : List Char) : (trimWhile p cs).Sublist cs :=
  (dropEndWhile_isPrefix p _).sublist.trans (List.dropWhile_sublist p)

theorem trimWhile_ne_nil (hne : cs ≠ []) (h : ∀ c, cs.head? = some c → p c = false) :
    trimWhile p cs ≠ [] := by
  obtain ⟨c, cs, rfl⟩ := List.exists_cons_of_ne_nil hne
  intro hnil
  -- the first character would have gone from the end with all the others
  rw [trimWhile, dropWhile_of_head? h] at hnil
  have hall : (c :: cs).reverse.takeWhile p = (c :: cs).reverse := by
    have hsplit := List.takeWhile_append_dropWhile (p := p) (l := (c :: cs).reverse)
    rwa [List.reverse_eq_nil_iff.mp hnil, List.append_nil] at hsplit
  have hc := List.all_eq_true.mp (List.all_takeWhile (p := p) (l := (c :: cs).reverse)) c
    (by rw [hall]; exact List.mem_reverse.mpr List.mem_cons_self)
  rw [h c rfl] at hc
  cases hc

theorem trimWhile_eq_self_iff : trimWhile p cs = cs ↔
    (∀ c, cs.head? = some c → p c = false) ∧ ∀ c, cs.getLast? = some c → p c = false := by
  refine ⟨fun h => ⟨fun c hc => not_of_head?_trimWhile (h.symm ▸ hc), fun c hc =>
    not_of_getLast?_trimWhile (h.symm ▸ hc)⟩, fun ⟨hfirst, hlast⟩ => ?_⟩
  rw [trimWhile, dropWhile_of_head? hfirst, dropEndWhile,
    dropWhile_of_head? fun c hc => hlast c (List.head?_reverse ▸ hc), List.reverse_reverse]

theorem trimWhile_eq_nil_iff : trimWhile p cs = [] ↔ ∀ c ∈ cs, p c = true := by
  rw [← List.dropWhile_eq_nil_iff]
  refine ⟨fun h => Classical.byContradiction fun hne => ?_, fun h => by rw [trimWhile, h]; rfl⟩
  have hhead : Stops p (cs.dropWhile p) := fun _ => not_of_head?_dropWhile
  refine trimWhile_ne_nil hne hhead ?_
  rwa [trimWhile, dropWhile_of_head? hhead]

end RangeTransfer.Text
