import RangeTransfer.Proofs.Path
/-!
# Children of a directory

A path is compared by its components: its root or leading dot, and the segments that count. A plain
name joined to a path is one more component (`components_join`), it is the name of the new path
(`fileName?_join`), and the path itself is the parent of the new one, without what counts for
nothing at its end (`parent?_join`). Nothing of that kind stands at the end of a parent or of a child
(`stripped_parent?`, `stripped_join`), so a child of these has just them as its parent.
-/

namespace RangeTransfer.Path

variable {p q : Path} {name : Name} {runs : List Name}

/-- A name that is a segment of its own and leads to an entry of the directory before it. -/
structure Plain (name : Name) : Prop where
  ne_nil : name ≠ []
  slash_not_mem : slash ∉ name
  ne_dot : name ≠ dot
  ne_dotDot : name ≠ dotDot

theorem Plain.counts (h : Plain name) : countsForNothing name = false := by
  rw [countsForNothing, decide_eq_false h.ne_nil, decide_eq_false h.ne_dot]
  rfl

/-- What a path is compared by: its root or leading dot, and the segments that count. -/
def components (p : Path) : List UInt8 × List Name :=
  (p.lead, p.segments.filter fun segment => !countsForNothing segment)

/-- The path without what counts for nothing at its end. -/
def stripped (p : Path) : Path := ofSegments p.lead p.segments

/-! ## The start of a path -/

theorem intercalate_cut (l : List UInt8) : List.intercalate [slash] (cut l) = l := by
  induction l with
  | nil => rfl
  | cons b l ih =>
    rw [cut]
    cases hcut : cut l with
    | nil => exact absurd hcut (cut_ne_nil l)
    | cons run runs =>
      rw [hcut] at ih
      split
      · rename_i hb
        rw [List.intercalate_cons_cons, ih, hb]
        rfl
      · cases runs with
        | nil => exact congrArg (b :: ·) ih
        | cons next runs =>
          rw [List.intercalate_cons_cons] at ih ⊢
          exact congrArg (b :: ·) ih

theorem lead_eq (h : p.bytes ≠ []) : p.lead =
    if (cut p.bytes).head? = some [] then [slash]
    else if (cut p.bytes).head? = some dot then dot else [] := by
  rcases p.lead_cases with ⟨rest, hp, hlead, -⟩ | ⟨rest, hp, hrest, hlead, -⟩ | ⟨hp, hlead, hdot⟩
  · rw [hlead, hp, cut, if_pos rfl]
    rfl
  · have hdot : (46 : UInt8) ≠ slash := by decide
    rw [hlead, hp, cut, if_neg hdot]
    cases hcut : cut rest with
    | nil => exact absurd hcut (cut_ne_nil rest)
    | cons run runs =>
      rw [hcut] at hrest
      obtain rfl : run = [] := Option.some.inj hrest
      rfl
  · obtain ⟨b, rest, hbytes⟩ := List.exists_cons_of_ne_nil h
    rw [hbytes, List.head?_cons, ne_eq, Option.some.injEq] at hp
    rw [hlead, hbytes, cut, if_neg hp]
    cases hcut : cut rest with
    | nil => exact absurd hcut (cut_ne_nil rest)
    | cons run runs =>
      simp only [List.head?_cons, Option.some.injEq, List.cons_ne_nil, if_false]
      refine (if_neg fun heq => ?_).symm
      -- a first run that is a dot would be the leading one
      obtain ⟨rfl, rfl⟩ := List.cons.inj heq
      have hrest := intercalate_cut rest
      rw [hcut] at hrest
      obtain ⟨bytes⟩ := p
      cases runs with
      | nil =>
        obtain rfl : [] = rest := hrest
        obtain rfl : bytes = [46] := hbytes
        cases hdot
      | cons next runs =>
        rw [List.intercalate_cons_cons] at hrest
        obtain rfl : bytes = 46 :: rest := hbytes
        rw [← hrest] at hdot
        cases hdot

theorem head?_cut_append_slash (l r : List UInt8) :
    (cut (l ++ slash :: r)).head? = (cut l).head? := by
  rw [cut_append_slash]
  cases hcut : cut l with
  | nil => exact absurd hcut (cut_ne_nil l)
  | cons run runs => rfl

theorem lead_of_nil (h : p.bytes = []) : p.lead = [] := by
  rw [lead, h, List.take_nil, ite_self]

theorem lead_congr (hp : p.bytes ≠ []) (hq : q.bytes ≠ [])
    (h : (cut p.bytes).head? = (cut q.bytes).head?) : p.lead = q.lead := by
  rw [lead_eq hp, lead_eq hq, h]

theorem lead_append_drop (p : Path) : p.lead ++ p.bytes.drop p.lead.length = p.bytes := by
  unfold lead
  split
  · rw [List.length_take]
    cases p.bytes <;> rfl
  · rfl

/-! ## The end of a path -/

theorem trimSegments_concat_nil (runs : List Name) :
    trimSegments (runs ++ [[]]) = trimSegments runs := by
  rw [trimSegments, List.reverse_append, List.reverse_singleton, List.singleton_append,
    List.dropWhile_cons_of_pos rfl, trimSegments]

theorem trimSegments_concat (h : countsForNothing name = false) :
    trimSegments (runs ++ [name]) = runs ++ [name] := by
  rw [trimSegments, List.reverse_append, List.reverse_singleton, List.singleton_append,
    List.dropWhile_cons_of_neg (by rw [h]; exact Bool.false_ne_true), List.reverse_cons,
    List.reverse_reverse]

theorem trimSegments_eq_nil_or (runs : List Name) : trimSegments runs = [] ∨
    ∃ first last, trimSegments runs = first ++ [last] ∧ countsForNothing last = false := by
  have hhead := List.head?_dropWhile_not countsForNothing runs.reverse
  rw [← List.getLast?_reverse, show (runs.reverse.dropWhile countsForNothing).reverse =
    trimSegments runs from rfl] at hhead
  cases hlast : (trimSegments runs).getLast? with
  | none => exact Or.inl (List.getLast?_eq_none_iff.mp hlast)
  | some last =>
    obtain ⟨first, hfirst⟩ := List.getLast?_eq_some_iff.mp hlast
    rw [hlast] at hhead
    exact Or.inr ⟨first, last, hfirst, hhead⟩

theorem trimSegments_trimSegments (runs : List Name) :
    trimSegments (trimSegments runs) = trimSegments runs := by
  rcases trimSegments_eq_nil_or runs with hnil | ⟨first, last, hlast, hcounts⟩
  · rw [hnil]
    rfl
  · rw [hlast, trimSegments_concat hcounts]

theorem filter_trimSegments (runs : List Name) :
    (trimSegments runs).filter (!countsForNothing ·) = runs.filter (!countsForNothing ·) := by
  have hsplit := List.takeWhile_append_dropWhile (p := countsForNothing) (l := runs.reverse)
  have hnone :
      (runs.reverse.takeWhile countsForNothing).reverse.filter (!countsForNothing ·) = [] := by
    refine List.filter_eq_nil_iff.mpr fun run hrun => ?_
    have hall := List.all_eq_true.mp (List.all_takeWhile (p := countsForNothing)) run
      (List.mem_reverse.mp hrun)
    rw [hall]
    exact Bool.false_ne_true
  have hruns : trimSegments runs ++ (runs.reverse.takeWhile countsForNothing).reverse = runs := by
    rw [trimSegments, ← List.reverse_append, hsplit, List.reverse_reverse]
  rw [← hruns, List.filter_append, hnone, List.append_nil, hruns]

/-! ## Joined names -/

theorem front_ne_nil (h : p.bytes ≠ []) : p.front ≠ [] := by
  unfold front
  split
  · exact h
  · exact List.append_ne_nil_of_left_ne_nil h _

theorem lead_join (h : Plain name) : (p.join ⟨name⟩).lead = p.lead := by
  have hbytes := bytes_join (p := p) h.slash_not_mem
  by_cases hp : p.bytes = []
  · -- the name alone has no root and is no dot
    have hname : (p.join ⟨name⟩).bytes = name := by rw [hbytes, front, if_pos (Or.inl hp), hp]; rfl
    rw [lead_of_nil hp, lead_eq (hname.symm ▸ h.ne_nil), hname, cut_of_not_mem h.slash_not_mem]
    simp only [List.head?_cons, Option.some.injEq, if_neg h.ne_nil, if_neg h.ne_dot]
  · refine lead_congr ?_ hp ?_
    · rw [hbytes]
      exact List.append_ne_nil_of_left_ne_nil (front_ne_nil hp) _
    · rw [hbytes, front]
      by_cases hlast : p.bytes.getLast? = some slash
      · obtain ⟨stem, hstem⟩ := List.getLast?_eq_some_iff.mp hlast
        rw [if_pos (Or.inr hlast), hstem, List.append_assoc, List.singleton_append,
          head?_cut_append_slash, head?_cut_append_slash]
      · rw [if_neg (not_or.mpr ⟨hp, hlast⟩), List.append_assoc, List.singleton_append,
          head?_cut_append_slash]

theorem cut_join (h : Plain name) : ∃ runs, trimSegments runs = p.segments ∧
    cut ((p.join ⟨name⟩).bytes.drop p.lead.length) = runs ++ [name] := by
  have hname := cut_of_not_mem h.slash_not_mem
  have hsplit := p.lead_append_drop
  rw [bytes_join h.slash_not_mem, front, segments]
  generalize p.bytes.drop p.lead.length = rest at hsplit ⊢
  rw [← hsplit]
  by_cases hlast : p.lead ++ rest = [] ∨ (p.lead ++ rest).getLast? = some slash
  · rw [if_pos hlast, List.append_assoc, List.drop_left]
    rcases List.eq_nil_or_concat rest with rfl | ⟨stem, b, rfl⟩
    · exact ⟨[], rfl, hname⟩
    · rw [List.concat_eq_append] at hlast ⊢
      obtain rfl : b = slash := by simpa [List.getLast?_append] using hlast
      refine ⟨cut stem, ?_, ?_⟩
      · rw [cut_append_slash]
        exact (trimSegments_concat_nil _).symm
      · rw [List.append_assoc, List.singleton_append, cut_append_slash, hname]
  · rw [if_neg hlast, List.append_assoc, List.append_assoc, List.drop_left, List.singleton_append,
      cut_append_slash, hname]
    exact ⟨cut rest, rfl, rfl⟩

theorem segments_join (h : Plain name) : ∃ runs, trimSegments runs = p.segments ∧
    (p.join ⟨name⟩).segments = runs ++ [name] := by
  obtain ⟨runs, hruns, hcut⟩ := cut_join (p := p) h
  refine ⟨runs, hruns, ?_⟩
  rw [segments, lead_join h, hcut, trimSegments_concat h.counts]

theorem fileName?_join (h : Plain name) : (p.join ⟨name⟩).fileName? = some name := by
  obtain ⟨runs, -, hsegments⟩ := segments_join (p := p) h
  rw [fileName?, hsegments, List.getLast?_concat, Option.filter_some,
    if_pos (decide_eq_true h.ne_dotDot)]

theorem parent?_join (h : Plain name) : (p.join ⟨name⟩).parent? = some p.stripped := by
  obtain ⟨runs, hruns, hsegments⟩ := segments_join (p := p) h
  have hne : (p.join ⟨name⟩).segments ≠ [] := by
    rw [hsegments]
    exact List.append_ne_nil_of_right_ne_nil _ (List.cons_ne_nil _ _)
  unfold parent?
  split
  · exact absurd (by assumption) hne
  · rw [hsegments, List.dropLast_concat, hruns, lead_join h, stripped]

theorem components_join (h : Plain name) :
    (p.join ⟨name⟩).components = (p.components.1, p.components.2 ++ [name]) := by
  obtain ⟨runs, hruns, hsegments⟩ := segments_join (p := p) h
  simp only [components, hsegments, lead_join h, List.filter_append, ← hruns, filter_trimSegments]
  simp [h.counts]

theorem join_components_inj {name' : Name} (h : Plain name) (h' : Plain name')
    (heq : (p.join ⟨name⟩).components = (p.join ⟨name'⟩).components) : name = name' := by
  rw [components_join h, components_join h', Prod.mk.injEq, List.append_cancel_left_eq,
    List.cons.injEq] at heq
  exact heq.2.1

/-! ## Parents and children end with a segment that counts -/

theorem stripped_join (h : Plain name) : (p.join ⟨name⟩).stripped = p.join ⟨name⟩ := by
  obtain ⟨runs, -, hcut⟩ := cut_join (p := p) h
  have hbytes := (p.join ⟨name⟩).lead_append_drop
  rw [lead_join h, ← intercalate_cut (List.drop _ _), hcut] at hbytes
  rw [stripped, segments, lead_join h, hcut, trimSegments_concat h.counts, ofSegments, hbytes]

theorem intercalate_append {more : List Name} (hruns : runs ≠ []) (hmore : more ≠ []) :
    List.intercalate [slash] (runs ++ more) =
      List.intercalate [slash] runs ++ slash :: List.intercalate [slash] more := by
  induction runs with
  | nil => exact absurd rfl hruns
  | cons run runs ih =>
    cases runs with
    | nil =>
      rw [List.singleton_append, List.intercalate_cons_of_ne_nil hmore, List.intercalate_singleton,
        List.append_assoc, List.singleton_append]
    | cons next runs =>
      rw [List.cons_append, List.intercalate_cons_of_ne_nil (List.append_ne_nil_of_left_ne_nil
        (List.cons_ne_nil _ _) _), ih (List.cons_ne_nil _ _), List.intercalate_cons_cons,
        ← List.append_assoc]

theorem lead_ofSegments (hruns : runs <+: cut (p.bytes.drop p.lead.length)) (htrim : runs ≠ [[]]) :
    (ofSegments p.lead runs).lead = p.lead := by
  obtain ⟨more, hmore⟩ := hruns
  have hbytes := p.lead_append_drop
  rw [← intercalate_cut (p.bytes.drop _), ← hmore] at hbytes
  by_cases hnil : runs = []
  · -- the lead alone
    rw [hnil, ofSegments, List.intercalate_nil, List.append_nil]
    rcases p.lead_cases with ⟨-, -, hlead, -⟩ | ⟨-, -, -, hlead, -⟩ | ⟨-, hlead, -⟩
    all_goals rw [hlead]; rfl
  · have hne : (ofSegments p.lead runs).bytes ≠ [] := fun h => by
      have hempty := (List.append_eq_nil_iff.mp h).2
      obtain ⟨run, rest, rfl⟩ := List.exists_cons_of_ne_nil hnil
      cases rest with
      | nil =>
        rw [List.intercalate_singleton] at hempty
        exact htrim (by rw [hempty])
      | cons next rest =>
        rw [List.intercalate_cons_cons] at hempty
        simp at hempty
    -- the path goes on behind these segments, if at all, with a slash
    by_cases hend : more = []
    · rw [hend, List.append_nil] at hbytes
      rw [ofSegments, hbytes]
    · rw [intercalate_append hnil hend, ← List.append_assoc] at hbytes
      refine lead_congr hne ?_ ?_
      · rw [← hbytes]
        exact List.append_ne_nil_of_left_ne_nil hne _
      · rw [← hbytes, head?_cut_append_slash]
        rfl

theorem stripped_parent? (h : p.parent? = some q) : q.stripped = q := by
  unfold parent? at h
  split at h
  · split at h
    · cases h
      rfl
    · cases h
  · obtain rfl := Option.some.inj h
    have hfirst : trimSegments p.segments.dropLast <+: cut (p.bytes.drop p.lead.length) := by
      have hshort := trimSegments_prefix p.segments.dropLast
      have hall : p.segments <+: cut (p.bytes.drop p.lead.length) := trimSegments_prefix _
      exact (hshort.trans (List.dropLast_prefix _)).trans hall
    have htrimmed := trimSegments_trimSegments p.segments.dropLast
    generalize trimSegments p.segments.dropLast = runs at hfirst htrimmed
    have hlead := lead_ofSegments hfirst fun heq => by
      rw [heq] at htrimmed
      cases htrimmed
    have hsegments : (ofSegments p.lead runs).segments = runs := by
      rw [segments, hlead, ofSegments, List.drop_left]
      by_cases hnil : runs = []
      · rw [hnil]
        rfl
      · rw [cut_intercalate hnil fun run hrun => slash_not_mem_of_mem_cut (hfirst.subset hrun),
          htrimmed]
    rw [stripped, hlead, hsegments]

end RangeTransfer.Path
