import RangeTransfer.Path
/-!
# Names along a path

`Path.names` are the names that a path leads along, from the root or from the working directory. A
plain name joined to a path is one more of them (`names_join`), and the parent of a path leads along
some of the names before the last (`names_parent?`).
-/

namespace RangeTransfer.Path

/-- The names that a path leads along. -/
def names (p : Path) : List Name := (cut p.bytes).filter (· ≠ [])

theorem cut_ne_nil (l : List UInt8) : cut l ≠ [] := by
  cases l with
  | nil => simp [cut]
  | cons b l =>
    rw [cut]
    split
    · simp
    · split <;> simp

theorem cut_append_slash (l r : List UInt8) : cut (l ++ slash :: r) = cut l ++ cut r := by
  induction l with
  | nil => simp [cut]
  | cons b l ih =>
    rw [List.cons_append, cut, cut]
    split
    · rw [ih, List.cons_append]
    · rw [ih]
      cases hc : cut l with
      | nil => exact absurd hc (cut_ne_nil l)
      | cons run runs => rfl

theorem cut_of_not_mem {l : List UInt8} (h : slash ∉ l) : cut l = [l] := by
  induction l with
  | nil => rfl
  | cons b l ih =>
    simp only [List.mem_cons, not_or] at h
    rw [cut, if_neg (Ne.symm h.1), ih h.2]

variable {p : Path} {name : Name}

theorem isAbsolute_of_not_mem (h : slash ∉ name) : isAbsolute ⟨name⟩ = false := by
  cases name with
  | nil => rfl
  | cons b name =>
    simp only [List.mem_cons, not_or] at h
    simp [isAbsolute, Ne.symm h.1]

/-- The bytes that come before a name joined to the path. -/
def front (p : Path) : List UInt8 :=
  if p.bytes = [] ∨ p.bytes.getLast? = some slash then p.bytes else p.bytes ++ [slash]

theorem bytes_join (h : slash ∉ name) : (p.join ⟨name⟩).bytes = p.front ++ name := by
  simp only [join, isAbsolute_of_not_mem h, Bool.false_eq_true, if_false, front]
  cases hlast : p.bytes.getLast? with
  | none => rw [List.getLast?_eq_none_iff.mp hlast]; rfl
  | some b =>
    have hne : p.bytes ≠ [] := fun hnil => by
      rw [hnil] at hlast
      cases hlast
    by_cases hb : b = slash
    · simp only [hb, if_true, or_true]
    · simp only [hb, hne, if_false, Option.some.injEq, or_self, List.append_assoc,
        List.singleton_append]

theorem names_join (hne : name ≠ []) (h : slash ∉ name) :
    (p.join ⟨name⟩).names = p.names ++ [name] := by
  have hname : (cut name).filter (· ≠ []) = [name] := by simp [cut_of_not_mem h, hne]
  rw [names, names, bytes_join h, front]
  by_cases hnil : p.bytes = []
  · rw [if_pos (Or.inl hnil), hnil, List.nil_append, hname]
    rfl
  · by_cases hlast : p.bytes.getLast? = some slash
    · obtain ⟨stem, hstem⟩ := List.getLast?_eq_some_iff.mp hlast
      rw [if_pos (Or.inr hlast), hstem, List.append_assoc, List.singleton_append, cut_append_slash,
        cut_append_slash, List.filter_append, List.filter_append, hname]
      simp [cut]
    · rw [if_neg (not_or.mpr ⟨hnil, hlast⟩), List.append_assoc, List.singleton_append,
        cut_append_slash, List.filter_append, hname]

theorem isAbsolute_join (h : slash ∉ name) : (p.join ⟨name⟩).isAbsolute = p.isAbsolute := by
  cases hp : p.bytes with
  | nil =>
    have hname := isAbsolute_of_not_mem h
    simp only [isAbsolute, bytes_join h, front, hp, true_or, if_true, List.nil_append] at hname ⊢
    rw [hname]
    rfl
  | cons b bs =>
    simp only [isAbsolute, bytes_join h, front, hp]
    split <;> rfl

theorem getLast?_join (hne : name ≠ []) (h : slash ∉ name) :
    (p.join ⟨name⟩).bytes.getLast? ≠ some slash := by
  obtain ⟨b, hb⟩ : ∃ b, name.getLast? = some b :=
    Option.ne_none_iff_exists'.mp fun hnone => hne (List.getLast?_eq_none_iff.mp hnone)
  rw [bytes_join h, List.getLast?_append, hb]
  intro heq
  cases heq
  exact h (List.mem_of_getLast? hb)

theorem names_join_nil : (p.join ⟨[]⟩).names = p.names := by
  rw [names, names, bytes_join List.not_mem_nil, List.append_nil, front]
  split
  · rfl
  · rw [cut_append_slash, List.filter_append]
    simp [cut]

/-! ## Last names -/

theorem slash_not_mem_of_mem_cut {l : List UInt8} {run : Name} (h : run ∈ cut l) : slash ∉ run := by
  induction l generalizing run with
  | nil =>
    obtain rfl := List.mem_singleton.mp h
    exact List.not_mem_nil
  | cons b l ih =>
    rw [cut] at h
    split at h
    · rcases List.mem_cons.mp h with rfl | h
      · exact List.not_mem_nil
      · exact ih h
    · rename_i hb
      split at h
      · obtain rfl := List.mem_singleton.mp h
        simpa using Ne.symm hb
      · rename_i first runs hcut
        rcases List.mem_cons.mp h with rfl | h
        · have := ih (hcut ▸ List.mem_cons_self : first ∈ cut l)
          simp only [List.mem_cons, not_or]
          exact ⟨Ne.symm hb, this⟩
        · exact ih (hcut ▸ List.mem_cons_of_mem _ h)

theorem slash_not_mem_fileName? {p : Path} {name : Name} (h : p.fileName? = some name) :
    slash ∉ name := by
  have hmem : name ∈ p.segments := List.mem_of_getLast? (Option.filter_eq_some_iff.mp h).1
  refine slash_not_mem_of_mem_cut (l := p.bytes.drop p.lead.length) ?_
  simp only [segments, trimSegments, List.mem_reverse] at hmem
  exact List.mem_reverse.mp ((List.dropWhile_sublist _).subset hmem)

/-! ## Parents -/

/-- The name that a leading dot is. -/
def leadNames (p : Path) : List Name := if p.startsWithDot then [dot] else []

theorem lead_cases (p : Path) :
    (∃ rest, p.bytes = slash :: rest ∧ p.lead = [slash] ∧ p.startsWithDot = false) ∨
      (∃ rest, p.bytes = 46 :: rest ∧ (cut rest).head? = some [] ∧ p.lead = [46] ∧
        p.startsWithDot = true) ∨
      p.bytes.head? ≠ some slash ∧ p.lead = [] ∧ p.startsWithDot = false := by
  obtain ⟨bytes⟩ := p
  unfold lead isAbsolute startsWithDot slash
  split
  · exact Or.inr (Or.inl ⟨_, by assumption, rfl, by simp_all, rfl⟩)
  · exact Or.inr (Or.inl ⟨_, by assumption, rfl, by simp_all, rfl⟩)
  · cases bytes with
    | nil => simp
    | cons b rest => by_cases hb : b = 47 <;> simp [hb]

theorem names_eq (p : Path) :
    p.names = p.leadNames ++ (cut (p.bytes.drop p.lead.length)).filter (· ≠ []) := by
  unfold names leadNames
  rcases p.lead_cases with ⟨rest, hp, hlead, hdot⟩ | ⟨rest, hp, hrest, hlead, hdot⟩ | ⟨-, hlead, hdot⟩
  · rw [hp, hlead, hdot, cut, if_pos rfl]
    simp
  · rw [hp, hlead, hdot, cut, if_neg (by decide)]
    cases hcut : cut rest with
    | nil => exact absurd hcut (cut_ne_nil rest)
    | cons run runs =>
      rw [hcut] at hrest
      obtain rfl : run = [] := Option.some.inj hrest
      simp [hcut, dot]
  · rw [hlead, hdot]
    simp

theorem cut_intercalate {runs : List Name} (hne : runs ≠ []) (h : ∀ run ∈ runs, slash ∉ run) :
    cut (List.intercalate [slash] runs) = runs := by
  induction runs with
  | nil => exact absurd rfl hne
  | cons run runs ih =>
    have hrun := cut_of_not_mem (h run List.mem_cons_self)
    cases runs with
    | nil => rw [List.intercalate_singleton, hrun]
    | cons next runs =>
      rw [List.intercalate_cons_cons, List.append_assoc, List.singleton_append, cut_append_slash,
        hrun, ih (List.cons_ne_nil _ _) fun r hr => h r (List.mem_cons_of_mem _ hr),
        List.singleton_append]

theorem filter_cut_intercalate {runs : List Name} (h : ∀ run ∈ runs, slash ∉ run) :
    (cut (List.intercalate [slash] runs)).filter (· ≠ []) = runs.filter (· ≠ []) := by
  by_cases hnil : runs = []
  · rw [hnil]
    rfl
  · rw [cut_intercalate hnil h]

theorem trimSegments_prefix (runs : List Name) : trimSegments runs <+: runs := by
  have := List.reverse_prefix.mpr (List.dropWhile_suffix countsForNothing (l := runs.reverse))
  rwa [List.reverse_reverse] at this

theorem getLast?_trimSegments {runs : List Name} {last : Name}
    (h : (trimSegments runs).getLast? = some last) : last ≠ [] := by
  rw [trimSegments, List.getLast?_reverse] at h
  rintro rfl
  have := List.head?_dropWhile_not countsForNothing runs.reverse
  rw [h] at this
  cases this

theorem names_ofSegments {p : Path} {runs : List Name}
    (hruns : runs <+: cut (p.bytes.drop p.lead.length)) (htrim : runs ≠ [[]])
    (hne : (ofSegments p.lead runs).bytes ≠ []) :
    (ofSegments p.lead runs).isAbsolute = p.isAbsolute ∧
      (ofSegments p.lead runs).names = p.leadNames ++ runs.filter (· ≠ []) := by
  have hplain := filter_cut_intercalate fun run hrun =>
    slash_not_mem_of_mem_cut (hruns.subset hrun)
  unfold names leadNames isAbsolute
  rw [decide_eq_decide]
  simp only [ofSegments] at hne ⊢
  rcases p.lead_cases with ⟨rest, hp, hlead, hdot⟩ | ⟨rest, hp, hrest, hlead, hdot⟩ | ⟨hp, hlead, hdot⟩
  · rw [hlead, hdot, hp, List.singleton_append, cut, if_pos rfl]
    exact ⟨Iff.rfl, hplain⟩
  · rw [hlead, hdot, hp]
    refine ⟨Iff.rfl, ?_⟩
    rw [hlead, hp] at hruns
    cases runs with
    | nil => rfl
    | cons run runs =>
      -- a slash comes after the dot, so the first segment is empty
      obtain ⟨more, hmore⟩ := hruns
      obtain rfl : run = [] := by
        rw [List.length_singleton, List.drop_one, List.tail_cons] at hmore
        rw [← hmore] at hrest
        exact Option.some.inj hrest
      cases runs with
      | nil => exact absurd rfl htrim
      | cons next runs =>
        rw [List.intercalate_cons_cons, List.nil_append, List.singleton_append, cut,
          if_pos rfl] at hplain
        rw [List.intercalate_cons_cons, List.nil_append, List.singleton_append, List.singleton_append,
          cut, if_neg (by decide), cut, if_pos rfl]
        exact congrArg (dot :: ·) hplain
  · rw [hlead, List.nil_append] at hne
    rw [hlead, hdot, List.nil_append]
    refine ⟨?_, hplain⟩
    rw [hlead, List.length_nil, List.drop_zero] at hruns
    refine iff_of_false ?_ hp
    cases runs with
    | nil => exact absurd rfl hne
    | cons run runs =>
      obtain ⟨more, hmore⟩ := hruns
      cases hbytes : p.bytes with
      | nil =>
        rw [hbytes] at hmore
        obtain ⟨rfl, hnil⟩ := List.cons.inj (hmore : run :: (runs ++ more) = [[]])
        exact absurd (congrArg ([] :: ·) (List.append_eq_nil_iff.mp hnil).1) htrim
      | cons b rest =>
        rw [hbytes, List.head?_cons, ne_eq, Option.some.injEq] at hp
        rw [hbytes, cut, if_neg hp] at hmore
        obtain ⟨tail, rfl⟩ : ∃ tail, run = b :: tail := by
          split at hmore <;> exact ⟨_, (List.cons.inj hmore).1⟩
        cases runs <;> simpa using hp

theorem names_parent? {p q : Path} (h : p.parent? = some q) (hne : q.bytes ≠ []) :
    q.isAbsolute = p.isAbsolute ∧ q.names <+: p.names.dropLast := by
  have hsegs : p.segments ≠ [] := fun hnil => by
    simp only [parent?, hnil] at h
    split at h
    · cases h
      exact hne rfl
    · cases h
  obtain rfl : q = ofSegments p.lead (trimSegments p.segments.dropLast) := by
    unfold parent? at h
    split at h
    · exact absurd (by assumption) hsegs
    · exact (Option.some.inj h).symm
  obtain ⟨last, hlast⟩ := Option.ne_none_iff_exists'.mp fun h =>
    hsegs (List.getLast?_eq_none_iff.mp h)
  obtain ⟨first, hfirst⟩ := List.getLast?_eq_some_iff.mp hlast
  obtain ⟨more, hmore⟩ := trimSegments_prefix (cut (p.bytes.drop p.lead.length))
  have hplain := getLast?_trimSegments hlast
  change p.segments ++ more = _ at hmore
  rw [hfirst, List.dropLast_concat] at hne ⊢
  rw [hfirst] at hmore
  have hlead := trimSegments_prefix first
  obtain ⟨habsolute, hnames⟩ := names_ofSegments
    (hlead.trans ⟨[last] ++ more, by rw [← List.append_assoc, hmore]⟩)
    (fun heq => getLast?_trimSegments (congrArg List.getLast? heq) rfl) hne
  refine ⟨habsolute, ?_⟩
  rw [hnames, names_eq, ← hmore, List.filter_append, List.filter_append]
  have hlast : [last].filter (· ≠ []) = [last] := by simp [hplain]
  rw [hlast, List.append_assoc, ← List.append_assoc, List.dropLast_append_of_ne_nil (by simp)]
  exact ((List.prefix_append_right_inj _).mpr (hlead.filter _)).trans (List.prefix_append _ _)

end RangeTransfer.Path
