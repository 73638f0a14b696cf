import R4R.PathLookup
import R4R.SymlinkResolver

/-!
# Joined paths

The elements of joined paths, and of the names that `lexically_relative` and a join give to a path below one directory
in another one.
-/

namespace R4R

namespace Path

variable {p q dir name : Path}

/-- The elements joined one after another. -/
def joinAll (p : Path) (elems : List (List Char)) : Path := elems.foldl (fun p elem => p / (⟨elem⟩ : Path)) p

theorem components_eq (p : Path) : p.components = (if p.isAbsolute then [['/']] else []) ++ p.filenames := by
  have hnames : (p.filenames.filter fun s => !s.isEmpty) = p.filenames := by
    rw [List.filter_eq_self]
    rintro (_ | _) hs
    · exact absurd hs (nil_notMem_filenames p)
    · rfl
  unfold components parts
  rw [List.filter_append, List.filter_append, hnames]
  split <;> split <;> simp

/-- Without a separator at its end a path has no empty element. -/
theorem components_eq_of_hasFilename (h : p.hasFilename = true) : p.components = p.parts := by
  rw [components_eq, parts, h]
  simp

theorem nil_mem_parts (hnames : p.filenames ≠ []) (h : p.hasFilename = false) : [] ∈ p.parts := by
  simp [parts, hnames, h]

theorem of_mem_filenames {s : List Char} (h : s ∈ p.filenames) : s ≠ [] ∧ '/' ∉ s :=
  ⟨fun he => nil_notMem_filenames p (he ▸ h), slash_notMem_filenames h⟩

/-- A path with the non-empty elements of another one has no other elements. -/
theorem components_eq_parts (h : q.parts = p.components) : q.components = q.parts := by
  rw [components, h, components, List.filter_filter]
  simp

/-- A file name is one more element of a path without a separator at its end. -/
theorem parts_append_name {name : List Char} (hne : name ≠ []) (hslash : '/' ∉ name) (hp : [] ∉ p.parts) :
    (p / (⟨name⟩ : Path)).parts = p.parts ++ [name] := by
  obtain ⟨c, cs, rfl⟩ := List.exists_cons_of_ne_nil hne
  have hrel : (⟨c :: cs⟩ : Path).isAbsolute = false := by
    have hc : c ≠ '/' := fun he => hslash (he ▸ List.mem_cons_self ..)
    simp [isAbsolute, hc]
  have hnames : (⟨c :: cs⟩ : Path).filenames = [c :: cs] := by
    simp [filenames, List.splitOn_eq_singleton hslash]
  have hfile : (⟨c :: cs⟩ : Path).hasFilename = true := by
    have hlast : (c :: cs).getLast? ≠ some '/' := fun he => hslash (List.mem_of_getLast? he)
    simp [hasFilename, hlast]
  have hroot : (p / (⟨c :: cs⟩ : Path)).isAbsolute = p.isAbsolute := by
    by_cases hp : p.native = []
    · obtain rfl : p = ⟨[]⟩ := by cases p; simpa using hp
      rw [append_of_relative hrel]
      exact hrel
    · exact isAbsolute_append hrel hp
  have hp' : p.parts = (if p.isAbsolute then [['/']] else []) ++ p.filenames := by
    unfold parts at hp ⊢
    split at hp <;> simp_all
  rw [hp', parts, hroot, filenames_append hrel, hasFilename_append hrel hne, hnames, hfile]
  simp

theorem parts_joinAll (names : List (List Char)) : ∀ {p : Path}, [] ∉ p.parts →
    (∀ name ∈ names, name ≠ [] ∧ '/' ∉ name) → (p.joinAll names).parts = p.parts ++ names := by
  induction names with
  | nil => intro p _ _; exact (List.append_nil _).symm
  | cons name names ih =>
    intro p hp hnames
    obtain ⟨hne, hslash⟩ := hnames name (List.mem_cons_self ..)
    have hparts := parts_append_name hne hslash hp
    have hnil : [] ∉ (p / (⟨name⟩ : Path)).parts := by
      rw [hparts, List.mem_append, not_or]
      exact ⟨hp, by simpa using hne.symm⟩
    change ((p / (⟨name⟩ : Path)).joinAll names).parts = _
    rw [ih hnil fun n hn => hnames n (List.mem_cons_of_mem _ hn), hparts, List.append_assoc]
    rfl

/-- The elements of a path, joined again, are its non-empty elements. -/
theorem parts_joinAll_components (p : Path) : ((⟨[]⟩ : Path).joinAll p.components).parts = p.components := by
  rw [components_eq]
  split
  · exact parts_joinAll p.filenames (p := ⟨['/']⟩) (by decide) fun _ => of_mem_filenames
  · exact parts_joinAll p.filenames (p := ⟨[]⟩) (by decide) fun _ => of_mem_filenames

/-! ### Elements of a join -/

theorem native_eq_nil_iff : p.native = [] ↔ p.parts = [] := by
  constructor
  · intro h
    simp [parts, filenames, isAbsolute, h]
  · intro h
    by_contra hne
    cases habs : p.isAbsolute with
    | true =>
      have hroot := isAbsolute_iff_mem_parts.1 habs
      rw [h] at hroot
      cases hroot
    | false =>
      have hnames := filenames_ne_nil habs hne
      simp [parts, hnames] at h

/-- A relative name has more than a separator at its end. -/
theorem parts_ne_of_relative (hrel : name.isAbsolute = false) (hne : name.native ≠ []) :
    name.parts ≠ [] ∧ name.parts ≠ [[]] := by
  refine ⟨fun h => hne (native_eq_nil_iff.2 h), fun h => ?_⟩
  obtain ⟨f, fs, hnames⟩ := List.exists_cons_of_ne_nil (filenames_ne_nil hrel hne)
  rw [parts, hrel, hnames] at h
  obtain rfl : f = [] := (List.cons.inj h).1
  exact nil_notMem_filenames name (by rw [hnames]; exact List.mem_cons_self ..)

/-- A relative name puts its elements behind the non-empty ones of a directory. -/
theorem parts_append (hdir : dir.isAbsolute = true) (hrel : name.isAbsolute = false) (hne : name.native ≠ []) :
    (dir / name).parts = dir.components ++ name.parts := by
  have hnames := filenames_ne_nil hrel hne
  rw [parts, isAbsolute_append hrel (native_ne_nil_of_isAbsolute hdir), filenames_append hrel,
    hasFilename_append hrel hne, components_eq, parts, hrel]
  simp [hnames]

theorem parts_append_nil (hp : p.hasFilename = true) (hnames : p.filenames ≠ []) :
    (p / (⟨[]⟩ : Path)).parts = p.parts ++ [[]] := by
  have hfilenames : (p / (⟨[]⟩ : Path)).filenames = p.filenames := by
    rw [filenames_append rfl]
    exact List.append_nil _
  have hne : p.native ≠ [] := by
    intro he
    simp [hasFilename, he] at hp
  rw [parts, isAbsolute_append rfl hne, hfilenames, hasFilename_append_nil, parts, hp]
  simp [hnames]

/-- The elements behind the first ones of a path: file names, and an empty element for a separator at the end. -/
private theorem eq_append_of_parts (hp : p.isAbsolute = true) {first rest : List (List Char)} (hne : first ≠ [])
    (h : p.parts = first ++ rest) : ∃ names trailing, rest = names ++ trailing ∧
      (∀ s ∈ names, s ≠ [] ∧ '/' ∉ s) ∧ (trailing = [] ∨ trailing = [[]]) := by
  obtain ⟨f, fs, rfl⟩ := List.exists_cons_of_ne_nil hne
  rw [parts, if_pos hp] at h
  have htrailing : ∀ c : Bool,
      (if c then [([] : List Char)] else []) = [] ∨ (if c then [([] : List Char)] else []) = [[]] := by
    rintro (_ | _)
    · exact .inl rfl
    · exact .inr rfl
  specialize htrailing (!p.filenames.isEmpty && !p.hasFilename)
  generalize (if !p.filenames.isEmpty && !p.hasFilename then [([] : List Char)] else []) = trailing at h htrailing
  rcases List.append_eq_append_iff.1 (List.cons.inj h).2 with ⟨as, -, has⟩ | ⟨names, hnames, hrest⟩
  · -- only the separator at the end is left
    refine ⟨[], rest, rfl, fun _ hs => absurd hs List.not_mem_nil, ?_⟩
    rcases htrailing with rfl | rfl
    · exact .inl (List.append_eq_nil_iff.1 has.symm).2
    · rcases List.append_eq_singleton_iff.1 has.symm with ⟨-, hrest⟩ | ⟨-, hrest⟩
      · exact .inr hrest
      · exact .inl hrest
  · refine ⟨names, trailing, hrest, ?_, htrailing⟩
    intro s hs
    have hfilenames : p.filenames = fs ++ names := hnames
    exact of_mem_filenames (p := p) (by rw [hfilenames]; exact List.mem_append_right _ hs)

/-- File names joined to the empty path, with a separator at the end or without one. -/
private theorem parts_joinAll_below {names trailing : List (List Char)} (hnames : ∀ s ∈ names, s ≠ [] ∧ '/' ∉ s)
    (hne : names ≠ []) (htrailing : trailing = [] ∨ trailing = [[]]) :
    ((⟨[]⟩ : Path).joinAll (names ++ trailing)).parts = names ++ trailing := by
  have hjoined : ((⟨[]⟩ : Path).joinAll names).parts = names := parts_joinAll names (p := ⟨[]⟩) (by decide) hnames
  rcases htrailing with rfl | rfl
  · rwa [List.append_nil]
  · have hsplit : (⟨[]⟩ : Path).joinAll (names ++ [[]]) = (⟨[]⟩ : Path).joinAll names / (⟨[]⟩ : Path) := by
      simp [joinAll]
    generalize (⟨[]⟩ : Path).joinAll names = joined at hjoined hsplit
    have hrel : joined.isAbsolute = false := by
      by_contra habs
      have hmem := isAbsolute_iff_mem_parts.1 (by simpa using habs)
      rw [hjoined] at hmem
      exact (hnames _ hmem).2 (List.mem_cons_self ..)
    have hfilenames : joined.filenames ≠ [] := by
      intro he
      rw [parts, hrel, he] at hjoined
      exact hne (by simpa using hjoined.symm)
    have hfile : joined.hasFilename = true := by
      by_contra hfile
      rw [Bool.not_eq_true] at hfile
      have hnil : [] ∈ joined.parts := by
        simp [parts, hfilenames, hfile]
      rw [hjoined] at hnil
      exact (hnames _ hnil).1 rfl
    rw [hsplit, parts_append_nil hfile hfilenames, hjoined]

private theorem mismatch_append {α : Type*} [DecidableEq α] (bs rest : List α) :
    mismatch (bs ++ rest) bs = (rest, []) := by
  induction bs with
  | nil => cases rest <;> rfl
  | cons b bs ih => simpa [mismatch] using ih

private theorem lexicallyRelative_eq {b : Path} (habs : p.isAbsolute = b.isAbsolute) {rest : List (List Char)}
    (h : p.parts = b.parts ++ rest) : p.lexicallyRelative b =
      if rest = [] ∨ rest.head? = some [] then ⟨['.']⟩ else (⟨[]⟩ : Path).joinAll rest := by
  unfold lexicallyRelative
  rw [if_neg (by simp [habs]), h, mismatch_append]
  cases rest with
  | nil => rfl
  | cons elem rest => by_cases helem : elem = [] <;> simp [helem, joinAll]; rfl

/-- The elements of a name below a directory; the directory itself is its own entry. -/
def below (rest : List (List Char)) : List (List Char) := if rest = [] ∨ rest = [[]] then [['.']] else rest

/-- A name below the directory `b`, taken below the directory `a` instead. -/
theorem parts_append_lexicallyRelative {a b : Path} (ha : a.isAbsolute = true) (hb : b.isAbsolute = true)
    {rest : List (List Char)} (h : p.parts = b.parts ++ rest) :
    (p.lexicallyRelative b).isAbsolute = false ∧ (p.lexicallyRelative b).native ≠ [] ∧
      (a / p.lexicallyRelative b).parts = a.components ++ below rest := by
  have hroot := isAbsolute_iff_mem_parts.1 hb
  have hp : p.isAbsolute = true := isAbsolute_iff_mem_parts.2 (h ▸ List.mem_append_left _ hroot)
  have hne : b.parts ≠ [] := List.ne_nil_of_mem hroot
  obtain ⟨names, trailing, rfl, hnames, htrailing⟩ := eq_append_of_parts hp hne h
  rw [lexicallyRelative_eq (hp.trans hb.symm) h, below]
  by_cases hnil : names = []
  · -- the directory itself
    subst hnil
    have hdot : [] ++ trailing = [] ∨ ([] ++ trailing).head? = some [] := by
      rcases htrailing with rfl | rfl
      · exact .inl rfl
      · exact .inr rfl
    rw [if_pos hdot, List.nil_append, if_pos htrailing]
    exact ⟨rfl, List.cons_ne_nil _ _, parts_append ha rfl (List.cons_ne_nil _ _)⟩
  · have hparts := parts_joinAll_below hnames hnil htrailing
    have hrel : ((⟨[]⟩ : Path).joinAll (names ++ trailing)).isAbsolute = false := by
      by_contra habs
      have hmem := isAbsolute_iff_mem_parts.1 (by simpa using habs)
      rw [hparts] at hmem
      rcases List.mem_append.1 hmem with hmem | hmem
      · exact (hnames _ hmem).2 (List.mem_cons_self ..)
      · rcases htrailing with rfl | rfl <;> simp at hmem
    have hnative : ((⟨[]⟩ : Path).joinAll (names ++ trailing)).native ≠ [] := by
      intro he
      have hempty : ((⟨[]⟩ : Path).joinAll (names ++ trailing)).parts = [] := by
        simp [parts, filenames, isAbsolute, he]
      rw [hparts] at hempty
      exact hnil (List.append_eq_nil_iff.1 hempty).1
    obtain ⟨n, ns, rfl⟩ := List.exists_cons_of_ne_nil hnil
    have hn := (hnames n (List.mem_cons_self ..)).1
    rw [if_neg (by simp [hn]), if_neg (by simp [hn]), parts_append ha hrel hnative, hparts]
    exact ⟨hrel, hnative, rfl⟩

end Path

/-- A candidate is the name below the one directory of a file below the other directory. -/
theorem SymlinkResolver.test_below {q : FileQueries} {p a b c : Path} (ha : a.isAbsolute = true)
    (hb : b.isAbsolute = true) (h : test q p a b = some c) :
    ∃ elems, p.parts = b.parts ++ elems ∧ c.isAbsolute = true ∧ c.parts = a.components ++ Path.below elems ∧
      q.existsAt c = .ok true ∧ q.equivalent c p = .ok true := by
  obtain ⟨⟨elems, hp⟩, rfl, hexists, hequivalent⟩ := test_eq_some_iff.1 h
  obtain ⟨hrel, -, hparts⟩ := Path.parts_append_lexicallyRelative ha hb hp.symm
  exact ⟨elems, hp.symm, Path.isAbsolute_join ha _, hparts, hexists, hequivalent⟩

end R4R
