import R4R.Path

/-!
# Sub-paths

`is_sub_path` compares the elements of two paths one by one, and the elements of a joined path.  A path that ends with
a separator after a file name has a final empty element, which the paths joined to it do not have, so it is the one
kind of directory whose joined paths are no sub-paths of it (`isSubPath_append_iff`).
-/

namespace R4R

/-- `std::mismatch`: what is left of the two ranges from the first difference on. -/
def mismatch {α : Type*} [DecidableEq α] : List α → List α → List α × List α
  | a :: as, b :: bs => if a = b then mismatch as bs else (a :: as, b :: bs)
  | as, bs => (as, bs)

/-- `is_sub_path`. -/
def isSubPath (path base : Path) : Bool := (mismatch path.parts base.parts).2.isEmpty

/-- The second range is used up exactly when it is a prefix of the first. -/
private theorem mismatch_snd_eq_nil_iff {α : Type*} [DecidableEq α] (as bs : List α) :
    (mismatch as bs).2 = [] ↔ bs <+: as := by
  induction as, bs using mismatch.induct with
  | case1 as b bs ih => simpa [mismatch] using ih
  | case2 a as b bs hne =>
    rw [mismatch, if_neg hne]
    exact ⟨fun h => (List.cons_ne_nil b bs h).elim, fun h => absurd (List.cons_prefix_cons.1 h).1.symm hne⟩
  | case3 as bs hnot =>
    cases as with
    | nil => simp [mismatch]
    | cons a as =>
      cases bs with
      | nil => simp [mismatch]
      | cons b bs => exact (hnot a as b bs rfl rfl).elim

theorem isSubPath_iff (path base : Path) : isSubPath path base = true ↔ base.parts <+: path.parts := by
  rw [isSubPath, List.isEmpty_iff, mismatch_snd_eq_nil_iff]

namespace Path

/-- `path.filename()`: the last element. -/
def filename (p : Path) : List Char := p.parts.getLast?.getD []

private theorem filenames_append_slash (a b : List Char) :
    filenames ⟨a ++ '/' :: b⟩ = filenames ⟨a⟩ ++ filenames ⟨b⟩ := by
  simp only [filenames]
  rw [List.splitOn_append_cons_self, List.filter_append]

/-- A trailing separator adds no file name. -/
private theorem filenames_slash (a : List Char) : filenames ⟨a ++ ['/']⟩ = filenames ⟨a⟩ := by
  rw [filenames_append_slash]
  exact List.append_nil _

/-- The native text of a path without a file name at its end is empty or ends with a separator. -/
private theorem native_of_not_hasFilename {p : Path} (h : p.hasFilename = false) :
    p.native = [] ∨ ∃ init, p.native = init ++ ['/'] := by
  rcases List.eq_nil_or_concat p.native with hnil | ⟨init, c, hc⟩
  · exact .inl hnil
  · right
    rw [List.concat_eq_append] at hc
    have hlast : c = '/' := by simpa [hasFilename, hc] using h
    exact ⟨init, hlast ▸ hc⟩

theorem append_of_relative {dir name : Path} (hrel : name.isAbsolute = false) :
    dir / name = if dir.hasFilename then ⟨dir.native ++ '/' :: name.native⟩ else ⟨dir.native ++ name.native⟩ := by
  change append dir name = _
  rw [append, if_neg (by simp [hrel])]

/-- Joining a relative path puts its file names after those of the directory. -/
theorem filenames_append {dir name : Path} (hrel : name.isAbsolute = false) :
    (dir / name).filenames = dir.filenames ++ name.filenames := by
  rw [append_of_relative hrel]
  cases hfile : dir.hasFilename with
  | true => exact filenames_append_slash _ _
  | false =>
    rcases native_of_not_hasFilename hfile with hnil | ⟨init, hinit⟩
    · have hdir : dir = ⟨[]⟩ := by cases dir; simpa using hnil
      rw [hdir]
      rfl
    · have hdir : dir = ⟨init ++ ['/']⟩ := by cases dir; simpa using hinit
      rw [hdir, filenames_slash]
      change filenames ⟨init ++ ['/'] ++ name.native⟩ = _
      rw [List.append_assoc]
      exact filenames_append_slash _ _

/-- Joining a relative path to a directory that is not empty keeps whether it is absolute. -/
theorem isAbsolute_append {dir name : Path} (hrel : name.isAbsolute = false) (hdir : dir.native ≠ []) :
    (dir / name).isAbsolute = dir.isAbsolute := by
  obtain ⟨c, cs, hc⟩ := List.exists_cons_of_ne_nil hdir
  rw [append_of_relative hrel]
  split <;> simp [isAbsolute, hc]

/-- A relative path with a text has a file name. -/
theorem filenames_ne_nil {name : Path} (hrel : name.isAbsolute = false) (hne : name.native ≠ []) :
    name.filenames ≠ [] := by
  obtain ⟨c, cs, hc⟩ := List.exists_cons_of_ne_nil hne
  have hslash : c ≠ '/' := by simpa [isAbsolute, hc] using hrel
  obtain ⟨s, ss, hs⟩ := List.exists_cons_of_ne_nil (List.splitOn_ne_nil '/' cs)
  have hb : (c == '/') = false := by simpa using hslash
  simp [filenames, hc, List.splitOn_cons_eq_if_modifyHead, hs, hb]

theorem nil_notMem_filenames (p : Path) : [] ∉ p.filenames := by simp [filenames]

end Path

open R4R.Path in
/-- A path joined to a directory is a sub-path of it exactly when the directory does not end with a separator after a
file name. -/
theorem isSubPath_append_iff {dir name : Path} (hne : name.native ≠ []) (hrel : name.isAbsolute = false) :
    isSubPath (dir / name) dir = true ↔ dir.hasFilename = true ∨ dir.filenames = [] := by
  rw [isSubPath_iff]
  by_cases hdir : dir.native = []
  · have hparts : dir.parts = [] := by simp [parts, isAbsolute, filenames, hdir]
    have hnames : dir.filenames = [] := by simp [filenames, hdir]
    simp [hparts, hnames]
  · have hroot := isAbsolute_append hrel hdir
    have hjoined : (dir / name).parts = (if dir.isAbsolute then [['/']] else []) ++ dir.filenames ++
        (name.filenames ++ (if !(dir / name).filenames.isEmpty && !(dir / name).hasFilename then [[]] else [])) := by
      rw [parts, hroot, filenames_append hrel, List.append_assoc, List.append_assoc, List.append_assoc]
    rw [hjoined, parts, List.prefix_append_right_inj]
    cases hfile : dir.hasFilename with
    | true => simp
    | false =>
      by_cases hnames : dir.filenames = []
      · simp [hnames]
      · -- the empty element of the directory stands against the first file name of the name
        obtain ⟨s, ss, hs⟩ := List.exists_cons_of_ne_nil (filenames_ne_nil hrel hne)
        have hsne : s ≠ [] := fun he => nil_notMem_filenames name (by simp [hs, he])
        simp [hnames, hs, hsne.symm]

example : isSubPath (Path.ofString "out" / Path.ofString "archive.tar") (Path.ofString "out") = true := by decide

end R4R
