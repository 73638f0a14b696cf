import R4R.DefaultImageFiles
import R4R.DockerfileCopy
import R4R.Lib.Ere

/-!
# The blacklist of the default image files

`DefaultImageFiles::from_image` lists the files of a container and leaves out those whose paths match a pattern.  The
patterns are written like those of a shell, as in `/dev/*`, and are used as extended regular expressions: the star
repeats the slash before it, and nothing ties an expression to the beginning of a path.  So a path is left out wherever
it contains the text of a directory (`leftOut_iff_under_iff`).
-/

namespace R4R

open Delimited Lines

/-- What `stat` says of a file. -/
structure FileStat where
  user : List Char
  group : List Char
  size : Nat
  mode : Nat
  user_newline : '\n' ∉ user
  group_newline : '\n' ∉ group

/-- A container of an image: what `find` prints, and what `stat` and `sha1sum` say of a file. -/
structure Container where
  find : List Char
  stat : List Char → Option FileStat
  sha1sum : List Char → List Char
  sha1sum_newline : ∀ file, '\n' ∉ sha1sum file

namespace Container

/-- The variable `stat` of the script. -/
def statText (c : Container) (file : List Char) : List Char :=
  kDelimUtf8.intercalate (match c.stat file with
    | some s => [s.user, s.group, Nat.toDigits 10 s.size, Nat.toDigits 8 s.mode]
    | none => List.replicate 4 "error".toList)

/-- The line that the script prints for a file. -/
def line (c : Container) (file : List Char) : List Char :=
  file ++ kDelimUtf8 ++ c.statText file ++ kDelimUtf8 ++ c.sha1sum file

end Container

/-- `grep -vE`: the lines in which the expression does not occur. -/
def grepV (pattern : List Char) (lines : List (List Char)) : List (List Char) :=
  match Ere.read pattern with
  | some e => lines.filter fun l => !e.occurs l
  | none => []

namespace DefaultImageFiles

/-- `kBlacklistPatterns` -/
def kBlacklistPatterns : List (List Char) := ["/dev/*".toList, "/sys/*".toList, "/proc/*".toList]

/-- What the script of `from_image` prints. -/
def scriptOutput (c : Container) (bfPattern : List Char) : List Char :=
  unlines ((grepV bfPattern (getLines c.find)).map c.line)

/-- `DefaultImageFiles::from_image`, when the container has run with success. -/
def fromImage (order : PathSort) (c : Container) (blacklistPatterns : List (List Char)) : DefaultImageFiles :=
  fromStream order (scriptOutput c (stringJoin ['|'] blacklistPatterns))

end DefaultImageFiles

/-! ### What is listed -/

/-- A file of the container is read under a path: its own one, unless that contains a delimiter. -/
def Container.Shows (c : Container) (file path : List Char) : Prop :=
  ∃ info, DefaultImageFiles.parseLine (c.line file) = some info ∧ info.path = path

private theorem Container.newline_notMem_line (c : Container) {file : List Char} (h : '\n' ∉ file) :
    '\n' ∉ c.line file := by
  have hdelim : '\n' ∉ kDelimUtf8 := by decide
  have hdigits : ∀ b n : Nat, 0 < b → b ≤ 10 → '\n' ∉ Nat.toDigits b n := fun b n hb hle hmem =>
    absurd (Nat.isDigit_of_mem_toDigits hb hle hmem) (by decide)
  have hstat : '\n' ∉ c.statText file := by
    rw [statText]
    cases c.stat file with
    | none => decide
    | some s =>
      have hsize := hdigits 10 s.size (by decide) (by decide)
      have hmode := hdigits 8 s.mode (by decide) (by decide)
      simp [s.user_newline, s.group_newline, hdelim, hsize, hmode]
  simp only [line, List.mem_append, not_or]
  exact ⟨⟨⟨⟨h, hdelim⟩, hstat⟩, hdelim⟩, c.sha1sum_newline file⟩

private theorem Container.Shows.prefix_of {c : Container} {file path : List Char} (h : c.Shows file path) :
    path <+: file := by
  obtain ⟨info, hparse, rfl⟩ := h
  simp only [DefaultImageFiles.parseLine] at hparse
  split at hparse
  · rename_i path user group sizeStr permStr sha1 more hsplit
    split at hparse
    · cases hparse
    · obtain ⟨size, -, hparse⟩ := Option.bind_eq_some_iff.1 hparse
      obtain ⟨perm, -, rfl⟩ := Option.map_eq_some_iff.1 hparse
      rw [Container.line, List.append_assoc, List.append_assoc, List.append_assoc] at hsplit
      exact prefix_of_split kDelimUtf8_ne_nil unbordered_kDelimUtf8 hsplit
  · cases hparse

private theorem DefaultImageFiles.mem_paths_fromImage {order : PathSort} {c : Container} {patterns : List (List Char)}
    {e : Ere} (he : Ere.read (stringJoin ['|'] patterns) = some e) {p : List Char} :
    p ∈ (fromImage order c patterns).paths ↔ ∃ q ∈ getLines c.find, c.Shows q p ∧ ¬ e.Occurs q := by
  have hlines : getLines (scriptOutput c (stringJoin ['|'] patterns)) =
      ((getLines c.find).filter fun l => !e.occurs l).map c.line := by
    rw [scriptOutput, grepV, he]
    refine getLines_unlines fun l hl => ?_
    obtain ⟨q, hq, rfl⟩ := List.mem_map.1 hl
    exact c.newline_notMem_line (newline_notMem_of_mem_getLines (List.mem_of_mem_filter hq))
  have hfiles : ∀ info, info ∈ (fromImage order c patterns).files ↔
      ∃ q ∈ getLines c.find, ¬ e.Occurs q ∧ parseLine (c.line q) = some info := by
    intro info
    rw [fromImage, fromStream, (order.perm _).mem_iff, List.mem_filterMap, hlines]
    simp [← Ere.occurs_iff, and_assoc]
  rw [paths, List.mem_map]
  simp only [hfiles, Container.Shows]
  constructor
  · rintro ⟨info, ⟨q, hq, hoccurs, hparse⟩, hpath⟩
    exact ⟨q, hq, ⟨info, hparse, hpath⟩, hoccurs⟩
  · rintro ⟨q, hq, ⟨info, hparse, hpath⟩, hoccurs⟩
    exact ⟨info, ⟨q, hq, hoccurs, hparse⟩, hpath⟩

/-! ### Directories -/

/-- The pattern of a directory. -/
def dirPattern (dir : List Char) : List Char := dir ++ "/*".toList

/-- The path lies under one of the directories. -/
def Under (dirs : List (List Char)) (p : List Char) : Prop := ∃ dir ∈ dirs, dir ++ ['/'] <+: p

/-- The path is left out of the default image files. -/
def LeftOut (order : PathSort) (c : Container) (dirs : List (List Char)) (p : List Char) : Prop :=
  p ∉ (DefaultImageFiles.fromImage order c (dirs.map dirPattern)).paths

/-- The joined pattern occurs where the expression of a directory does. -/
private theorem read_join {P : List Char → List Char → Prop} (dirs : List (List Char)) (hne : dirs ≠ [])
    (h : ∀ dir ∈ dirs, ∃ f, Ere.read dir = some f ∧ ∀ q, f.Occurs q ↔ P dir q) :
    ∃ e, Ere.read (stringJoin ['|'] (dirs.map dirPattern)) = some e ∧ ∀ q, e.Occurs q ↔ ∃ dir ∈ dirs, P dir q := by
  induction dirs with
  | nil => exact absurd rfl hne
  | cons dir dirs ih =>
    obtain ⟨hdir, hdirs⟩ := List.forall_mem_cons.1 h
    obtain ⟨f, hf, hoccurs⟩ := hdir
    obtain ⟨g, hg, hstar⟩ := Ere.read_star hf (show Ere.ordinary '/' = true by decide)
    cases dirs with
    | nil =>
      refine ⟨g, ?_, ?_⟩
      · simpa [stringJoin, dirPattern] using hg
      · intro q
        rw [hstar, hoccurs]
        simp
    | cons next dirs =>
      obtain ⟨rest, hrest, hjoin⟩ := ih (List.cons_ne_nil _ _) hdirs
      obtain ⟨e, he, hbar⟩ := Ere.read_bar hg hrest
      refine ⟨e, ?_, ?_⟩
      · have hsplit : stringJoin ['|'] ((dir :: next :: dirs).map dirPattern) =
            dir ++ ['/', '*'] ++ '|' :: stringJoin ['|'] ((next :: dirs).map dirPattern) := by
          simp [stringJoin, dirPattern]
        rw [hsplit, he]
      · intro q
        rw [hbar, hstar, hoccurs, hjoin]
        simp only [List.mem_cons, or_and_right, exists_or, exists_eq_left]

private theorem occurs_join {P : List Char → List Char → Prop} {dirs : List (List Char)} {e : Ere}
    (he : Ere.read (stringJoin ['|'] (dirs.map dirPattern)) = some e)
    (h : ∀ dir ∈ dirs, ∃ f, Ere.read dir = some f ∧ ∀ q, f.Occurs q ↔ P dir q) (q : List Char) :
    e.Occurs q ↔ dirs = [] ∨ ∃ dir ∈ dirs, P dir q := by
  rcases eq_or_ne dirs [] with rfl | hne
  · obtain rfl : Ere.empty = e := Option.some.inj he
    exact iff_of_true ⟨0, 0, Nat.zero_le _, rfl⟩ (.inl rfl)
  · obtain ⟨e', he', hjoin⟩ := read_join dirs hne h
    obtain rfl := Option.some.inj (he.symm.trans he')
    rw [hjoin, or_iff_right hne]

private theorem leftOut_iff {order : PathSort} {c : Container} {dirs : List (List Char)} {e : Ere}
    (he : Ere.read (stringJoin ['|'] (dirs.map dirPattern)) = some e) {p : List Char} :
    LeftOut order c dirs p ↔ ∀ q ∈ getLines c.find, c.Shows q p → e.Occurs q := by
  rw [LeftOut, DefaultImageFiles.mem_paths_fromImage he]
  simp

/-- A path under a directory contains the text of the directory. -/
private theorem Under.contains {dirs : List (List Char)} {p q : List Char} (h : Under dirs p) (hq : p <+: q) :
    ∃ dir ∈ dirs, dir <:+: q := by
  obtain ⟨dir, hdir, hp⟩ := h
  exact ⟨dir, hdir, ((List.prefix_append dir ['/']).trans (hp.trans hq)).isInfix⟩

/-- The joined pattern occurs where the expression of a directory does, wherever that is in the line.  For directories
without special characters, a path that lies under none of them is kept exactly when a line that shows it contains none
of their texts. -/
theorem leftOut_iff_under_iff (order : PathSort) (c : Container) (dirs : List (List Char)) {e : Ere}
    (he : Ere.read (stringJoin ['|'] (dirs.map dirPattern)) = some e) (p : List Char) :
    ((LeftOut order c dirs p ↔ Under dirs p) ↔
        (Under dirs p → ∀ q ∈ getLines c.find, c.Shows q p → e.Occurs q) ∧
          (¬ Under dirs p → ∃ q ∈ getLines c.find, c.Shows q p ∧ ¬ e.Occurs q)) ∧
      ((∀ dir ∈ dirs, (Ere.read dir).isSome = true) →
        ∀ q, e.Occurs q ↔ dirs = [] ∨ ∃ dir ∈ dirs, ∃ f, Ere.read dir = some f ∧ f.Occurs q) ∧
      ((∀ dir ∈ dirs, ∀ ch ∈ dir, Ere.ordinary ch = true) →
        ((LeftOut order c dirs p ↔ Under dirs p) ↔ Under dirs p ∨
          dirs ≠ [] ∧ ∃ q ∈ getLines c.find, c.Shows q p ∧ ∀ dir ∈ dirs, ¬ dir <:+: q)) := by
  have hleft := @leftOut_iff order c dirs e he p
  refine ⟨?_, ?_, ?_⟩
  · rw [hleft]
    by_cases hunder : Under dirs p
    · simp [hunder]
    · simp [hunder]
  · intro hread
    refine occurs_join he ?_
    intro dir hdir
    obtain ⟨f, hf⟩ := Option.isSome_iff_exists.1 (hread dir hdir)
    refine ⟨f, hf, fun q => ?_⟩
    simp [hf]
  · intro hordinary
    have hoccurs := occurs_join he fun dir hdir => Ere.read_ordinary (hordinary dir hdir)
    rw [hleft]
    simp only [hoccurs]
    by_cases hunder : Under dirs p
    · simp only [hunder, iff_true, true_or]
      intro q _ hshows
      exact .inr (hunder.contains hshows.prefix_of)
    · simp only [hunder, iff_false, false_or]
      constructor
      · intro hkept
        push Not at hkept
        obtain ⟨q, hq, hshows, hne, hnone⟩ := hkept
        exact ⟨hne, q, hq, hshows, hnone⟩
      · rintro ⟨hne, q, hq, hshows, hnone⟩ hall
        rcases hall q hq hshows with hnil | ⟨dir, hdir, hinfix⟩
        · exact hne hnil
        · exact hnone dir hdir hinfix

def Container.emptySha1 : List Char := "da39a3ee5e6b4b0d3255bfef95601890afd80709".toList

/-- A container whose files are empty and belong to root. -/
def Container.plain (find : List Char) : Container where
  find := find
  stat _ := some ⟨"root".toList, "root".toList, 0, 0o644, by decide, by decide⟩
  sha1sum _ := emptySha1
  sha1sum_newline _ := by decide

/-- The directories of the default patterns. -/
def defaultDirs : List (List Char) := ["/dev".toList, "/sys".toList, "/proc".toList]

private theorem kBlacklistPatterns_eq : DefaultImageFiles.kBlacklistPatterns = defaultDirs.map dirPattern := rfl

private theorem ordinary_of_mem_defaultDirs : ∀ dir ∈ defaultDirs, ∀ ch ∈ dir, Ere.ordinary ch = true := by
  have hall : defaultDirs.all (·.all Ere.ordinary) = true := by decide
  exact fun dir hdir => List.all_eq_true.1 (List.all_eq_true.1 hall dir hdir)

private theorem exists_read_defaultDirs : ∃ e, Ere.read (stringJoin ['|'] (defaultDirs.map dirPattern)) = some e ∧
    ∀ q, e.Occurs q ↔ ∃ dir ∈ defaultDirs, dir <:+: q :=
  read_join defaultDirs (List.cons_ne_nil _ _) fun dir hdir => Ere.read_ordinary (ordinary_of_mem_defaultDirs dir hdir)

/-- A file outside the directories, whose path contains the text of none. -/
theorem leftOut_iff_under_iff_passwd :
    LeftOut .insertion (.plain "/dev/null\n/etc/passwd\n".toList) defaultDirs "/etc/passwd".toList ↔
      Under defaultDirs "/etc/passwd".toList := by
  obtain ⟨e, he, -⟩ := exists_read_defaultDirs
  have hiff := (leftOut_iff_under_iff .insertion (.plain "/dev/null\n/etc/passwd\n".toList) defaultDirs he
    "/etc/passwd".toList).2.2 ordinary_of_mem_defaultDirs
  have hline : (Container.plain "/dev/null\n/etc/passwd\n".toList).line "/etc/passwd".toList =
      DefaultImageFiles.lineOf ⟨"/etc/passwd".toList, "root".toList, "root".toList, 644, 0, Container.emptySha1⟩ := rfl
  have hshows : (Container.plain "/dev/null\n/etc/passwd\n".toList).Shows "/etc/passwd".toList "/etc/passwd".toList :=
    ⟨_, hline ▸ DefaultImageFiles.parseLine_lineOf ⟨by decide +kernel, by decide +kernel, by decide +kernel⟩, rfl⟩
  exact hiff.2 (.inr ⟨List.cons_ne_nil _ _, "/etc/passwd".toList, by decide, hshows, by decide +kernel⟩)

/-- A file of a package whose name begins like that of a directory. -/
theorem not_leftOut_iff_under_devtools :
    DefaultImageFiles.kBlacklistPatterns = defaultDirs.map dirPattern ∧
      "/usr/lib/R/library/devtools/DESCRIPTION".toList ∈
        getLines (Container.plain "/usr/lib/R/library/devtools/DESCRIPTION\n".toList).find ∧
      ¬ (LeftOut .insertion (.plain "/usr/lib/R/library/devtools/DESCRIPTION\n".toList) defaultDirs
            "/usr/lib/R/library/devtools/DESCRIPTION".toList ↔
          Under defaultDirs "/usr/lib/R/library/devtools/DESCRIPTION".toList) := by
  obtain ⟨e, he, hoccurs⟩ := exists_read_defaultDirs
  refine ⟨kBlacklistPatterns_eq, by decide, ?_⟩
  intro hiff
  have hdev : "/dev".toList <:+: "/usr/lib/R/library/devtools/DESCRIPTION".toList := by decide +kernel
  have hleft : LeftOut .insertion (.plain "/usr/lib/R/library/devtools/DESCRIPTION\n".toList) defaultDirs
      "/usr/lib/R/library/devtools/DESCRIPTION".toList := by
    refine (leftOut_iff he).2 ?_
    intro q _ hshows
    exact (hoccurs q).2 ⟨_, List.mem_cons_self, hdev.trans hshows.prefix_of.isInfix⟩
  obtain ⟨dir, hdir, hprefix⟩ := hiff.1 hleft
  revert dir
  decide +kernel

end R4R
