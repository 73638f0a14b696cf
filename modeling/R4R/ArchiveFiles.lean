import R4R.AliasSoundness
import R4R.DockerfileCopy
import R4R.Lib.TarList
import R4R.TracedSymlinks

/-!
# The files of the archive

`DockerFileBuilderTask::copy_files` lists the files that `tar` puts in the archive: the files to be copied, behind each
symlink among them its text, and the traced symlinks.  The text is listed as it stands, although it is looked up in the
directory of the symlink, and each path has a line of its own, whatever characters it has.  So `tar` reads the listed
paths from the list, absolute paths with the target of every copied symlink among them, exactly when the copied symlinks
have absolute texts and no path has a newline or an escape of `tar` (`archiveFiles_complete_iff`).
-/

namespace R4R

open FileTree

namespace DockerFileBuilderTask

/-- One file in the loop of `copy_files`: the files and the directories of results so far. -/
def collectStep (q : FileQueries) (acc : List Path × List Path) (e : Path × FileStatus) :
    Except String (List Path × List Path) :=
  match e.2 with
  | .result => .ok (acc.1, acc.2 ++ [e.1.parentPath])
  | .copy => do
    if ← q.isSymlink e.1 then return (acc.1 ++ [e.1, ← q.readSymlink e.1], acc.2)
    else return (acc.1 ++ [e.1], acc.2)
  | .ignoreDidNotExistBefore => .ok acc
  | .ignoreNoLongerExist => .ok acc
  | .ignoreNotAccessible => .ok acc
  | .ignoreDirectory => .ok acc

/-- `files` and `empty_dirs` of `copy_files`. -/
def collectFiles (q : FileQueries) (m : TraceManifest) : Except String (List Path × List Path) := do
  let (files, emptyDirs) ← m.copyFiles.entries.foldlM (collectStep q) ([], [])
  return (files ++ m.symlinks, emptyDirs)

/-- `std::sort` of the files. -/
def sortPaths (files : List Path) : List Path := files.insertionSort (· ≤ ·)

/-- The files that `copy_files` passes to `create_tar_archive`. -/
def archiveFiles (q : FileQueries) (m : TraceManifest) : Except String (List Path) :=
  (collectFiles q m).map fun r => sortPaths r.1

/-- The file list that `create_tar_archive` writes for `tar`. -/
def fileList (files : List Path) : List Char := Lines.unlines (files.map Path.native)

/-- What `copy_files` lists: the files to be copied, the texts of the symlinks among them, and the traced symlinks. -/
def IsListed (q : FileQueries) (m : TraceManifest) (n : Path) : Prop :=
  (∃ path, (path, .copy) ∈ m.copyFiles.entries ∧
    (n = path ∨ q.isSymlink path = .ok true ∧ q.readSymlink path = .ok n)) ∨ n ∈ m.symlinks

section Collect

variable {q : FileQueries} {m : TraceManifest} {acc acc' : List Path × List Path} {e : Path × FileStatus}

/-- What one entry adds to the files. -/
private theorem mem_collectStep (h : collectStep q acc e = .ok acc') (n : Path) : n ∈ acc'.1 ↔
    n ∈ acc.1 ∨ e.2 = .copy ∧ (n = e.1 ∨ q.isSymlink e.1 = .ok true ∧ q.readSymlink e.1 = .ok n) := by
  obtain ⟨path, status⟩ := e
  cases status with
  | copy =>
    obtain ⟨b, hb, h⟩ := Except.bind_eq_ok h
    cases b with
    | false =>
      obtain rfl := Except.ok.inj h
      simp [hb]
    | true =>
      obtain ⟨text, htext, h⟩ := Except.bind_eq_ok h
      obtain rfl := Except.ok.inj h
      simp [hb, htext, eq_comm]
  | result =>
    obtain rfl := Except.ok.inj h
    simp
  | ignoreDidNotExistBefore | ignoreNoLongerExist | ignoreNotAccessible | ignoreDirectory =>
    obtain rfl := Except.ok.inj h
    simp

theorem mem_foldlM_collectStep (entries : List (Path × FileStatus)) : ∀ {acc acc' : List Path × List Path},
    entries.foldlM (collectStep q) acc = .ok acc' → ∀ n, n ∈ acc'.1 ↔ n ∈ acc.1 ∨ ∃ e ∈ entries, e.2 = .copy ∧
      (n = e.1 ∨ q.isSymlink e.1 = .ok true ∧ q.readSymlink e.1 = .ok n) := by
  induction entries with
  | nil =>
    intro acc acc' h n
    obtain rfl := Except.ok.inj h
    simp
  | cons e entries ih =>
    intro acc acc' h n
    rw [List.foldlM_cons] at h
    obtain ⟨acc₁, hstep, h⟩ := Except.bind_eq_ok h
    rw [ih h, mem_collectStep hstep, or_assoc, List.exists_mem_cons_iff]

/-- The files of the archive: the copied files, the texts of the symlinks among them, and the traced symlinks. -/
theorem mem_archiveFiles {files : List Path} (h : archiveFiles q m = .ok files) (n : Path) : n ∈ files ↔
    (∃ path, (path, .copy) ∈ m.copyFiles.entries ∧
      (n = path ∨ q.isSymlink path = .ok true ∧ q.readSymlink path = .ok n)) ∨ n ∈ m.symlinks := by
  unfold archiveFiles collectFiles at h
  cases hfold : m.copyFiles.entries.foldlM (collectStep q) ([], []) with
  | error what =>
    rw [hfold] at h
    cases h
  | ok acc =>
    rw [hfold] at h
    obtain rfl := Except.ok.inj h
    have hsort : ∀ l : List Path, n ∈ sortPaths l ↔ n ∈ l := fun l => List.mem_insertionSort _
    rw [hsort, List.mem_append, mem_foldlM_collectStep _ hfold]
    simp

end Collect

/-- `tar` reads the listed paths from the file list; all of them are absolute, and each copied symlink is there with the
path of its target. -/
structure IsComplete (q : FileQueries) (m : TraceManifest) (files : List Path) : Prop where
  read : TarList.names (fileList files) = files.map Path.native
  absolute : ∀ name ∈ TarList.names (fileList files), (⟨name⟩ : Path).isAbsolute = true
  targets : ∀ link, (link, .copy) ∈ m.copyFiles.entries → q.isSymlink link = .ok true →
    link.native ∈ TarList.names (fileList files) ∧ ∃ text, q.readSymlink link = .ok text ∧
      (link.parentPath.located text).native ∈ TarList.names (fileList files)

/-- For a manifest of absolute paths the file list is complete exactly when the copied symlinks have absolute texts and
no listed path has a newline or an escape of `tar`. -/
theorem archiveFiles_complete_iff (fs : LinkedFiles) (cwd : Location (List Char)) {m : TraceManifest}
    (hfiles : ∀ e ∈ m.copyFiles.entries, e.1.isAbsolute = true) (hlinks : ∀ p ∈ m.symlinks, p.isAbsolute = true)
    {files : List Path} (h : archiveFiles (fs.kernelQueries cwd) m = .ok files) :
    IsComplete (fs.kernelQueries cwd) m files ↔
      (∀ link text, (link, .copy) ∈ m.copyFiles.entries → (fs.kernelQueries cwd).isSymlink link = .ok true →
        (fs.kernelQueries cwd).readSymlink link = .ok text → text.isAbsolute = true) ∧
      ∀ p, IsListed (fs.kernelQueries cwd) m p → '\n' ∉ p.native ∧ TarList.EscapeFree p.native := by
  have hmem : ∀ n, n ∈ files ↔ IsListed (fs.kernelQueries cwd) m n := mem_archiveFiles h
  have hnames : TarList.names (fileList files) = files.map Path.native ↔
      ∀ p ∈ files, '\n' ∉ p.native ∧ TarList.EscapeFree p.native := by
    rw [fileList, TarList.names_unlines_iff, List.forall_mem_map]
  constructor
  · rintro ⟨hread, habs, -⟩
    rw [hread] at habs
    refine ⟨fun link text hlink hsymlink htext => ?_, fun p hp => hnames.1 hread p ((hmem p).2 hp)⟩
    exact habs _ (List.mem_map_of_mem ((hmem text).2 (.inl ⟨link, hlink, .inr ⟨hsymlink, htext⟩⟩)))
  · rintro ⟨htexts, hplain⟩
    have hread := hnames.2 fun p hp => hplain p ((hmem p).1 hp)
    refine ⟨hread, ?_, ?_⟩
    · rw [hread, List.forall_mem_map]
      intro p hp
      rcases (hmem p).1 hp with ⟨path, hpath, rfl | ⟨hsymlink, htext⟩⟩ | hp
      · exact hfiles _ hpath
      · exact htexts path p hpath hsymlink htext
      · exact hlinks p hp
    · intro link hlink hsymlink
      rw [hread]
      refine ⟨List.mem_map_of_mem ((hmem link).2 (.inl ⟨link, hlink, .inl rfl⟩)), ?_⟩
      obtain ⟨text, htext⟩ := LinkedFiles.isSymlink_queries_iff_readSymlink.1 hsymlink
      refine ⟨text, htext, ?_⟩
      rw [Path.located_of_isAbsolute (htexts link text hlink hsymlink htext)]
      exact List.mem_map_of_mem ((hmem text).2 (.inl ⟨link, hlink, .inr ⟨hsymlink, htext⟩⟩))

/-- The link `/s` is to be copied, with the directory that is its text. -/
def absoluteLinkManifest : TraceManifest where
  copyFiles := ⟨[(.ofString "/s", .copy)], by decide⟩

theorem archiveFiles_complete_absoluteLink :
    IsComplete (LinkedFiles.besideLink.kernelQueries []) absoluteLinkManifest [.ofString "/d", .ofString "/s"] := by
  have hfiles : archiveFiles (LinkedFiles.besideLink.kernelQueries []) absoluteLinkManifest =
      .ok [.ofString "/d", .ofString "/s"] := by decide
  refine (archiveFiles_complete_iff LinkedFiles.besideLink [] (by decide) (by decide) hfiles).2 ⟨?_, fun p hp => ?_⟩
  · intro link text hlink _ htext
    obtain rfl : link = .ofString "/s" := by simpa [absoluteLinkManifest] using hlink
    obtain rfl : .ofString "/d" = text := Except.ok.inj htext
    rfl
  · have hmem := (mem_archiveFiles hfiles p).2 hp
    simp only [List.mem_cons, List.not_mem_nil, or_false] at hmem
    rcases hmem with rfl | rfl <;> exact ⟨by decide, by simp [Path.ofString, TarList.EscapeFree]⟩

/-- The link `/d/l` is to be copied. -/
def besideLinkManifest : TraceManifest where
  copyFiles := ⟨[(.ofString "/d/l", .copy)], by decide⟩
  symlinks := [.ofString "/s"]

/-- For the link `/d/l` the list names `f` in the current directory, and not the file `/d/f` of the link.  A file with a
newline in its name is listed as two others, of which one is relative. -/
theorem archiveFiles_relative_text :
    ((∀ e ∈ besideLinkManifest.copyFiles.entries, e.1.isAbsolute = true) ∧
      (∀ p ∈ besideLinkManifest.symlinks, p.isAbsolute = true) ∧
      (LinkedFiles.besideLink.kernelQueries []).isSymlink (.ofString "/d/l") = .ok true ∧
      archiveFiles (LinkedFiles.besideLink.kernelQueries []) besideLinkManifest =
        .ok [.ofString "f", .ofString "/d/l", .ofString "/s"] ∧
      TarList.names (fileList [.ofString "f", .ofString "/d/l", .ofString "/s"]) =
        ["f".toList, "/d/l".toList, "/s".toList] ∧
      (Path.ofString "/d/l").parentPath.located (.ofString "f") = .ofString "/d/f" ∧
      ¬ IsComplete (LinkedFiles.besideLink.kernelQueries []) besideLinkManifest
        [.ofString "f", .ofString "/d/l", .ofString "/s"]) ∧
    TarList.names (fileList [.ofString "/d/a\nb"]) = ["/d/a".toList, ['b']] := by
  refine ⟨⟨by decide, by decide, by decide, by decide, by decide, by decide, fun hcomplete => ?_⟩, by decide⟩
  exact absurd (hcomplete.absolute ['f'] (by decide)) (by decide)

end DockerFileBuilderTask

end R4R
