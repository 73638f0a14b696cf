import R4R.ResolverRuns

/-!
# Traced symlinks

The tracer records a symlink with the text it holds, and `CopyFileResolver` asks whether a file of that name exists.
A relative text is looked up from the current directory there, and from the directory of the link by the kernel, so the
two agree exactly when both names exist or neither does (`resolve_symlink_iff`).
-/

namespace R4R

/-- Where the name `p` leads in the directory `dir`. -/
def Path.located (dir p : Path) : Path := if p.native.isEmpty then p else dir / p

private theorem Path.append_of_isAbsolute {p : Path} (h : p.isAbsolute = true) (dir : Path) : dir / p = p := if_pos h

theorem Path.located_of_isAbsolute {p : Path} (h : p.isAbsolute = true) (dir : Path) : dir.located p = p := by
  unfold located
  split
  · rfl
  · exact append_of_isAbsolute h dir

/-- The answers to a process whose current directory is `cwd`; `q` answers for absolute names. -/
def FileQueries.inDirectory (q : FileQueries) (cwd : Path) : FileQueries where
  existsAt := fun p => q.existsAt (cwd.located p)
  equivalent := fun p p' => q.equivalent (cwd.located p) (cwd.located p')
  isSymlink := fun p => q.isSymlink (cwd.located p)
  readSymlink := fun p => q.readSymlink (cwd.located p)
  isRegularFile := fun p => q.isRegularFile (cwd.located p)
  isDirectory := fun p => q.isDirectory (cwd.located p)
  canIterate := fun p => q.canIterate (cwd.located p)
  canOpen := fun p => q.canOpen (cwd.located p)
  absolute := fun p => q.absolute (cwd.located p)

namespace CopyFileResolver

variable {q : FileQueries} {s : TracerState}

private theorem mem_foldl_resolveSymlinkEntry {key : List (List Char)} (links : List (Path × Path)) :
    ∀ {m : TraceManifest}, key ∈ (links.foldl (resolveSymlinkEntry q) m).symlinks.map Path.parts ↔
      key ∈ m.symlinks.map Path.parts ∨ ∃ entry ∈ links, installed q entry = true ∧ entry.1.parts = key := by
  induction links with
  | nil => simp
  | cons entry links ih =>
    intro m
    rw [List.foldl_cons, ih]
    by_cases h : installed q entry = true
    · have hkeys : key ∈ (resolveSymlinkEntry q m entry).symlinks.map Path.parts ↔
          key ∈ m.symlinks.map Path.parts ∨ entry.1.parts = key := by
        rw [resolveSymlinkEntry, if_pos h, eq_comm (a := entry.1.parts)]
        exact Emplace.mem_map_key_emplace
      rw [hkeys]
      simp [h, or_assoc]
    · rw [resolveSymlinkEntry, if_neg h]
      simp [h]

/-- A symlink is in the manifest when it was there before or it is installed. -/
private theorem mem_symlinks_resolve (hkeys : (s.tracedSymlinks.map fun entry => entry.1.parts).Nodup)
    {entry : Path × Path} (htraced : entry ∈ s.tracedSymlinks) :
    entry.1.parts ∈ (resolve q s).manifest.symlinks.map Path.parts ↔
      entry.1.parts ∈ s.manifest.symlinks.map Path.parts ∨ installed q entry = true := by
  simp only [resolve]
  rw [mem_foldl_resolveSymlinkEntry, (foldl_resolveFile q _ s.tracedFiles s.manifest).symlinks]
  refine or_congr_right ⟨?_, fun h => ⟨entry, htraced, h, rfl⟩⟩
  rintro ⟨entry', htraced', h, hkey⟩
  rwa [← List.inj_on_of_nodup_map hkeys htraced' htraced hkey]

/-- The link is still a symlink, and what its text names in its own directory exists. -/
def Leads (q : FileQueries) (link target : Path) : Prop :=
  q.isSymlink link = .ok true ∧ q.existsAt (link.parentPath.located target) = .ok true

private theorem installed_inDirectory {link target cwd : Path} (hlink : link.isAbsolute = true) :
    installed (q.inDirectory cwd) (link, target) = true ↔
      q.isSymlink link = .ok true ∧ q.existsAt (cwd.located target) = .ok true := by
  simp only [installed, FileQueries.inDirectory, Bool.and_eq_true, orFalse_eq_true, Path.located_of_isAbsolute hlink]

/-- A traced link is put in the manifest as it should be exactly when it is no symlink any more, its text is absolute,
or its text names something in the current directory if and only if it does in the directory of the link; two current
directories give the same outcome under the like condition. -/
theorem resolve_symlink_iff (q : FileQueries) (s : TracerState)
    (hkeys : (s.tracedSymlinks.map fun entry => entry.1.parts).Nodup) {link target : Path}
    (htraced : (link, target) ∈ s.tracedSymlinks) (hlink : link.isAbsolute = true)
    (hnew : link.parts ∉ s.manifest.symlinks.map Path.parts) (cwd : Path) :
    ((link.parts ∈ (resolve (q.inDirectory cwd) s).manifest.symlinks.map Path.parts ↔ Leads q link target) ↔
      (q.isSymlink link = .ok true → target.isAbsolute = false →
        (q.existsAt (cwd.located target) = .ok true ↔ q.existsAt (link.parentPath.located target) = .ok true))) ∧
    ∀ cwd', (link.parts ∈ (resolve (q.inDirectory cwd) s).manifest.symlinks.map Path.parts ↔
        link.parts ∈ (resolve (q.inDirectory cwd') s).manifest.symlinks.map Path.parts) ↔
      (q.isSymlink link = .ok true → target.isAbsolute = false →
        (q.existsAt (cwd.located target) = .ok true ↔ q.existsAt (cwd'.located target) = .ok true)) := by
  have hmem : ∀ dir : Path, link.parts ∈ (resolve (q.inDirectory dir) s).manifest.symlinks.map Path.parts ↔
      q.isSymlink link = .ok true ∧ q.existsAt (dir.located target) = .ok true := by
    intro dir
    rw [mem_symlinks_resolve hkeys htraced, or_iff_right hnew, installed_inDirectory hlink]
  -- an absolute text leads to one place from all directories
  have hdirs : ∀ dir dir' : Path, (q.isSymlink link = .ok true ∧ q.existsAt (dir.located target) = .ok true ↔
      q.isSymlink link = .ok true ∧ q.existsAt (dir'.located target) = .ok true) ↔
      (q.isSymlink link = .ok true → target.isAbsolute = false →
        (q.existsAt (dir.located target) = .ok true ↔ q.existsAt (dir'.located target) = .ok true)) := by
    intro dir dir'
    rw [and_congr_right_iff]
    refine imp_congr_right fun _ => ?_
    cases habs : target.isAbsolute with
    | true =>
      rw [Path.located_of_isAbsolute habs, Path.located_of_isAbsolute habs]
      simp
    | false => simp
  constructor
  · rw [hmem, Leads]
    exact hdirs cwd link.parentPath
  · intro cwd'
    rw [hmem, hmem]
    exact hdirs cwd cwd'

/-- The files of a library: `/usr/lib/libR.so`, a link to `libR.so.4` next to it. -/
def libraryFiles : FileQueries where
  existsAt := fun p => .ok (p.native == "/usr/lib/libR.so.4".toList || p.native == "/usr/lib/libR.so".toList)
  equivalent := fun _ _ => .ok true
  isSymlink := fun p => .ok (p.native == "/usr/lib/libR.so".toList)
  readSymlink := fun _ => .ok (.ofString "libR.so.4")
  isRegularFile := fun p => .ok (p.native == "/usr/lib/libR.so.4".toList || p.native == "/usr/lib/libR.so".toList)
  isDirectory := fun _ => .ok false
  canIterate := fun _ => false
  canOpen := fun _ => true
  absolute := .ok

def libraryLink : TracerState where
  tracedFiles := []
  tracedSymlinks := [(.ofString "/usr/lib/libR.so", .ofString "libR.so.4")]
  manifest := { copyFiles := .empty }

theorem resolve_symlink_libraryLink :
    ((Path.ofString "/usr/lib/libR.so").parts ∈
        (resolve (libraryFiles.inDirectory (.ofString "/usr/lib")) libraryLink).manifest.symlinks.map Path.parts ↔
      Leads libraryFiles (.ofString "/usr/lib/libR.so") (.ofString "libR.so.4")) :=
  (resolve_symlink_iff libraryFiles libraryLink (by decide) (List.mem_singleton_self _) (by decide) (by decide)
    (.ofString "/usr/lib")).1.2 fun _ _ => by decide

/-- The link leads to the library, and run from the root directory the resolver does not install it. -/
theorem resolve_relative_symlink_dropped :
    Leads libraryFiles (.ofString "/usr/lib/libR.so") (.ofString "libR.so.4") ∧
      (resolve (libraryFiles.inDirectory (.ofString "/")) libraryLink).manifest.symlinks = [] ∧
      (resolve (libraryFiles.inDirectory (.ofString "/usr/lib")) libraryLink).manifest.symlinks =
        [.ofString "/usr/lib/libR.so"] :=
  ⟨⟨by decide, by decide⟩, by decide, by decide⟩

end CopyFileResolver

end R4R
