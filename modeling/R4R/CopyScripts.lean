import R4R.ArchiveFiles
import R4R.IgnoreFileMap

/-!
# The scripts around the archive

`DockerFileBuilderTask::copy_files` writes two scripts beside the archive: one that makes the directories of the results
before the archive is unpacked, and one that gives the directories above the copied files their owners and modes
afterwards.  It returns early when there is nothing to archive (`copyFiles_of_nil`); otherwise the build starts with the
first script (`copyFiles_of_ne_nil`).
-/

namespace R4R

/-- The members of `struct stat` that the script uses. -/
structure Stat where
  owner : UInt32
  group : UInt32
  mode : UInt32
deriving DecidableEq, Repr

/-- The directories that the `while` loop passes through, which ends at the root or at an empty path; `fuel` bounds
its rounds. -/
def directoriesFrom : Nat → Path → List Path
  | 0, _ => []
  | fuel + 1, current =>
    if current.native.isEmpty || decide (current.parts = [['/']]) then []
    else current :: directoriesFrom fuel current.parentPath

/-- The directories above a file, but the root. -/
def directoriesAbove (file : Path) : List Path := directoriesFrom (file.parentPath.native.length + 1) file.parentPath

/-! ### The loop over the directories -/

private theorem rdropWhile_slash_ne {l : List Char} (hl : l ≠ []) :
    (l.rdropWhile (· ≠ '/')).rdropWhile (· = '/') ≠ l := by
  intro h
  have hinner : l.rdropWhile (· ≠ '/') = l := by
    apply (List.rdropWhile_prefix _ l).eq_of_length_le
    calc l.length = ((l.rdropWhile (· ≠ '/')).rdropWhile (· = '/')).length := by rw [h]
      _ ≤ (l.rdropWhile (· ≠ '/')).length := (List.rdropWhile_prefix _ _).length_le
  rw [hinner] at h
  have hlast := List.rdropWhile_eq_self_iff.1 hinner hl
  have hlast' := List.rdropWhile_eq_self_iff.1 h hl
  simp_all

/-- The parent of a path with a file name has a shorter text. -/
private theorem Path.length_parentPath_lt {p : Path} (h : p.filenames ≠ []) :
    p.parentPath.native.length < p.native.length := by
  have hne : p.native ≠ [] := by
    intro he
    simp [filenames, he] at h
  have hlt : ((p.native.rdropWhile (· ≠ '/')).rdropWhile (· = '/')).length < p.native.length := by
    have hpre := (List.rdropWhile_prefix (· = '/') (p.native.rdropWhile (· ≠ '/'))).trans
      (List.rdropWhile_prefix (· ≠ '/') p.native)
    apply lt_of_le_of_ne hpre.length_le
    intro he
    exact rdropWhile_slash_ne hne (hpre.eq_of_length he)
  unfold parentPath
  rw [if_neg (by simpa using h)]
  dsimp only
  split
  · rename_i hroot
    have habs : p.isAbsolute = true := by simp_all
    obtain ⟨rest, hrest⟩ : ∃ rest, p.native = '/' :: rest := by
      unfold isAbsolute at habs
      cases hn : p.native with
      | nil => exact absurd hn hne
      | cons c rest =>
        rw [hn] at habs
        exact ⟨rest, by simpa using habs⟩
    cases rest with
    | nil =>
      rw [filenames, hrest] at h
      exact absurd (by decide) h
    | cons c rest =>
      rw [hrest]
      simp
  · exact hlt

/-- The rounds that `directoriesAbove` allows are enough: more of them change nothing. -/
theorem directoriesFrom_eq (fuel : Nat) : ∀ {p : Path}, p.native.length < fuel →
    directoriesFrom fuel p = directoriesFrom (p.native.length + 1) p := by
  induction fuel using Nat.strong_induction_on with
  | h fuel ih =>
    intro p hlt
    obtain ⟨k, rfl⟩ : ∃ k, fuel = k + 1 := ⟨fuel - 1, by omega⟩
    unfold directoriesFrom
    split
    · rfl
    · rename_i hgo
      have hnames : p.filenames ≠ [] := by
        intro he
        cases habs : p.isAbsolute with
        | true => simp [Path.parts, habs, he] at hgo
        | false => exact Path.filenames_ne_nil habs (by simpa using fun h => hgo (by simp [h])) he
      have hparent := Path.length_parentPath_lt hnames
      congr 1
      rcases Nat.lt_or_ge p.native.length k with hk | hk
      · rw [ih k (by omega) (by omega), ih p.native.length (by omega) hparent]
      · rw [show k = p.native.length by omega]

/-- A file name at the end of a joined path. -/
theorem Path.filename_append {dir name : Path} (hrel : name.isAbsolute = false) (hfile : name.hasFilename = true) :
    (dir / name).filename = name.filename := by
  have hnative : name.native ≠ [] := by
    intro hnil
    simp [hasFilename, hnil] at hfile
  have hne := filenames_ne_nil hrel hnative
  have hlast : ∀ p : Path, p.hasFilename = true → p.filenames ≠ [] → p.filename = p.filenames.getLast?.getD [] := by
    intro p hp hnames
    have hparts : p.parts = (if p.isAbsolute then [['/']] else []) ++ p.filenames := by simp [parts, hp]
    rw [filename, hparts, List.getLast?_append_of_ne_nil _ hnames]
  have hnames : (dir / name).filenames ≠ [] := by
    rw [filenames_append hrel]
    exact fun h => hne (List.append_eq_nil_iff.1 h).2
  rw [hlast _ (by rw [hasFilename_append hrel hnative, hfile]) hnames, hlast _ hfile hne, filenames_append hrel,
    List.getLast?_append_of_ne_nil _ hne]

namespace DockerFileBuilderTask

/-- The files of the output directory are told apart by their names. -/
theorem append_ne {dir name name' : Path} (hrel : name.isAbsolute = false) (hfile : name.hasFilename = true)
    (hrel' : name'.isAbsolute = false) (hfile' : name'.hasFilename = true) (hne : name.filename ≠ name'.filename) :
    dir / name ≠ dir / name' := by
  intro he
  have hn : (dir / name).filename = name.filename := Path.filename_append hrel hfile
  rw [← hn, he, Path.filename_append hrel' hfile'] at hne
  exact hne rfl

/-- What both scripts start with. -/
def scriptHeader : List Char := "#!/bin/bash\n\nset -e\n\n".toList

def mkdirLine (dir : Path) : List Char := "mkdir -p ".toList ++ dir.quoted ++ ['\n']

def chownLine (info : Stat) (dir : Path) : List Char :=
  "chown ".toList ++ Nat.toDigits 10 info.owner.toNat ++ [':'] ++ Nat.toDigits 10 info.group.toNat ++ [' '] ++
    dir.quoted ++ ['\n']

def chmodLine (info : Stat) (dir : Path) : List Char :=
  "chmod ".toList ++ Nat.toDigits 8 (info.mode &&& 0o777).toNat ++ [' '] ++ dir.quoted ++ ['\n']

/-- `generate_pre_file_copy_script`. -/
def generatePreFileCopyScript (directories : List Path) : List Char := scriptHeader ++ directories.flatMap mkdirLine

/-- The `std::set` of the directories above the files. -/
def directoriesOf (files : List Path) : List Path :=
  sortPaths ((files.flatMap directoriesAbove).foldl (Emplace.emplace Path.parts) [])

/-- What the second script does with one directory; one that `stat` refuses is passed over. -/
def permissionLines (stat : Path → Option Stat) (dir : Path) : List Char :=
  match stat dir with
  | none => []
  | some info => chownLine info dir ++ chmodLine info dir

/-- `generate_post_file_copy_script`. -/
def generatePostFileCopyScript (stat : Path → Option Stat) (files : List Path) : List Char :=
  scriptHeader ++ (directoriesOf files).flatMap (permissionLines stat)

/-- `DockerFileBuilderTask::copy_files`, with the scripts that it writes. -/
def copyFiles (host : BuildHost) (q : FileQueries) (stat : Path → Option Stat) (t : DockerFileBuilderTask)
    (b : DockerFileBuilder) (m : TraceManifest) : Except CopyError (DockerFileBuilder × List (Path × List Char)) := do
  let (files, emptyDirs) ← (collectFiles q m).mapError fun what => .filesystem what.toList
  if files.isEmpty then return (b, [])
  let b ← t.placeFiles host b (sortPaths files)
  return (b, [(t.preFileCopyScript, generatePreFileCopyScript emptyDirs),
    (t.postFileCopyScript, generatePostFileCopyScript stat (sortPaths files))])

/-- The line of the Dockerfile that copies a script into the image under its own path. -/
def copyLine (name script : Path) : List Char := "COPY ".toList ++ name.native ++ [' '] ++ script.native

/-- The line of the Dockerfile that runs a script and removes it. -/
def scriptLine (script : Path) : List Char :=
  "RUN ".toList ++ stringJoin " && \\\n  ".toList ["bash ".toList ++ script.quoted, "rm -f ".toList ++ script.quoted]

section Copy

variable {host : BuildHost} {b b' : DockerFileBuilder}

private theorem copy_ok {src : Path} {dest : List Char} (h : b.copy host [src] dest = .ok b') :
    ∃ name, host.relative src b.contextDir = .ok name ∧
      b'.commands = b.commands ++ ["COPY ".toList ++ name.native ++ [' '] ++ dest] ∧
      b'.copiedFiles = b.copiedFiles ++ [src] := by
  obtain ⟨r, hr, h⟩ := Except.bind_eq_ok h
  rw [List.foldlM_cons] at hr
  obtain ⟨r', hstep, hr⟩ := Except.bind_eq_ok hr
  obtain rfl := Except.ok.inj hr
  obtain rfl := Except.ok.inj h
  rw [DockerFileBuilder.copyStep] at hstep
  split at hstep
  · split at hstep
    · rename_i name hname
      obtain rfl := Except.ok.inj hstep
      exact ⟨name, hname, by simp [stringJoin], rfl⟩
    · cases hstep
  · cases hstep

private theorem runScriptOnce_ok {script : Path} (h : b.runScriptOnce host script = .ok b') :
    ∃ name, host.relative script b.contextDir = .ok name ∧
      b'.commands = b.commands ++ [copyLine name script, scriptLine script] ∧
      b'.copiedFiles = b.copiedFiles ++ [script] := by
  obtain ⟨b₁, hcopy, h⟩ := Except.bind_eq_ok h
  obtain rfl := Except.ok.inj h
  obtain ⟨name, hname, hcommands, hfiles⟩ := copy_ok hcopy
  refine ⟨name, hname, ?_, hfiles⟩
  simp [DockerFileBuilder.run, hcommands, scriptLine, copyLine]

/-- With files to place, the build starts with the first script. -/
private theorem placeFiles_ok {t : DockerFileBuilderTask} {files : List Path} (hfiles : files ≠ [])
    (h : t.placeFiles host b files = .ok b') : t.preFileCopyScript ∈ b'.copiedFiles ∧
      ∃ name rest, host.relative t.preFileCopyScript b.contextDir = .ok name ∧ b'.commands =
        b.commands ++ copyLine name t.preFileCopyScript :: scriptLine t.preFileCopyScript :: rest := by
  unfold placeFiles at h
  rw [if_neg (by simpa using hfiles)] at h
  obtain ⟨b₁, hpre, h⟩ := Except.bind_eq_ok h
  obtain ⟨u, -, h⟩ := Except.bind_eq_ok h
  obtain ⟨b₂, harchive, h⟩ := Except.bind_eq_ok h
  obtain ⟨name, hname, hcommands₁, hcopied₁⟩ := runScriptOnce_ok hpre
  obtain ⟨archiveName, -, hcommands₂, hcopied₂⟩ := copy_ok harchive
  obtain ⟨postName, -, hcommands, hcopied⟩ := runScriptOnce_ok h
  constructor
  · rw [hcopied, DockerFileBuilder.run, hcopied₂, hcopied₁]
    simp
  · rw [hcommands, DockerFileBuilder.run, hcommands₂, hcommands₁]
    exact ⟨name, _, hname, by simp only [List.append_assoc, List.cons_append, List.nil_append]; rfl⟩

end Copy

section Collect

variable {q : FileQueries} {acc acc' : List Path × List Path}

/-- What one entry adds to the directories. -/
private theorem collectStep_snd {e : Path × FileStatus} (h : collectStep q acc e = .ok acc') :
    acc'.2 = acc.2 ++ if e.2 = .result then [e.1.parentPath] else [] := by
  obtain ⟨path, status⟩ := e
  cases status with
  | copy =>
    obtain ⟨link, -, h⟩ := Except.bind_eq_ok h
    cases link with
    | false =>
      obtain rfl := Except.ok.inj h
      simp
    | true =>
      obtain ⟨text, -, h⟩ := Except.bind_eq_ok h
      obtain rfl := Except.ok.inj h
      simp
  | result | ignoreDidNotExistBefore | ignoreNoLongerExist | ignoreNotAccessible | ignoreDirectory =>
    obtain rfl := Except.ok.inj h
    simp

/-- The directories are those of the results, in the order of the map. -/
theorem foldlM_collectStep_snd (entries : List (Path × FileStatus)) : ∀ {acc acc' : List Path × List Path},
    entries.foldlM (collectStep q) acc = .ok acc' →
      acc'.2 = acc.2 ++ (entries.filter (·.2 = .result)).map fun e => e.1.parentPath := by
  induction entries with
  | nil =>
    intro acc acc' h
    obtain rfl := Except.ok.inj h
    simp
  | cons e entries ih =>
    intro acc acc' h
    rw [List.foldlM_cons] at h
    obtain ⟨acc₁, hstep, h⟩ := Except.bind_eq_ok h
    rw [ih h, collectStep_snd hstep, List.append_assoc]
    by_cases he : e.2 = .result <;> simp [he]

/-- There is something to archive exactly when a file is copied or a symlink was traced. -/
theorem collectFiles_ne_nil_iff {m : TraceManifest} {r : List Path × List Path} (h : collectFiles q m = .ok r) :
    r.1 ≠ [] ↔ (∃ path, (path, .copy) ∈ m.copyFiles.entries) ∨ m.symlinks ≠ [] := by
  obtain ⟨acc, hfold, h⟩ := Except.bind_eq_ok h
  obtain rfl := Except.ok.inj h
  have hmem := mem_foldlM_collectStep _ hfold
  show acc.1 ++ m.symlinks ≠ [] ↔ _
  rw [ne_eq, List.append_eq_nil_iff, not_and_or]
  refine or_congr ?_ Iff.rfl
  constructor
  · intro hne
    obtain ⟨n, hn⟩ := List.exists_mem_of_ne_nil _ hne
    obtain hn | ⟨e, he, hcopy, -⟩ := (hmem n).1 hn
    · cases hn
    · exact ⟨e.1, hcopy ▸ he⟩
  · rintro ⟨path, hpath⟩
    exact List.ne_nil_of_mem ((hmem path).2 (.inr ⟨_, hpath, rfl, .inl rfl⟩))

end Collect

section Scripts

variable {host : BuildHost} {q : FileQueries} {stat : Path → Option Stat} {t : DockerFileBuilderTask}
  {b b' : DockerFileBuilder} {m : TraceManifest} {written : List (Path × List Char)}

/-- The early return: without a copied file or a traced symlink nothing is built. -/
theorem copyFiles_of_nil {dirs : List Path} (h : collectFiles q m = .ok ([], dirs)) :
    copyFiles host q stat t b m = .ok (b, []) := by
  unfold copyFiles
  rw [h]
  rfl

/-- Otherwise the first script is written, and the build starts with it. -/
theorem copyFiles_of_ne_nil {files dirs : List Path} (hfiles : files ≠ [])
    (hcollect : collectFiles q m = .ok (files, dirs)) (h : copyFiles host q stat t b m = .ok (b', written)) :
    written = [(t.preFileCopyScript, generatePreFileCopyScript dirs),
      (t.postFileCopyScript, generatePostFileCopyScript stat (sortPaths files))] ∧
      t.preFileCopyScript ∈ b'.copiedFiles ∧
      ∃ name rest, host.relative t.preFileCopyScript b.contextDir = .ok name ∧ b'.commands =
        b.commands ++ copyLine name t.preFileCopyScript :: scriptLine t.preFileCopyScript :: rest := by
  unfold copyFiles at h
  rw [hcollect] at h
  change (if files.isEmpty then _ else _) = _ at h
  rw [if_neg (by simpa using hfiles)] at h
  obtain ⟨b₁, hplace, h⟩ := Except.bind_eq_ok h
  obtain ⟨rfl, rfl⟩ := Prod.mk.inj (Except.ok.inj h)
  have hsorted : sortPaths files ≠ [] := by
    rw [← List.length_pos_iff, sortPaths, List.length_insertionSort, List.length_pos_iff]
    exact hfiles
  exact ⟨rfl, placeFiles_ok hsorted hplace⟩

end Scripts

/-- A host on which every step succeeds, with the build in `/tmp/out`. -/
def plainHost : BuildHost := ⟨fun p _ => .ok ⟨p.filename⟩, fun _ _ => .ok ()⟩

def plainTask : DockerFileBuilderTask := ⟨Path.ofString "/tmp/out", "ubuntu:22.04".toList, false⟩

end DockerFileBuilderTask

end R4R
