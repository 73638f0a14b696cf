import R4R.Dockerfile
import R4R.Lib.Except
import R4R.SubPath

/-!
# Files of the build context

`DockerFileBuilder::copy` refuses a source that is no sub-path of the context directory.  `DockerFileBuilderTask` puts
its archive, its two scripts and the R install script into its output directory, which is also the context directory
of its builder, and copies them from there.  None of the copies is refused exactly when the directory the user passed
does not end with a separator after a file name (`ownFiles_accepted_iff`).
-/

namespace R4R

/-- How a path is written to a stream: `std::quoted`. -/
def Path.quoted (p : Path) : List Char :=
  '"' :: (p.native.flatMap fun c => if c = '"' ∨ c = '\\' then ['\\', c] else [c]) ++ ['"']

/-- `string_join`. -/
def stringJoin (sep : List Char) : List (List Char) → List Char
  | [] => []
  | x :: xs => x ++ xs.flatMap fun y => sep ++ y

/-- What `DockerFileBuilder::copy` and its callers throw. -/
inductive CopyError
  | notSubPath (src contextDir : Path)
  | filesystem (what : List Char)
deriving DecidableEq, Repr

/-- The text of the exception. -/
def CopyError.what : CopyError → List Char
  | notSubPath src contextDir =>
    "Source path ".toList ++ src.quoted ++ " is not a subpath of context directory ".toList ++ contextDir.quoted
  | filesystem what => what

/-- `fs::relative` and `create_tar_archive`, which may throw. -/
structure BuildHost where
  relative : Path → Path → Except (List Char) Path
  createTarArchive : Path → List Path → Except (List Char) Unit

namespace DockerFileBuilder

/-- `DockerFileBuilder::run`. -/
def run (b : DockerFileBuilder) (commands : List (List Char)) : DockerFileBuilder :=
  { b with commands := b.commands ++ ["RUN ".toList ++ stringJoin " && \\\n  ".toList commands] }

/-- One source in the loop of `copy`: the builder and the names so far. -/
def copyStep (host : BuildHost) : DockerFileBuilder × List (List Char) → Path →
    Except CopyError (DockerFileBuilder × List (List Char))
  | (b, names), src =>
    if isSubPath src b.contextDir then
      match host.relative src b.contextDir with
      | .ok name => .ok ({ b with copiedFiles := b.copiedFiles ++ [src] }, names ++ [name.native])
      | .error what => .error (.filesystem what)
    else .error (.notSubPath src b.contextDir)

/-- `DockerFileBuilder::copy`. -/
def copy (host : BuildHost) (b : DockerFileBuilder) (srcs : List Path) (dest : List Char) :
    Except CopyError DockerFileBuilder := do
  let (b, names) ← srcs.foldlM (copyStep host) (b, [])
  return { b with commands := b.commands ++ ["COPY ".toList ++ stringJoin [' '] names ++ [' '] ++ dest] }

/-- `DockerFileBuilder::run_script_once`. -/
def runScriptOnce (host : BuildHost) (b : DockerFileBuilder) (path : Path) : Except CopyError DockerFileBuilder := do
  let b ← b.copy host [path] path.native
  return b.run ["bash ".toList ++ path.quoted, "rm -f ".toList ++ path.quoted]

end DockerFileBuilder

/-- `DockerFileBuilderTask`: what its constructor is given. -/
structure DockerFileBuilderTask where
  outputDir : Path
  baseImage : List Char
  dockerSudoAccess : Bool
deriving DecidableEq, Repr

namespace DockerFileBuilderTask

/-- `archive_`. -/
def archive (t : DockerFileBuilderTask) : Path := t.outputDir / Path.ofString "archive.tar"

/-- `pre_file_copy_script_`. -/
def preFileCopyScript (t : DockerFileBuilderTask) : Path := t.outputDir / Path.ofString "pre_file_copy.sh"

/-- `post_file_copy_script_`. -/
def postFileCopyScript (t : DockerFileBuilderTask) : Path := t.outputDir / Path.ofString "post_file_copy.sh"

/-- `cran_install_script_`. -/
def cranInstallScript (t : DockerFileBuilderTask) : Path := t.outputDir / Path.ofString "install_r_packages.R"

/-- The builder that `DockerFileBuilderTask::run` starts with. -/
def builder (t : DockerFileBuilderTask) : DockerFileBuilder := { baseImage := t.baseImage, contextDir := t.outputDir }

/-- `DockerFileBuilderTask::copy_files`, from the collected and sorted files on. -/
def placeFiles (host : BuildHost) (t : DockerFileBuilderTask) (b : DockerFileBuilder) (files : List Path) :
    Except CopyError DockerFileBuilder := do
  if files.isEmpty then return b
  let b ← b.runScriptOnce host t.preFileCopyScript
  (host.createTarArchive t.archive files).mapError .filesystem
  let b ← b.copy host [t.archive] t.archive.native
  let b := b.run ["tar -x -f ".toList ++ t.archive.quoted ++
    " --same-owner --same-permissions --absolute-names".toList, "rm -f ".toList ++ t.archive.quoted]
  b.runScriptOnce host t.postFileCopyScript

/-- `DockerFileBuilderTask::install_r_packages`, from the written install script on. -/
def placeInstallScript (host : BuildHost) (t : DockerFileBuilderTask) (b : DockerFileBuilder) :
    Except CopyError DockerFileBuilder := do
  let b ← b.copy host [t.cranInstallScript] ['/']
  return b.run ["Rscript /".toList ++ t.cranInstallScript.filename, "rm -f /".toList ++ t.cranInstallScript.filename]

end DockerFileBuilderTask

/-- The computation does not end with a refused source, and a builder it returns has the same context directory. -/
def NotRefused (contextDir : Path) (x : Except CopyError DockerFileBuilder) : Prop :=
  (∀ src dir, x ≠ .error (.notSubPath src dir)) ∧ ∀ b, x = .ok b → b.contextDir = contextDir

namespace NotRefused

private theorem pure {contextDir : Path} {b : DockerFileBuilder} (h : b.contextDir = contextDir) :
    NotRefused contextDir (.ok b) := ⟨nofun, fun _ hb => Except.ok.inj hb ▸ h⟩

private theorem bind {contextDir : Path} {x : Except CopyError DockerFileBuilder}
    {f : DockerFileBuilder → Except CopyError DockerFileBuilder} (hx : NotRefused contextDir x)
    (hf : ∀ b, b.contextDir = contextDir → NotRefused contextDir (f b)) : NotRefused contextDir (x >>= f) := by
  cases x with
  | error e => exact ⟨fun src dir he => hx.1 src dir he, nofun⟩
  | ok b => exact hf b (hx.2 b rfl)

end NotRefused

namespace DockerFileBuilder

private theorem notRefused_copy {host : BuildHost} {b : DockerFileBuilder} {src : Path} {dest : List Char}
    (h : isSubPath src b.contextDir = true) : NotRefused b.contextDir (b.copy host [src] dest) := by
  unfold copy
  rw [List.foldlM_cons, copyStep, if_pos h]
  cases host.relative src b.contextDir with
  | error what => exact ⟨nofun, nofun⟩
  | ok name => exact NotRefused.pure rfl

/-- A refused source is reported by its name. -/
private theorem copy_refused {host : BuildHost} {b : DockerFileBuilder} {src : Path} {dest : List Char}
    (h : isSubPath src b.contextDir = false) : b.copy host [src] dest = .error (.notSubPath src b.contextDir) := by
  unfold copy
  rw [List.foldlM_cons, copyStep, if_neg (by simp [h])]
  rfl

private theorem notRefused_runScriptOnce {host : BuildHost} {b : DockerFileBuilder} {path : Path}
    (h : isSubPath path b.contextDir = true) : NotRefused b.contextDir (b.runScriptOnce host path) :=
  (notRefused_copy h).bind fun _ hb => NotRefused.pure hb

end DockerFileBuilder

namespace DockerFileBuilderTask

open DockerFileBuilder

variable {t : DockerFileBuilderTask} {host : BuildHost} {b : DockerFileBuilder}

private theorem notRefused_placeFiles (h : ∀ name : Path, name.native ≠ [] → name.isAbsolute = false →
    isSubPath (t.outputDir / name) t.outputDir = true) (hb : b.contextDir = t.outputDir) (files : List Path) :
    NotRefused t.outputDir (t.placeFiles host b files) := by
  have hscript : ∀ (name : Path) (b : DockerFileBuilder), name.native ≠ [] → name.isAbsolute = false →
      b.contextDir = t.outputDir → NotRefused t.outputDir (b.runScriptOnce host (t.outputDir / name)) := by
    intro name b hne hrel hb
    rw [← hb]
    exact notRefused_runScriptOnce (hb ▸ h name hne hrel)
  unfold placeFiles
  split
  · exact NotRefused.pure hb
  · refine (hscript _ b (by decide) (by decide) hb).bind fun b₁ hb₁ => ?_
    cases host.createTarArchive t.archive files with
    | error what => exact ⟨nofun, nofun⟩
    | ok u =>
      have hcopy : NotRefused t.outputDir (b₁.copy host [t.archive] t.archive.native) := by
        rw [← hb₁]
        exact notRefused_copy (hb₁ ▸ h _ (by decide) (by decide))
      exact hcopy.bind fun b₂ hb₂ => hscript _ _ (by decide) (by decide) hb₂

private theorem notRefused_placeInstallScript (h : ∀ name : Path, name.native ≠ [] → name.isAbsolute = false →
    isSubPath (t.outputDir / name) t.outputDir = true) (hb : b.contextDir = t.outputDir) :
    NotRefused t.outputDir (t.placeInstallScript host b) := by
  have hcopy : NotRefused t.outputDir (b.copy host [t.cranInstallScript] ['/']) := by
    rw [← hb]
    exact notRefused_copy (hb ▸ h _ (by decide) (by decide))
  exact hcopy.bind fun b₁ hb₁ => NotRefused.pure hb₁

/-- Every file that the task places in its output directory is accepted as a file of the build context exactly when
the directory does not end with a separator after a file name. -/
theorem ownFiles_accepted_iff (t : DockerFileBuilderTask) :
    ((∀ name : Path, name.native ≠ [] → name.isAbsolute = false →
        isSubPath (t.outputDir / name) t.outputDir = true) ∧
      ∀ (host : BuildHost) (b : DockerFileBuilder), b.contextDir = t.outputDir →
        (∀ files, NotRefused t.outputDir (t.placeFiles host b files)) ∧
          NotRefused t.outputDir (t.placeInstallScript host b)) ↔
      t.outputDir.hasFilename = true ∨ t.outputDir.filenames = [] := by
  constructor
  · rintro ⟨h, -⟩
    have hname := h (Path.ofString "archive.tar") (by decide) (by decide)
    exact (isSubPath_append_iff (by decide) (by decide)).1 hname
  · intro hdir
    have h : ∀ name : Path, name.native ≠ [] → name.isAbsolute = false →
        isSubPath (t.outputDir / name) t.outputDir = true :=
      fun name hne hrel => (isSubPath_append_iff hne hrel).2 hdir
    exact ⟨h, fun host b hb => ⟨notRefused_placeFiles h hb, notRefused_placeInstallScript h hb⟩⟩

/-- With the output directory `out/` the first script is refused. -/
theorem placeFiles_trailing_separator_refused :
    isSubPath (Path.ofString "out/" / Path.ofString "archive.tar") (Path.ofString "out/") = false ∧
      ∀ host : BuildHost,
        let t : DockerFileBuilderTask := ⟨Path.ofString "out/", "ubuntu:22.04".toList, false⟩
        t.placeFiles host t.builder [Path.ofString "/etc/hosts"] =
          .error (.notSubPath (Path.ofString "out/pre_file_copy.sh") (Path.ofString "out/")) := by
  refine ⟨by decide, fun host => ?_⟩
  change (DockerFileBuilder.runScriptOnce host _ _ >>= _) = _
  rw [runScriptOnce, copy_refused (by decide)]
  rfl

end DockerFileBuilderTask

end R4R
