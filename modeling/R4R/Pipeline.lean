import R4R.DockerfileRun
import R4R.FileTracer
import R4R.Makefile
import R4R.ResultFiles
import R4R.SyscallMonitor
import R4R.SystemDependencies

/-!
# The pipeline

`Tracer::run_pipeline` runs the tasks one after the other over one state.  A task that throws ends the pipeline.  The
tasks that look at the traced files, the packages and the copied files only are the ones of the modules before, on that
part of the state.
-/

namespace R4R

/-- What ends the pipeline. -/
inductive PipelineError where
  /-- `TaskException`, with its text -/
  | task (what : List Char)
  | resolve (e : WorkList.Failure String)
  | dependencies (e : PlanFailure)
  | manifest (e : FormatError)
  | filesystem (what : String)
  | dockerfile (e : DockerfileError)

/-- `TracerState` with the whole manifest. -/
structure PipelineState where
  tracedFiles : List FileInfo
  tracedSymlinks : List (Path × Path)
  manifest : FullManifest

namespace PipelineState

/-- The part that the resolvers use. -/
def traced (s : PipelineState) : TracerState := ⟨s.tracedFiles, s.tracedSymlinks, s.manifest.toTraceManifest⟩

/-- The state with another such part. -/
def setTraced (s : PipelineState) (t : TracerState) : PipelineState :=
  ⟨t.tracedFiles, t.tracedSymlinks, { s.manifest with toTraceManifest := t.manifest }⟩

/-- The state that `run_pipeline` starts with. -/
def init (o : Options) : PipelineState where
  tracedFiles := []
  tracedSymlinks := []
  manifest :=
    { copyFiles := initialFiles o.results
      cmd := o.cmd
      cwd := ⟨[]⟩
      envir := .empty
      user := ⟨0, ⟨0, []⟩, [], [], [], []⟩
      timezone := [] }

end PipelineState

/-! ### The tasks -/

namespace FileTracingTask

/-- `std::sort` of the traced files by their paths. -/
def sortFiles (files : List FileInfo) : List FileInfo := files.insertionSort fun a b => a.path ≤ b.path

/-- The symlinks in the order of the `std::map`. -/
def sortSymlinks (links : List (Path × Path)) : List (Path × Path) := links.insertionSort fun a b => a.1 ≤ b.1

/-- `FileTracingTask::run`, from the result of the monitor on. -/
def run (tracer : FileTracer) (result : SyscallMonitor.Result) (s : PipelineState) :
    Except (List Char) PipelineState :=
  match result with
  | .failure => .error "Failed to spawn the process".toList
  | .signal sig => .error ("Program was terminated by signal: ".toList ++ Nat.toDigits 10 sig)
  | .exit code =>
    if code != 0 then .error ("Program exited with: ".toList ++ Nat.toDigits 10 code)
    else .ok { s with
      tracedFiles := sortFiles (s.tracedFiles ++ tracer.files.elems)
      tracedSymlinks := sortSymlinks tracer.symlinks.elems }

end FileTracingTask

/-- What `EditManifestTask` finds: the environment, how an editor ends, when the manifest file was last written before
and after that, and what it holds then. -/
structure EditHost where
  environ : List (List Char)
  exitCode : List Char → Int
  timeBefore : Except String Int
  timeAfter : Except String Int
  text : List Char

namespace EditManifestTask

open CaptureEnvironmentTask

/-- `open_manifest`. -/
def openManifest (h : EditHost) : Bool :=
  match (getenv h.environ "VISUAL".toList).or (getenv h.environ "EDITOR".toList) with
  | none => false
  | some editor => h.exitCode editor != -1

/-- The manifest that the user leaves, where the file is read again. -/
def reread (h : EditHost) (m : FullManifest) : Except PipelineError FullManifest := do
  let ts ← h.timeBefore.mapError .filesystem
  if !openManifest h then return m
  let ts' ← h.timeAfter.mapError .filesystem
  if ts' = ts then return m
  let edited ← (loadManifest h.text m.toManifest).mapError .manifest
  return { m with toManifest := edited }

/-- `EditManifestTask::run`, with the text that it writes. -/
def run (interactive : Bool) (h : EditHost) (m : FullManifest) : Except PipelineError (FullManifest × List Char) := do
  let (text, anyContent) ← (saveManifest m.toManifest).mapError .manifest
  if !interactive || !anyContent then return (m, text)
  let m ← reread h m
  return (m, text)

end EditManifestTask

namespace MakefileBuilderTask

/-- `check_docker_buildx`, from the exit code and the output of `docker build --help` on. -/
def checkDockerBuildx (help : Int × List Char) : Except (List Char) Bool :=
  if help.1 != 0 then .error "Unable to run docker build --help".toList
  else .ok (decide ("--progress".toList <:+: help.2))

/-- `MakefileBuilderTask::run`, with the text that it writes. -/
def run (help : Int × List Char) (imageTag containerName : List Char) (m : Manifest) :
    Except (List Char) (List Char) := do
  let progress ← checkDockerBuildx help
  return generateMakefile progress imageTag containerName m

end MakefileBuilderTask

/-- `RunMakefileTask::run`, from the exit code of `make` on. -/
def RunMakefileTask.run (exitCode : Int) : Except (List Char) Unit :=
  if exitCode != 0 then .error "Failed to run make".toList else .ok ()

/-! ### The run -/

namespace Options

/-- `makefile`, which `Tracer::configure` sets. -/
def makefile (o : Options) : Path := o.outputDir / Path.ofString "Makefile"

/-- The file that the manifest is written to. -/
def manifestFile (o : Options) : Path := o.outputDir / Path.ofString "manifest.conf"

def dockerfileTask (o : Options) : DockerFileBuilderTask := ⟨o.outputDir, o.dockerBaseImage, true⟩

end Options

/-- What the tasks find on the machine. -/
structure PipelineHost where
  environ : List (List Char)
  cwd : Path
  user : UserInfo
  timezone : TimezoneHost
  resolve : ResolveEnv
  systemDependencies : Finset RPackage → List String
  orders : IterationOrders
  edit : EditHost
  build : BuildHost
  stat : Path → Option Stat
  dockerHelp : Int × List Char
  make : Int

/-- What a run leaves: the state, the Dockerfile and the files with their texts. -/
structure PipelineResult where
  state : PipelineState
  dockerfile : DockerFile
  written : List (Path × List Char)

/-- `ResolveFileTask::run`. -/
def ResolveFileTask.run (e : ResolveEnv) (fuel : Nat) (s : PipelineState) : Except PipelineError PipelineState := do
  let t ← (resolveFiles e fuel s.traced).mapError .resolve
  return s.setTraced t

namespace Tracer

/-- The tasks before the manifest is edited, from the end of the traced program on. -/
def collect (h : PipelineHost) (fuel : Nat) (o : Options) (tracer : FileTracer) (result : SyscallMonitor.Result) :
    Except PipelineError PipelineState := do
  let s := PipelineState.init o
  let s := { s with manifest := CaptureEnvironmentTask.run h.environ h.cwd h.user h.timezone s.manifest }
  let s ← (FileTracingTask.run tracer result s).mapError .task
  let s ← ResolveFileTask.run h.resolve fuel s
  let m ← (ResolveRPackageSystemDependencies.run h.resolve.rpkg h.resolve.dpkg h.systemDependencies fuel h.orders
    s.manifest.toTraceManifest).mapError .dependencies
  return s.setTraced { s.traced with manifest := m }

/-- `Tracer::run_pipeline`. -/
def runPipeline (h : PipelineHost) (fuel : Nat) (o : Options) (tracer : FileTracer)
    (result : SyscallMonitor.Result) : Except PipelineError PipelineResult := do
  let s ← collect h fuel o tracer result
  let (m, manifestText) ← EditManifestTask.run (!o.skipManifest) h.edit s.manifest
  let (file, written) ← (o.dockerfileTask.run h.build h.resolve.queries h.stat h.resolve.rpkg fuel h.orders.levels
    m).mapError .dockerfile
  let makefile ← (MakefileBuilderTask.run h.dockerHelp o.dockerImageTag o.dockerContainerName
    m.toManifest).mapError .task
  if o.runMake then (RunMakefileTask.run h.make).mapError .task
  return ⟨{ s with manifest := m }, file, (o.manifestFile, manifestText) :: written ++ [(o.makefile, makefile)]⟩

end Tracer

end R4R
