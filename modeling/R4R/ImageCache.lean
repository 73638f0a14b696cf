import Mathlib.Logic.Function.Basic
import R4R.CommandLine
import R4R.DefaultImageFiles
import R4R.Lib.Runs

/-!
# The cache of default image files

`load_image_default_files` over sequences of runs on one machine.  The file is named after the base image that
`Options` has before the command line is read, so it is the same for all images, and a run that finds it loads what an
earlier run has stored (`loads_own_iff`).
-/

namespace R4R

/-- What stays the same between the runs: the environment, and what Docker images list. -/
structure Machine where
  xdgCacheHome : Option Path
  home : Option Path
  cacheDir : Path
  hasCacheDir : getUserCacheDir xdgCacheHome home = .ok cacheDir
  /-- the output of the command that `from_image` runs in a container, unless it fails -/
  listImage : List Char → Option (List Char)
  order : PathSort

namespace Machine

/-- `DefaultImageFiles::from_image`. -/
def fromImage (m : Machine) (image : List Char) : Option DefaultImageFiles :=
  (m.listImage image).map (DefaultImageFiles.fromStream m.order)

/-- The texts of the files that runs have stored. -/
abbrev Disk := Path → Option (List Char)

/-- A run of `r4r` without `--default-image-file`. -/
structure CommandRun (m : Machine) where
  argv : List (List Char)
  osRelease : OsRelease
  currentPath : Path
  /-- the cache file is opened when it is there -/
  canOpen : Bool
  /-- the cache file can be stored -/
  canStore : Bool
  noDefaultImageFile :
    Options.givesDefaultImageFile currentPath { Options.init m.cacheDir with osRelease } argv = false

/-- The options after `parse_cmd_args`. -/
def CommandRun.options {m : Machine} (r : CommandRun m) : Option Options :=
  match Options.parseCmdArgs r.currentPath { Options.init m.cacheDir with osRelease := r.osRelease } r.argv with
  | .ok _ p => some p.captured
  | .error _ _ => none

/-- `load_image_default_files`: the disk afterwards, and the paths that are added to the ignore map unless it throws. -/
def loadImageDefaultFiles (m : Machine) (canOpen canStore : Bool) (disk : Disk) (defaultImageFile : Path)
    (dockerBaseImage : List Char) : Disk × Option (List (List Char)) :=
  match disk defaultImageFile with
  | some text => (disk, if canOpen then some (DefaultImageFiles.fromStream m.order text).paths else none)
  | none =>
    match m.fromImage dockerBaseImage with
    | none => (disk, none)
    | some files =>
      (if canStore then Function.update disk defaultImageFile (some files.save) else disk, some files.paths)

/-- The disk, and for each run that has loaded the default image files its base image and the paths. -/
structure State where
  disk : Disk
  loads : List (List Char × List (List Char))

/-- An empty cache directory. -/
def start : State := ⟨fun _ => none, []⟩

def step (m : Machine) (s : State) (r : CommandRun m) : Option State :=
  match r.options with
  | none => some s
  | some opts =>
    let (disk, paths) := m.loadImageDefaultFiles r.canOpen r.canStore s.disk opts.defaultImageFile opts.dockerBaseImage
    some ⟨disk, s.loads ++ (paths.map fun paths => (opts.dockerBaseImage, paths)).toList⟩

/-- Every run has loaded the files that its own base image lists. -/
def OwnFiles (m : Machine) (s : State) : Prop :=
  ∀ load ∈ s.loads, ∃ files, m.fromImage load.1 = some files ∧ load.2 = files.paths

/-- The one file in which all runs look. -/
def cacheFile (m : Machine) : Path := Options.cacheFile m.cacheDir []

/-- The image whose list is stored in the cache file, if there is one that the run can open, lists the paths that the
base image of the run lists. -/
def SameImage (m : Machine) (s : State) (r : CommandRun m) : Prop :=
  ∀ opts, r.options = some opts → r.canOpen = true → ∀ image files, m.fromImage image = some files →
    s.disk m.cacheFile = some files.save →
      ∃ own, m.fromImage opts.dockerBaseImage = some own ∧ own.paths = files.paths

variable {m : Machine}

private theorem defaultImageFile_of_options {r : CommandRun m} {opts : Options} (h : r.options = some opts) :
    opts.defaultImageFile = m.cacheFile := by
  unfold CommandRun.options at h
  split at h
  · rename_i u p hrun
    obtain rfl := Option.some.inj h
    have hnone := r.noDefaultImageFile
    rw [Options.givesDefaultImageFile, hrun] at hnone
    exact Options.defaultImageFile_of_parseCmdArgs hrun hnone
  · cases h

/-- What is stored is the list of an image. -/
def Stored (m : Machine) (s : State) : Prop :=
  ∀ file text, s.disk file = some text → ∃ image files, m.fromImage image = some files ∧ text = files.save

private theorem step_stored (s : State) (r : CommandRun m) (s' : State) (hs : Stored m s) (h : m.step s r = some s') :
    Stored m s' := by
  unfold step at h
  split at h
  · exact Option.some.inj h ▸ hs
  · rename_i opts hopts
    obtain rfl := Option.some.inj h
    intro file text htext
    dsimp only at htext
    split at htext
    · exact hs file text htext
    · split at htext
      · exact hs file text htext
      · rename_i files hfiles
        by_cases hstore : r.canStore = true
        · simp only [hstore, if_true, Function.update_apply] at htext
          split at htext
          · exact ⟨opts.dockerBaseImage, files, hfiles, (Option.some.inj htext).symm⟩
          · exact hs file text htext
        · simp only [if_neg hstore] at htext
          exact hs file text htext

/-- The paths that are read back from a stored list are its paths. -/
private theorem paths_of_stored {image : List Char} {files : DefaultImageFiles} (h : m.fromImage image = some files) :
    (DefaultImageFiles.fromStream m.order files.save).paths = files.paths := by
  obtain ⟨text, -, rfl⟩ := Option.map_eq_some_iff.1 h
  exact DefaultImageFiles.paths_fromStream_save m.order text

private theorem ownFiles_append {s : State} {disk : Disk} {image : List Char} {paths : List (List Char)} :
    OwnFiles m ⟨disk, s.loads ++ [(image, paths)]⟩ ↔
      OwnFiles m s ∧ ∃ files, m.fromImage image = some files ∧ paths = files.paths := by
  simp only [OwnFiles, List.mem_append, List.mem_singleton, or_imp, forall_and, forall_eq]

/-- A run keeps the property exactly when the cache file is not that of another image. -/
private theorem step_ownFiles_iff (s : State) (r : CommandRun m) (s' : State) (hs : Stored m s)
    (h : m.step s r = some s') :
    OwnFiles m s' ↔ OwnFiles m s ∧ SameImage m s r := by
  unfold step at h
  cases hopts : r.options with
  | none =>
    simp only [hopts] at h
    obtain rfl := Option.some.inj h
    exact ⟨fun hown => ⟨hown, fun opts ho => by rw [hopts] at ho; cases ho⟩, And.left⟩
  | some opts =>
    simp only [hopts] at h
    obtain rfl := Option.some.inj h
    have hfile := defaultImageFile_of_options hopts
    simp only [loadImageDefaultFiles, hfile]
    cases hdisk : s.disk m.cacheFile with
    | some text =>
      obtain ⟨image, files, hfiles, rfl⟩ := hs _ _ hdisk
      by_cases hopen : r.canOpen = true
      · simp only [hopen, if_true, Option.map_some, Option.toList_some, ownFiles_append, paths_of_stored hfiles]
        refine and_congr_right fun _ => ⟨?_, fun hsame => ?_⟩
        · rintro ⟨own, hown, heq⟩ opts' hopts' - image' files' hfiles' hdisk'
          obtain rfl := Option.some.inj (hopts.symm.trans hopts')
          refine ⟨own, hown, ?_⟩
          rw [hdisk, Option.some.injEq] at hdisk'
          rw [← heq, ← paths_of_stored hfiles, hdisk', paths_of_stored hfiles']
        · obtain ⟨own, hown, heq⟩ := hsame opts hopts hopen image files hfiles hdisk
          exact ⟨own, hown, heq.symm⟩
      · simp only [if_neg hopen, Option.map_none, Option.toList_none, List.append_nil]
        exact ⟨fun hown => ⟨hown, fun _ _ hopen' => absurd hopen' hopen⟩, And.left⟩
    | none =>
      have hsame : SameImage m s r := fun _ _ _ _ _ _ hdisk' => by rw [hdisk] at hdisk'; cases hdisk'
      cases himage : m.fromImage opts.dockerBaseImage with
      | none =>
        simp only [Option.map_none, Option.toList_none, List.append_nil]
        exact ⟨fun hown => ⟨hown, hsame⟩, And.left⟩
      | some files =>
        simp only [Option.map_some, Option.toList_some, ownFiles_append]
        exact ⟨fun hown => ⟨hown.1, hsame⟩, fun hown => ⟨hown.1, files, himage, rfl⟩⟩

/-- In every sequence of runs from an empty cache, all runs load the files of their own base image exactly when no run
finds the list of an image with other paths. -/
theorem loads_own_iff (m : Machine) (runs : List (CommandRun m)) {s : State} (h : Runs.run m.step start runs = some s) :
    OwnFiles m s ↔ Runs.AllSteps m.step (SameImage m) start runs := by
  have hiff := Runs.iff_allSteps (G := OwnFiles m) step_stored step_ownFiles_iff
    (show Stored m start from fun _ _ hd => by cases hd) h
  rw [hiff]
  exact and_iff_right fun load hload => by cases hload

/-- Two images, of one file each. -/
def twoImages : Machine where
  xdgCacheHome := none
  home := some (.ofString "/home/u")
  cacheDir := .ofString "/home/u/.cache"
  hasCacheDir := by decide
  listImage := fun image =>
    let line (path : String) := kDelimUtf8.intercalate ([path, "root", "root", "10", "644", "da39"].map String.toList)
    if image = "ubuntu:22.04".toList then some (line "/etc/lsb-release" ++ ['\n'])
    else if image = "debian:12".toList then some (line "/etc/debian_version" ++ ['\n'])
    else none
  order := .insertion

/-- A run on Ubuntu that traces `R` over the given base image. -/
def traceR (image : String) (h : Options.givesDefaultImageFile (.ofString "/home/u")
    { Options.init twoImages.cacheDir with osRelease := ⟨"ubuntu".toList, "22.04".toList⟩ }
    (["r4r", "--docker-base-image", image, "R"].map String.toList) = false) : CommandRun twoImages where
  argv := ["r4r", "--docker-base-image", image, "R"].map String.toList
  osRelease := ⟨"ubuntu".toList, "22.04".toList⟩
  currentPath := .ofString "/home/u"
  canOpen := true
  canStore := true
  noDefaultImageFile := h

def ubuntuRun : CommandRun twoImages := traceR "ubuntu:22.04" (by decide +kernel)

def debianRun : CommandRun twoImages := traceR "debian:12" (by decide +kernel)

theorem loads_own_debianRun : ∃ s, Runs.run twoImages.step start [debianRun] = some s ∧ OwnFiles twoImages s := by
  have hruns : (Runs.run twoImages.step start [debianRun]).isSome = true := by decide +kernel
  obtain ⟨s, hs⟩ := Option.isSome_iff_exists.1 hruns
  refine ⟨s, hs, (loads_own_iff twoImages [debianRun] hs).2 ⟨?_, ?_⟩⟩
  · intro opts _ _ image files _ hdisk
    cases hdisk
  · split <;> trivial

/-- The second run ignores the file of the image of the first one, and not that of its own image. -/
theorem loads_of_earlier_image :
    ∃ s, Runs.run twoImages.step start [ubuntuRun, debianRun] = some s ∧
      s.loads = [("ubuntu:22.04".toList, ["/etc/lsb-release".toList]),
        ("debian:12".toList, ["/etc/lsb-release".toList])] ∧
      (twoImages.fromImage "debian:12".toList).map DefaultImageFiles.paths = some ["/etc/debian_version".toList] ∧
      ¬ OwnFiles twoImages s := by
  have hruns : (Runs.run twoImages.step start [ubuntuRun, debianRun]).map State.loads =
      some [("ubuntu:22.04".toList, ["/etc/lsb-release".toList]),
        ("debian:12".toList, ["/etc/lsb-release".toList])] := by decide +kernel
  have hlisted : (twoImages.fromImage "debian:12".toList).map DefaultImageFiles.paths =
      some ["/etc/debian_version".toList] := by decide +kernel
  obtain ⟨s, hs, hloads⟩ := Option.map_eq_some_iff.1 hruns
  refine ⟨s, hs, hloads, hlisted, fun h => ?_⟩
  obtain ⟨files, hfiles, hpaths⟩ := h ("debian:12".toList, ["/etc/lsb-release".toList]) (by rw [hloads]; simp)
  rw [hfiles, Option.map_some, ← hpaths] at hlisted
  exact absurd hlisted (by decide)

end Machine

end R4R
