import R4R.ArgumentParser
import R4R.Lib.Emplace
import R4R.Path

/-!
# The command line

`Options` with its default member initializers, and `parse_cmd_args`.  The initializer of `default_image_file` uses
`docker_base_image` before it is set, and only the option `--default-image-file` changes it afterwards.
-/

namespace R4R

/-- `LogLevel`. -/
inductive LogLevel where
  | trace
  | debug
  | info
  | warning
  | error
  | fatal
deriving DecidableEq, Repr

/-- `operator--`. -/
def LogLevel.pred : LogLevel → LogLevel
  | trace => trace
  | debug => trace
  | info => debug
  | warning => info
  | error => warning
  | fatal => error

structure OsRelease where
  distribution : List Char
  release : List Char
deriving DecidableEq, Repr

/-- `base_image`. -/
def baseImage (os : OsRelease) : List Char :=
  let r := if os.distribution = "debian".toList ∧ os.release.isEmpty then "sid".toList else os.release
  os.distribution ++ ':' :: r

def kBinaryName : List Char := "r4r".toList

/-- `get_user_cache_dir`, with the values of `XDG_CACHE_HOME` and `HOME`. -/
def getUserCacheDir (xdg home : Option Path) : Except String Path :=
  match xdg, home with
  | some dir, _ => .ok dir
  | none, some home => .ok (home / Path.ofString ".cache")
  | none, none => .error "Unable to get user HOME directory"

/-- `Options`, as far as the command line sets them. -/
structure Options where
  osRelease : OsRelease
  logLevel : LogLevel
  cmd : List (List Char)
  dockerBaseImage : List Char
  dockerImageTag : List Char
  dockerContainerName : List Char
  outputDir : Path
  defaultImageFile : Path
  results : List Path
  runMake : Bool
  skipManifest : Bool

namespace Options

/-- The file that lists the default files of an image. -/
def cacheFile (cacheDir : Path) (dockerBaseImage : List Char) : Path :=
  cacheDir / ⟨kBinaryName⟩ / ⟨dockerBaseImage ++ ".cache".toList⟩

/-- The default member initializers, in the order of the members. -/
def init (cacheDir : Path) : Options :=
  let dockerBaseImage := []
  { osRelease := ⟨[], []⟩
    logLevel := .warning
    cmd := []
    dockerBaseImage := dockerBaseImage
    dockerImageTag := kBinaryName ++ "/test".toList
    dockerContainerName := kBinaryName ++ "-test".toList
    outputDir := .ofString "."
    defaultImageFile := cacheFile cacheDir dockerBaseImage
    results := []
    runMake := true
    skipManifest := false }

/-- `AbsolutePathSet::insert`. -/
def insertResult (currentPath : Path) (results : List Path) (p : Path) : List Path :=
  if p.native.isEmpty then results else Emplace.emplace Path.parts results (currentPath / p)

/-- The parser that `parse_cmd_args` builds for the options it is given. -/
def parser (currentPath : Path) (opts : Options) : ArgumentParser Options where
  captured := opts
  options := [
    { shortName := ['v']
      longName := "verbose".toList
      callback := some fun _ o => .ok { o with logLevel := o.logLevel.pred } },
    { longName := "docker-image-tag".toList
      defaultValue := some opts.dockerImageTag
      hasArg := some "NAME".toList
      callback := some fun arg o => .ok { o with dockerImageTag := arg } },
    { longName := "docker-container-name".toList
      defaultValue := some opts.dockerContainerName
      hasArg := some "NAME".toList
      callback := some fun arg o => .ok { o with dockerContainerName := arg } },
    { longName := "docker-base-image".toList
      defaultValue := some opts.dockerBaseImage
      hasArg := some "NAME".toList
      callback := some fun arg o => .ok { o with dockerBaseImage := arg } },
    { longName := "result".toList
      hasArg := some "PATH".toList
      callback := some fun arg o => .ok { o with results := insertResult currentPath o.results ⟨arg⟩ } },
    { longName := "output".toList
      hasArg := some "PATH".toList
      callback := some fun arg o => .ok { o with outputDir := ⟨arg⟩ } },
    { longName := "skip-make".toList
      callback := some fun _ o => .ok { o with runMake := false } },
    { longName := "skip-manifest".toList
      callback := some fun _ o => .ok { o with skipManifest := true } },
    { longName := "default-image-file".toList
      hasArg := some "PATH".toList
      callback := some fun arg o => .ok { o with defaultImageFile := ⟨arg⟩ } },
    { longName := "help".toList
      callback := some fun _ _ => .error (.exit 0) }]
  positionals := [
    { name := "command".toList
      isRequired := true
      allowsMultiple := true
      callback := some fun arg o => .ok { o with cmd := o.cmd ++ [arg] } }]

/-- `parse_cmd_args`. -/
def parseCmdArgs (currentPath : Path) (opts : Options) (argv : List (List Char)) :
    EStateM.Result ParserFailure (ArgumentParser Options) Unit :=
  ArgumentParser.parse argv (parser currentPath { opts with dockerBaseImage := baseImage opts.osRelease })

/-- The token that names the file of the default image files. -/
def defaultImageFileOption : List Char := "default-image-file".toList

/-- The command line gives the file of the default image files. -/
def givesDefaultImageFile (currentPath : Path) (opts : Options) (argv : List (List Char)) : Bool :=
  match parseCmdArgs currentPath opts argv with
  | .ok _ p => p.contains defaultImageFileOption
  | .error _ _ => false

/-- Without its option the file of the default image files is the one of the initializer. -/
theorem defaultImageFile_of_parseCmdArgs {currentPath : Path} {opts : Options} {argv : List (List Char)}
    {p : ArgumentParser Options} {u : Unit} (hrun : parseCmdArgs currentPath opts argv = .ok u p)
    (h : p.contains defaultImageFileOption = false) : p.captured.defaultImageFile = opts.defaultImageFile := by
  refine ArgumentParser.captured_of_not_contains Options.defaultImageFile ?_ ?_ hrun h
  · intro opt hopt hnamed f hf value c c' hc
    simp only [parser, List.mem_cons, List.not_mem_nil, or_false] at hopt
    rcases hopt with rfl | rfl | rfl | rfl | rfl | rfl | rfl | rfl | rfl | rfl
    case inr.inr.inr.inr.inr.inr.inr.inr.inl => exact absurd hnamed (by decide)
    all_goals
      obtain rfl := Option.some.inj hf
      first
      | obtain rfl := Except.ok.inj hc
        rfl
      | cases hc
  · intro pos hpos f hf value c c' hc
    obtain rfl := List.mem_singleton.1 hpos
    obtain rfl := Option.some.inj hf
    obtain rfl := Except.ok.inj hc
    rfl

end Options

end R4R
