import Mathlib.Logic.Function.Basic
import R4R.Lib.Emplace
import R4R.Lib.Except
import R4R.Path
import R4R.Ptrace

/-!
# The file tracer

`FileTracer`, the listener that records which files the traced processes use.  A handled syscall has a handler for
its entry stop, which leaves a state under the pid, and a handler for its exit stop, which gets that state back and
records a file or a symbolic link.  What the operating system and the ignore map say while a stop is handled is one
record of answers.
-/

namespace R4R

/-- `fs::file_type`, as `fs::status` gives it. -/
inductive FileType where
  | none
  | notFound
  | regular
  | directory
  | symlink
  | block
  | character
  | fifo
  | socket
  | unknown
deriving DecidableEq

/-- An error of the operating system or of the library. -/
structure SystemError where
  what : String
deriving DecidableEq

/-- The exceptions that leave the tracer. -/
inductive TracerError where
  | system (e : SystemError)
  | alreadyHandler (pid : Pid)
  | noExitHandler (syscall : Int32)
deriving DecidableEq

namespace TracerError

def what : TracerError → String
  | system e => e.what
  | alreadyHandler pid => "There is already a syscall handler for pid: " ++ toString pid
  | noExitHandler syscall => "No exit handler for syscall: " ++ toString syscall

/-- The exceptions about the states of the pids. -/
def IsBookkeeping : TracerError → Prop
  | system _ => False
  | alreadyHandler _ => True
  | noExitHandler _ => True

end TracerError

abbrev Answer := Except SystemError

/-- The overloads without an error code throw. -/
def orThrow {α : Type} : Answer α → Except TracerError α
  | .ok a => .ok a
  | .error e => .error (.system e)

/-- What the calls made while a stop is handled answer. -/
structure Answers where
  /-- `SyscallMonitor::read_string_from_process` -/
  readString : Pid → UInt64 → Answer Path
  readSymlink : Path → Answer Path
  currentPath : Answer Path
  fileExists : Path → Answer Bool
  status : Path → FileType
  isRegularFile : Path → Answer Bool
  fileSize : Path → Answer UInt64
  equivalent : Path → Path → Answer Bool
  /-- `IgnoreFileMap::ignore` -/
  ignore : Path → Answer Bool

def atFdCwd : Int32 := -100

namespace Answers

variable (a : Answers)

/-- `fs::absolute`. -/
def absolute (p : Path) : Answer Path :=
  if p.native.isEmpty then .error ⟨"cannot make absolute path"⟩
  else if p.isAbsolute then .ok p
  else a.currentPath.map fun cwd => cwd / p

def getProcessCwd (pid : Pid) : Except TracerError (Option Path) :=
  if pid = 0 then .error (.system ⟨"Invalid PID."⟩)
  else .ok (a.readSymlink (.ofString ("/proc/" ++ toString pid ++ "/cwd"))).toOption

/-- The link of a file descriptor in `/proc`. -/
def fdLink (pid : Pid) (fd : Int32) : Path :=
  .ofString "/proc" / .ofString (toString pid) / .ofString "fd" / .ofString (toString fd)

def resolveFdFilename (pid : Pid) (fd : Int32) : Option Path := (a.readSymlink (fdLink pid fd)).toOption

/-- The directory that relative paths start from. -/
def directoryAt (pid : Pid) (dirfd : Int32) : Except TracerError (Option Path) :=
  if dirfd = atFdCwd then a.getProcessCwd pid else .ok (a.resolveFdFilename pid dirfd)

/-- `FileTracer::resolve_path_at` up to the question whether the file is ignored. -/
def absolutePathAt (pid : Pid) (dirfd : Int32) (path : Path) : Except TracerError (Option Path) :=
  if path.isAbsolute then .ok (some path.lexicallyNormal)
  else do
    match ← a.directoryAt pid dirfd with
    | none => .ok none
    | some d =>
      match a.absolute d with
      | .error _ => .ok none
      | .ok d => do
        let result ← orThrow (a.absolute (d / path))
        .ok (some result.lexicallyNormal)

/-- `FileTracer::resolve_path_at`. -/
def resolvePathAt (pid : Pid) (dirfd : Int32) (path : Path) : Except TracerError (Option Path) := do
  match ← a.absolutePathAt pid dirfd path with
  | none => .ok none
  | some result => do
    let ignored ← orThrow (a.ignore result)
    .ok (if ignored then none else some result)

/-- The test of the exit handlers that the file is there and that its type is supported. -/
def isSupported (path : Path) : Bool :=
  (match a.fileExists path with
    | .ok e => e
    | .error _ => false) &&
  (a.status path == .regular || a.status path == .directory || a.status path == .symlink)

end Answers

structure FileInfo where
  path : Path
  size : Option UInt64
  existedBefore : Bool
deriving DecidableEq

/-- `std::variant<std::monostate, FileInfo>` -/
inductive SyscallState where
  | monostate
  | fileInfo (info : FileInfo)
deriving DecidableEq

abbrev PidState := Int32 × SyscallState

abbrev FileTracer.Files := Emplace.Table fun info : FileInfo => info.path.parts
abbrev FileTracer.Symlinks := Emplace.Table fun link : Path × Path => link.1.parts

structure FileTracer where
  syscallsCount : UInt64
  state : Pid → Option PidState
  files : FileTracer.Files
  symlinks : FileTracer.Symlinks

namespace FileTracer

def init : FileTracer := ⟨0, fun _ => none, .empty, .empty⟩

/-- The entry that `register_file` makes: an absolute path, and the size of a regular file that existed before. -/
def registeredInfo (a : Answers) (info : FileInfo) : Except TracerError FileInfo :=
  let path :=
    if info.path.isAbsolute then info.path
    else match a.absolute info.path with
      | .ok p => p
      | .error _ => ⟨[]⟩
  let size := match a.fileSize path with
    | .ok size => some size
    | .error _ => info.size
  if info.existedBefore then do
    let regular ← orThrow (a.isRegularFile path)
    .ok ⟨path, if regular then size else info.size, true⟩
  else .ok ⟨path, info.size, false⟩

/-- `FileTracer::register_file`. -/
def registerFile (t : FileTracer) (a : Answers) (info : FileInfo) : Except TracerError FileTracer := do
  let info ← registeredInfo a info
  .ok { t with files := t.files.emplace info }

/-! ### The handlers -/

abbrev EntryHandler := Answers → Pid → SyscallArgs → Except TracerError SyscallState

abbrev ExitHandler := FileTracer → Answers → Pid → SyscallRet → Bool → SyscallState → Except TracerError FileTracer

def genericOpenEntry (a : Answers) (pid : Pid) (dirfd : Int32) (path : Path) : Except TracerError SyscallState := do
  match ← a.resolvePathAt pid dirfd path with
  | none => .ok .monostate
  | some result =>
    match a.fileExists result with
    | .error _ => .ok .monostate
    | .ok e => .ok (.fileInfo ⟨result, none, e⟩)

def genericOpenExit (t : FileTracer) (a : Answers) (pid : Pid) (retVal : SyscallRet) (isError : Bool)
    (state : SyscallState) : Except TracerError FileTracer :=
  if isError then .ok t
  else match state with
    | .monostate => .ok t
    | .fileInfo info =>
      if !a.isSupported info.path then .ok t
      else if 0 ≤ retVal then
        match a.resolveFdFilename pid retVal.toInt32 with
        | none => .ok t
        | some exitFile =>
          match a.equivalent exitFile info.path with
          | .ok true => t.registerFile a info
          | _ => .ok t
      else .ok t

/-- The entry handlers of `readlink` and `execve` do not ask whether the file exists. -/
def genericReadlinkEntry (a : Answers) (pid : Pid) (dirfd : Int32) (path : Path) :
    Except TracerError SyscallState := do
  match ← a.resolvePathAt pid dirfd path with
  | none => .ok .monostate
  | some result => .ok (.fileInfo ⟨result, none, false⟩)

def genericReadlinkExit (t : FileTracer) (a : Answers) (isError : Bool) (state : SyscallState) :
    Except TracerError FileTracer :=
  if isError then .ok t
  else match state with
    | .monostate => .ok t
    | .fileInfo info =>
      match a.readSymlink info.path with
      | .error _ => .ok t
      | .ok target => do
        let ignored ← orThrow (a.ignore target)
        .ok (if ignored then t else { t with symlinks := t.symlinks.emplace (info.path, target) })

/-- `static_cast<int>` of a register. -/
def toInt (n : UInt64) : Int32 := n.toUInt32.toInt32

def syscallOpenatEntry : EntryHandler := fun a pid args => do
  let path ← orThrow (a.readString pid args[1])
  genericOpenEntry a pid (toInt args[0]) path

def syscallOpenatExit : ExitHandler := genericOpenExit

def syscallOpenEntry : EntryHandler := fun a pid args => do
  let path ← orThrow (a.readString pid args[0])
  genericOpenEntry a pid atFdCwd path

def syscallOpenExit : ExitHandler := genericOpenExit

def syscallExecveEntry : EntryHandler := fun a pid args => do
  let path ← orThrow (a.readString pid args[0])
  match ← a.resolvePathAt pid atFdCwd path with
  | none => .ok .monostate
  | some result => .ok (.fileInfo ⟨result, none, false⟩)

/-- A program that was executed has existed. -/
def syscallExecveExit : ExitHandler := fun t a _ _ isError state =>
  if isError then .ok t
  else match state with
    | .monostate => .ok t
    | .fileInfo info => t.registerFile a { info with existedBefore := true }

def syscallReadlinkEntry : EntryHandler := fun a pid args => do
  let path ← orThrow (a.readString pid args[0])
  genericReadlinkEntry a pid atFdCwd path

def syscallReadlinkExit : ExitHandler := fun t a _ _ isError state => t.genericReadlinkExit a isError state

def syscallReadlinkatEntry : EntryHandler := fun a pid args => do
  let path ← orThrow (a.readString pid args[1])
  genericReadlinkEntry a pid (toInt args[0]) path

def syscallReadlinkatExit : ExitHandler := fun t a _ _ isError state => t.genericReadlinkExit a isError state

def syscallNewfstatatEntry : EntryHandler := fun a pid args => do
  let path ← orThrow (a.readString pid args[1])
  genericOpenEntry a pid (toInt args[0]) path

def syscallNewfstatatExit : ExitHandler := fun t a _ _ isError state =>
  if isError then .ok t
  else match state with
    | .monostate => .ok t
    | .fileInfo info => if !a.isSupported info.path then .ok t else t.registerFile a info

/-! ### The table of handlers -/

structure SyscallHandler where
  entry : EntryHandler
  exit : ExitHandler

inductive Syscall where
  | open
  | readlink
  | openat
  | execve
  | readlinkat
  | newfstatat
deriving DecidableEq

def Syscall.handler : Syscall → SyscallHandler
  | .open => ⟨syscallOpenEntry, syscallOpenExit⟩
  | .readlink => ⟨syscallReadlinkEntry, syscallReadlinkExit⟩
  | .openat => ⟨syscallOpenatEntry, syscallOpenatExit⟩
  | .execve => ⟨syscallExecveEntry, syscallExecveExit⟩
  | .readlinkat => ⟨syscallReadlinkatEntry, syscallReadlinkatExit⟩
  | .newfstatat => ⟨syscallNewfstatatEntry, syscallNewfstatatExit⟩

inductive Arch where
  | x86_64
  | aarch64

/-- The registered syscalls under their numbers, `__NR_open` and so on. -/
def registered : Arch → List (UInt64 × Syscall)
  | .x86_64 => [(2, .open), (89, .readlink), (257, .openat), (59, .execve), (267, .readlinkat), (262, .newfstatat)]
  | .aarch64 => [(56, .openat), (221, .execve), (78, .readlinkat), (79, .newfstatat)]

def syscallOf (arch : Arch) (nr : UInt64) : Option Syscall := (registered arch).lookup nr

/-- The lookup of a number in `kHandlers_`. -/
def kHandlers (arch : Arch) (nr : UInt64) : Option SyscallHandler := (syscallOf arch nr).map Syscall.handler

/-! ### The stops -/

variable (arch : Arch)

def onSyscallEntry (t : FileTracer) (a : Answers) (pid : Pid) (syscall : UInt64) (args : SyscallArgs) :
    Except TracerError FileTracer :=
  let t := { t with syscallsCount := t.syscallsCount + 1 }
  match kHandlers arch syscall with
  | none => .ok t
  | some handler => do
    let state ← handler.entry a pid args
    match t.state pid with
    | some _ => .error (.alreadyHandler pid)
    | none => .ok { t with state := Function.update t.state pid (some (toInt syscall, state)) }

def onSyscallExit (t : FileTracer) (a : Answers) (pid : Pid) (retVal : SyscallRet) (isError : Bool) :
    Except TracerError FileTracer :=
  match t.state pid with
  | none => .ok t
  | some (syscall, state) =>
    let t := { t with state := Function.update t.state pid none }
    match kHandlers arch syscall.toInt64.toUInt64 with
    | none => .error (.noExitHandler syscall)
    | some handler => handler.exit t a pid retVal isError state

end FileTracer

/-! ### The arguments with a path -/

open FileTracer

/-- The directory descriptor and the address of the path of a call that opens a file. -/
def openArg (args : SyscallArgs) : Syscall → Option (Int32 × UInt64)
  | .open => some (atFdCwd, args[0])
  | .openat => some (toInt args[0], args[1])
  | .readlink => none
  | .execve => none
  | .readlinkat => none
  | .newfstatat => none

/-- The directory descriptor and the address of the path, for the calls whose exit can record a file. -/
def ExistedBefore.fileArg (args : SyscallArgs) : Syscall → Option (Int32 × UInt64)
  | .open => some (atFdCwd, args[0])
  | .openat => some (toInt args[0], args[1])
  | .execve => some (atFdCwd, args[0])
  | .newfstatat => some (toInt args[0], args[1])
  | .readlink => none
  | .readlinkat => none

end R4R
