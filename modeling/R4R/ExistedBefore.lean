import R4R.FileTracerHandlers
import R4R.Lib.Runs

/-!
# Files that existed before

Processes that open, create and execute files, the kernel that executes their calls, and the file tracer that asks at
an entry stop whether the file exists and records it at the exit stop.  A file is created by `open` and `openat` only
and has one absolute path, the one that the tracer resolves.  A call that finds a file between its creation and the exit
stop of the creating call takes it for one that existed before.
-/

namespace R4R.ExistedBefore

open FileTracer

/-- A file name: the elements of its path. -/
abbrev Name := List (List Char)

/-- A call between its stops. -/
inductive Phase where
  | entered
  | failed (ret : SyscallRet)
  /-- executed; the call has created the file, which is still there -/
  | done (ret : SyscallRet) (made : Bool)

structure Call where
  /-- the file that the call is about, for the calls whose exit can record a file -/
  target : Option (Syscall × Path)
  /-- the call has found the file before the exit stop of the call that created it -/
  early : Bool
  phase : Phase

structure System where
  tracer : FileTracer
  fileType : Name → FileType
  /-- the call that created the file has not come to its exit stop -/
  fresh : Name → Bool
  calls : Pid → Option Call

def start (initial : Name → FileType) : System := ⟨.init, initial, fun _ => false, fun _ => none⟩

inductive Label where
  | entry (pid : Pid) (nr : UInt64) (args : SyscallArgs) (answers : Answers)
  /-- the kernel executes the call -/
  | fail (pid : Pid) (ret : SyscallRet)
  | succeed (pid : Pid) (ret : SyscallRet)
  | create (pid : Pid) (ret : SyscallRet)
  | exit (pid : Pid) (answers : Answers)
  /-- a file is removed -/
  | remove (name : Name)

variable (arch : Arch) (initial : Name → FileType) (ignored : Name → Bool)

/-- The file that a call is about; no answer when it has no absolute path. -/
def targetOf (a : Answers) (pid : Pid) (nr : UInt64) (args : SyscallArgs) : Option (Option (Syscall × Path)) :=
  match syscallOf arch nr with
  | none => some none
  | some c =>
    match fileArg args c with
    | none => some none
    | some (dirfd, addr) =>
      match orThrow (a.readString pid addr) >>= a.absolutePathAt pid dirfd with
      | .ok (some path) => if path.isAbsolute then some (some (c, path)) else none
      | _ => none

namespace System

/-- The answers with what the file system and the ignore map say now. -/
def answers (s : System) (a : Answers) : Answers :=
  { a with
    fileExists := fun p => .ok (s.fileType p.parts != .notFound)
    status := fun p => s.fileType p.parts
    isRegularFile := fun p => .ok (s.fileType p.parts == .regular)
    equivalent := fun p q => .ok (p.parts == q.parts)
    ignore := fun p => .ok (ignored p.parts) }

/-- The descriptor of a created file that is still there leads to its path. -/
def exitAnswers (s : System) (pid : Pid) (target : Option (Syscall × Path)) (ret : SyscallRet) (made : Bool)
    (a : Answers) : Answers :=
  match target, made with
  | some (_, path), true =>
    { s.answers ignored a with
      readSymlink := fun p => if p = Answers.fdLink pid ret.toInt32 then .ok path else a.readSymlink p }
  | _, _ => s.answers ignored a

/-- `execve` looks for no file at its entry stop. -/
def earlyAtEntry (s : System) : Option (Syscall × Path) → Bool
  | some (c, path) => c != .execve && s.fresh path.parts
  | none => false

def entryStep (s : System) (pid : Pid) (nr : UInt64) (args : SyscallArgs) (a : Answers) : Option System :=
  match targetOf arch (s.answers ignored a) pid nr args with
  | none => none
  | some target =>
    match onSyscallEntry arch s.tracer (s.answers ignored a) pid nr args with
    | .error _ => none
    | .ok t =>
      some { s with
        tracer := t
        calls := Function.update s.calls pid (some ⟨target, s.earlyAtEntry target, .entered⟩) }

/-- `execve` finds the file when it is executed. -/
def succeedStep (s : System) (pid : Pid) (target : Option (Syscall × Path)) (early : Bool) (ret : SyscallRet) :
    Option System :=
  match target with
  | none => some { s with calls := Function.update s.calls pid (some ⟨none, early, .done ret false⟩) }
  | some (c, path) =>
    if s.fileType path.parts = .notFound then none
    else
      let early := if c = .execve then s.fresh path.parts else early
      some { s with calls := Function.update s.calls pid (some ⟨some (c, path), early, .done ret false⟩) }

def createStep (s : System) (pid : Pid) (c : Syscall) (path : Path) (early : Bool) (ret : SyscallRet) :
    Option System :=
  if (c = .open ∨ c = .openat) ∧ s.fileType path.parts = .notFound ∧ 0 ≤ ret then
    some { s with
      fileType := Function.update s.fileType path.parts .regular
      fresh := Function.update s.fresh path.parts true
      calls := Function.update s.calls pid (some ⟨some (c, path), early, .done ret true⟩) }
  else none

def exitStep (s : System) (pid : Pid) (target : Option (Syscall × Path)) (ret : SyscallRet) (isError made : Bool)
    (a : Answers) : Option System :=
  match onSyscallExit arch s.tracer (s.exitAnswers ignored pid target ret made a) pid ret isError with
  | .error _ => none
  | .ok t =>
    some { s with
      tracer := t
      fresh := match target, made with
        | some (_, path), true => Function.update s.fresh path.parts false
        | _, _ => s.fresh
      calls := Function.update s.calls pid none }

end System

/-- A call whose file is removed. -/
def Call.unlink (name : Name) (c : Call) : Call :=
  match c.target, c.phase with
  | some (_, path), .done ret made => { c with phase := .done ret (made && path.parts != name) }
  | _, _ => c

namespace System

def removeStep (s : System) (name : Name) : System :=
  { s with
    fileType := Function.update s.fileType name .notFound
    fresh := Function.update s.fresh name false
    calls := fun pid => (s.calls pid).map (Call.unlink name) }

def step (s : System) : Label → Option System
  | .entry pid nr args a =>
    match s.calls pid with
    | none => s.entryStep arch ignored pid nr args a
    | some _ => none
  | .fail pid ret =>
    match s.calls pid with
    | some ⟨target, early, .entered⟩ =>
      some { s with calls := Function.update s.calls pid (some ⟨target, early, .failed ret⟩) }
    | _ => none
  | .succeed pid ret =>
    match s.calls pid with
    | some ⟨target, early, .entered⟩ => s.succeedStep pid target early ret
    | _ => none
  | .create pid ret =>
    match s.calls pid with
    | some ⟨some (c, path), early, .entered⟩ => s.createStep pid c path early ret
    | _ => none
  | .exit pid a =>
    match s.calls pid with
    | some ⟨target, _, .failed ret⟩ => s.exitStep arch ignored pid target ret true false a
    | some ⟨target, _, .done ret made⟩ => s.exitStep arch ignored pid target ret false made a
    | _ => none
  | .remove name => some (s.removeStep name)

/-- The files that are recorded as having existed before did so. -/
def OldFilesExisted (s : System) : Prop :=
  ∀ info ∈ s.tracer.files.elems, info.existedBefore = true → initial info.path.parts ≠ .notFound

/-- The file that the exit stop of `pid` comes to register, if its call has found it before the exit stop of the call
that created it. -/
def registersEarly (s : System) (pid : Pid) (a : Answers) : Option Path :=
  match s.calls pid with
  | some ⟨some (c, path), true, .done ret made⟩ =>
    let answers := s.exitAnswers ignored pid (some (c, path)) ret made a
    if !ignored path.parts && registersAtExit c answers pid ret path then some path else none
  | _ => none

end System

/-- An exit stop that comes to register a file, which its call has found before the exit stop of the call that created
it, finds the file recorded. -/
def InOrder (s : System) : Label → Prop
  | .exit pid a =>
    ∀ path ∈ s.registersEarly ignored pid a, initial path.parts ≠ .notFound ∨ path.parts ∈ s.tracer.files.keys
  | _ => True

instance (s : System) : ∀ e, Decidable (InOrder initial ignored s e)
  | .exit pid a => inferInstanceAs (Decidable (∀ path ∈ s.registersEarly ignored pid a, _))
  | .entry .. => isTrue trivial
  | .fail .. => isTrue trivial
  | .succeed .. => isTrue trivial
  | .create .. => isTrue trivial
  | .remove _ => isTrue trivial

end R4R.ExistedBefore
