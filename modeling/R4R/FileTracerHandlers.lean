import R4R.FileTracer

/-!
# The handlers of the file tracer

Two facts about every handler.  The exceptions that it throws are those of the system, never the ones about the states
of the pids.  And what an exit handler records does not depend on what the tracer has recorded before, so it can be
read off a run on an empty tracer.
-/

namespace R4R.FileTracer

/-! ### The exceptions of the handlers -/

/-- The computation throws no exception about the states of the pids. -/
def NoBookkeeping {α : Type} (x : Except TracerError α) : Prop := ∀ err, x = .error err → ¬ err.IsBookkeeping

namespace NoBookkeeping

variable {α β : Type}

theorem ok (a : α) : NoBookkeeping (.ok a) := by
  intro err h
  cases h

private theorem orThrow (x : Answer α) : NoBookkeeping (orThrow x) := by
  intro err h
  cases x with
  | ok a => cases h
  | error e =>
    cases h
    exact id

theorem bind {x : Except TracerError α} {f : α → Except TracerError β} (hx : NoBookkeeping x)
    (hf : ∀ a, NoBookkeeping (f a)) : NoBookkeeping (x >>= f) := by
  intro err h
  cases x with
  | ok a => exact hf a err h
  | error e =>
    cases h
    exact hx err rfl

end NoBookkeeping

private theorem noBookkeeping_resolvePathAt (a : Answers) (pid : Pid) (dirfd : Int32) (path : Path) :
    NoBookkeeping (a.resolvePathAt pid dirfd path) := by
  have hcwd : NoBookkeeping (a.getProcessCwd pid) := by
    unfold Answers.getProcessCwd
    split
    · intro err h
      cases h
      exact id
    · exact .ok _
  have hdir : NoBookkeeping (a.directoryAt pid dirfd) := by
    unfold Answers.directoryAt
    split
    · exact hcwd
    · exact .ok _
  have habs : NoBookkeeping (a.absolutePathAt pid dirfd path) := by
    unfold Answers.absolutePathAt
    split
    · exact .ok _
    · apply hdir.bind
      intro dir
      split
      · exact .ok _
      · split
        · exact .ok _
        · exact .bind (.orThrow _) fun result => .ok _
  unfold Answers.resolvePathAt
  apply habs.bind
  intro result
  split
  · exact .ok _
  · exact .bind (.orThrow _) fun ignored => .ok _

private theorem noBookkeeping_genericOpenEntry (a : Answers) (pid : Pid) (dirfd : Int32) (path : Path) :
    NoBookkeeping (genericOpenEntry a pid dirfd path) := by
  apply (noBookkeeping_resolvePathAt a pid dirfd path).bind
  intro result
  split
  · exact .ok _
  · split
    · exact .ok _
    · exact .ok _

private theorem noBookkeeping_genericReadlinkEntry (a : Answers) (pid : Pid) (dirfd : Int32) (path : Path) :
    NoBookkeeping (genericReadlinkEntry a pid dirfd path) := by
  apply (noBookkeeping_resolvePathAt a pid dirfd path).bind
  intro result
  split
  · exact .ok _
  · exact .ok _

theorem noBookkeeping_entry (c : Syscall) (a : Answers) (pid : Pid) (args : SyscallArgs) :
    NoBookkeeping (c.handler.entry a pid args) := by
  cases c with
  | «open» => exact .bind (.orThrow _) fun path => noBookkeeping_genericOpenEntry a pid _ path
  | readlink => exact .bind (.orThrow _) fun path => noBookkeeping_genericReadlinkEntry a pid _ path
  | openat => exact .bind (.orThrow _) fun path => noBookkeeping_genericOpenEntry a pid _ path
  | execve =>
    -- the body of the handler is that of `genericReadlinkEntry`
    exact .bind (.orThrow _) fun path => noBookkeeping_genericReadlinkEntry a pid atFdCwd path
  | readlinkat => exact .bind (.orThrow _) fun path => noBookkeeping_genericReadlinkEntry a pid _ path
  | newfstatat => exact .bind (.orThrow _) fun path => noBookkeeping_genericOpenEntry a pid _ path

/-! ### What an exit handler records -/

inductive Record where
  | file (info : FileInfo)
  | symlink (path target : Path)

/-- The tracer with something new recorded. -/
def record (t : FileTracer) : Record → FileTracer
  | .file info => { t with files := t.files.emplace info }
  | .symlink path target => { t with symlinks := t.symlinks.emplace (path, target) }

/-- What an exit handler records, as a run on an empty tracer shows it. -/
def exitRecords (c : Syscall) (a : Answers) (pid : Pid) (rval : SyscallRet) (isError : Bool) (state : SyscallState) :
    Except TracerError (List Record) :=
  (c.handler.exit init a pid rval isError state).map fun t =>
    t.files.elems.map .file ++ t.symlinks.elems.map fun l => .symlink l.1 l.2

/-- A handler that does to any tracer what it does to the empty one. -/
def Uniform (exit : FileTracer → Except TracerError FileTracer) : Prop :=
  ∀ t, exit t = ((exit init).map fun t' =>
    t'.files.elems.map .file ++ t'.symlinks.elems.map fun l => .symlink l.1 l.2).map (·.foldl record t)

private theorem uniform_ok : Uniform .ok := by
  intro t
  rfl

private theorem uniform_registerFile (a : Answers) (info : FileInfo) : Uniform fun t => t.registerFile a info := by
  intro t
  unfold registerFile
  cases registeredInfo a info with
  | error e => rfl
  | ok info => rfl

private theorem uniform_genericOpenExit (a : Answers) (pid : Pid) (rval : SyscallRet) (isError : Bool)
    (state : SyscallState) :
    Uniform fun t => t.genericOpenExit a pid rval isError state := by
  cases isError with
  | true => exact uniform_ok
  | false =>
    cases state with
    | monostate => exact uniform_ok
    | fileInfo info =>
      simp only [genericOpenExit]
      by_cases hs : a.isSupported info.path = true
      · simp only [hs]
        by_cases hr : 0 ≤ rval
        · simp only [hr]
          cases a.resolveFdFilename pid rval.toInt32 with
          | none => exact uniform_ok
          | some exitFile =>
            dsimp only
            cases a.equivalent exitFile info.path with
            | error e => exact uniform_ok
            | ok same =>
              cases same with
              | false => exact uniform_ok
              | true => exact uniform_registerFile a info
        · simp only [hr]
          exact uniform_ok
      · simp only [hs]
        exact uniform_ok

private theorem uniform_genericReadlinkExit (a : Answers) (isError : Bool) (state : SyscallState) :
    Uniform fun t => t.genericReadlinkExit a isError state := by
  cases isError with
  | true => exact uniform_ok
  | false =>
    cases state with
    | monostate => exact uniform_ok
    | fileInfo info =>
      intro t
      simp only [genericReadlinkExit]
      cases a.readSymlink info.path with
      | error e => rfl
      | ok target =>
        dsimp only
        cases orThrow (a.ignore target) with
        | error e => rfl
        | ok ignored => cases ignored <;> rfl

private theorem uniform_syscallExecveExit (a : Answers) (pid : Pid) (rval : SyscallRet) (isError : Bool)
    (state : SyscallState) : Uniform fun t => t.syscallExecveExit a pid rval isError state := by
  cases isError with
  | true => exact uniform_ok
  | false =>
    cases state with
    | monostate => exact uniform_ok
    | fileInfo info => exact uniform_registerFile a _

private theorem uniform_syscallNewfstatatExit (a : Answers) (pid : Pid) (rval : SyscallRet) (isError : Bool)
    (state : SyscallState) : Uniform fun t => t.syscallNewfstatatExit a pid rval isError state := by
  cases isError with
  | true => exact uniform_ok
  | false =>
    cases state with
    | monostate => exact uniform_ok
    | fileInfo info =>
      simp only [syscallNewfstatatExit]
      by_cases hs : a.isSupported info.path = true
      · simp only [hs]
        exact uniform_registerFile a info
      · simp only [hs]
        exact uniform_ok

/-- An exit handler does not look at what other processes have left in the tracer. -/
theorem exit_eq (c : Syscall) (a : Answers) (pid : Pid) (rval : SyscallRet) (isError : Bool) (state : SyscallState)
    (t : FileTracer) : c.handler.exit t a pid rval isError state =
      (exitRecords c a pid rval isError state).map (·.foldl record t) := by
  cases c with
  | «open» => exact uniform_genericOpenExit a pid rval isError state t
  | readlink => exact uniform_genericReadlinkExit a isError state t
  | openat => exact uniform_genericOpenExit a pid rval isError state t
  | execve => exact uniform_syscallExecveExit a pid rval isError state t
  | readlinkat => exact uniform_genericReadlinkExit a isError state t
  | newfstatat => exact uniform_syscallNewfstatatExit a pid rval isError state t

private theorem noBookkeeping_registerFile (t : FileTracer) (a : Answers) (info : FileInfo) :
    NoBookkeeping (t.registerFile a info) := by
  have hinfo : NoBookkeeping (registeredInfo a info) := by
    unfold registeredInfo
    dsimp only
    split
    · exact .bind (.orThrow _) fun regular => .ok _
    · exact .ok _
  exact hinfo.bind fun info => .ok _

private theorem noBookkeeping_exit (c : Syscall) (t : FileTracer) (a : Answers) (pid : Pid) (rval : SyscallRet)
    (isError : Bool) (state : SyscallState) : NoBookkeeping (c.handler.exit t a pid rval isError state) := by
  have hopen : NoBookkeeping (t.genericOpenExit a pid rval isError state) := by
    unfold genericOpenExit
    repeat' split
    all_goals first | exact .ok _ | exact noBookkeeping_registerFile t a _
  have hlink : NoBookkeeping (t.genericReadlinkExit a isError state) := by
    unfold genericReadlinkExit
    repeat' split
    all_goals first | exact .ok _ | exact .bind (.orThrow _) fun ignored => .ok _
  cases c with
  | «open» => exact hopen
  | readlink => exact hlink
  | openat => exact hopen
  | execve =>
    show NoBookkeeping (t.syscallExecveExit a pid rval isError state)
    unfold syscallExecveExit
    repeat' split
    all_goals first | exact .ok _ | exact noBookkeeping_registerFile t a _
  | readlinkat => exact hlink
  | newfstatat =>
    show NoBookkeeping (t.syscallNewfstatatExit a pid rval isError state)
    unfold syscallNewfstatatExit
    repeat' split
    all_goals first | exact .ok _ | exact noBookkeeping_registerFile t a _

theorem noBookkeeping_exitRecords (c : Syscall) (a : Answers) (pid : Pid) (rval : SyscallRet) (isError : Bool)
    (state : SyscallState) : NoBookkeeping (exitRecords c a pid rval isError state) := by
  have h := noBookkeeping_exit c init a pid rval isError state
  unfold exitRecords
  intro err herr
  cases hx : c.handler.exit init a pid rval isError state with
  | ok t =>
    rw [hx] at herr
    cases herr
  | error e =>
    rw [hx] at herr
    cases herr
    exact h _ hx

private theorem state_foldl_record (os : List Record) (t : FileTracer) : (os.foldl record t).state = t.state := by
  induction os generalizing t with
  | nil => rfl
  | cons o os ih =>
    rw [List.foldl_cons, ih]
    cases o <;> rfl

/-! ### What a stop does with the states -/

theorem exists_of_kHandlers {arch : Arch} {nr : UInt64} {handler : SyscallHandler}
    (h : kHandlers arch nr = some handler) : ∃ c, syscallOf arch nr = some c ∧ c.handler = handler :=
  Option.map_eq_some_iff.1 h

/-- The numbers of the handled syscalls fit in an `int`. -/
theorem toInt_of_syscallOf {arch : Arch} {nr : UInt64} {c : Syscall} (h : syscallOf arch nr = some c) :
    (toInt nr).toInt64.toUInt64 = nr := by
  have hall : ∀ arch, ∀ p ∈ registered arch, (toInt p.1).toInt64.toUInt64 = p.1 := by
    intro arch
    cases arch <;> decide
  exact hall arch (nr, c) (Emplace.mem_of_lookup h)

section Stops

variable {arch : Arch} {t t' : FileTracer} {a : Answers} {pid : Pid} {nr : UInt64} {args : SyscallArgs}
  {rval : SyscallRet} {isError : Bool} {x : TracerError}

theorem onSyscallEntry_ok (h : onSyscallEntry arch t a pid nr args = .ok t') :
    t'.files = t.files ∧ (kHandlers arch nr = none ∧ t'.state = t.state ∨
      ∃ handler state, kHandlers arch nr = some handler ∧ handler.entry a pid args = .ok state ∧
        t.state pid = none ∧ t'.state = Function.update t.state pid (some (toInt nr, state))) := by
  unfold onSyscallEntry at h
  cases hk : kHandlers arch nr with
  | none =>
    simp only [hk] at h
    cases h
    exact ⟨rfl, .inl ⟨rfl, rfl⟩⟩
  | some handler =>
    simp only [hk] at h
    obtain ⟨state, hentry, h⟩ := Except.bind_eq_ok h
    cases hs : t.state pid with
    | some s =>
      simp only [hs] at h
      cases h
    | none =>
      simp only [hs] at h
      cases h
      exact ⟨rfl, .inr ⟨handler, state, rfl, hentry, rfl, rfl⟩⟩

theorem onSyscallEntry_error (h : onSyscallEntry arch t a pid nr args = .error x) :
    ∃ handler, kHandlers arch nr = some handler ∧ (handler.entry a pid args = .error x ∨
      (∃ state, handler.entry a pid args = .ok state) ∧ (t.state pid).isSome = true ∧ x = .alreadyHandler pid) := by
  unfold onSyscallEntry at h
  cases hk : kHandlers arch nr with
  | none =>
    simp only [hk] at h
    cases h
  | some handler =>
    simp only [hk] at h
    refine ⟨handler, rfl, ?_⟩
    cases hentry : handler.entry a pid args with
    | error y =>
      rw [hentry] at h
      cases h
      exact .inl rfl
    | ok state =>
      rw [hentry, Except.ok_bind] at h
      cases hs : t.state pid with
      | none =>
        simp only [hs] at h
        cases h
      | some s =>
        simp only [hs] at h
        cases h
        exact .inr ⟨⟨state, rfl⟩, rfl, rfl⟩

theorem onSyscallExit_of_none (hs : t.state pid = none) : onSyscallExit arch t a pid rval isError = .ok t := by
  unfold onSyscallExit
  rw [hs]

theorem onSyscallExit_of_some {n : Int32} {state : SyscallState} {c : Syscall} (hs : t.state pid = some (n, state))
    (hc : syscallOf arch n.toInt64.toUInt64 = some c) : onSyscallExit arch t a pid rval isError =
      c.handler.exit { t with state := Function.update t.state pid none } a pid rval isError state := by
  unfold onSyscallExit
  rw [hs]
  simp only [kHandlers, hc, Option.map_some]

theorem onSyscallExit_of_unhandled {n : Int32} {state : SyscallState} (hs : t.state pid = some (n, state))
    (hc : syscallOf arch n.toInt64.toUInt64 = none) :
    onSyscallExit arch t a pid rval isError = .error (.noExitHandler n) := by
  unfold onSyscallExit
  rw [hs]
  simp only [kHandlers, hc, Option.map_none]

theorem onSyscallExit_ok (h : onSyscallExit arch t a pid rval isError = .ok t') :
    t'.state = Function.update t.state pid none := by
  cases hs : t.state pid with
  | none =>
    rw [onSyscallExit_of_none hs] at h
    cases h
    rw [← hs, Function.update_eq_self]
  | some s =>
    obtain ⟨n, state⟩ := s
    cases hc : syscallOf arch n.toInt64.toUInt64 with
    | none =>
      rw [onSyscallExit_of_unhandled hs hc] at h
      cases h
    | some c =>
      rw [onSyscallExit_of_some hs hc, exit_eq] at h
      cases hr : exitRecords c a pid rval isError state with
      | error y =>
        rw [hr] at h
        cases h
      | ok os =>
        rw [hr] at h
        cases h
        exact state_foldl_record os _

theorem onSyscallExit_error (h : onSyscallExit arch t a pid rval isError = .error x) (p : Pid) :
    x ≠ .alreadyHandler p := by
  rintro rfl
  cases hs : t.state pid with
  | none =>
    rw [onSyscallExit_of_none hs] at h
    cases h
  | some s =>
    obtain ⟨n, state⟩ := s
    cases hc : syscallOf arch n.toInt64.toUInt64 with
    | none =>
      rw [onSyscallExit_of_unhandled hs hc] at h
      cases h
    | some c =>
      rw [onSyscallExit_of_some hs hc] at h
      exact noBookkeeping_exit c _ a pid rval isError state _ h trivial

end Stops

/-! ### What an exit handler does with the files -/

section Files

variable {t t' : FileTracer} {a : Answers} {info : FileInfo}

/-- An absolute path is recorded as it is. -/
theorem registerFile_ok (habs : info.path.isAbsolute = true) (h : t.registerFile a info = .ok t') :
    ∃ size, t'.files = t.files.emplace ⟨info.path, size, info.existedBefore⟩ := by
  obtain ⟨info', hinfo, h⟩ := Except.bind_eq_ok h
  cases h
  unfold registeredInfo at hinfo
  rw [if_pos habs] at hinfo
  dsimp only at hinfo
  split at hinfo
  · rename_i hex
    obtain ⟨regular, -, hinfo⟩ := Except.bind_eq_ok hinfo
    cases hinfo
    exact ⟨_, by rw [hex]⟩
  · rename_i hex
    have hex : info.existedBefore = false := by simpa using hex
    cases hinfo
    exact ⟨_, by rw [hex]⟩

/-- The exit of the call can record a file. -/
def isFileCall (c : Syscall) : Bool := c != .readlink && c != .readlinkat

/-- The descriptor leads to the file of the path. -/
def leadsTo (a : Answers) (pid : Pid) (fd : Int32) (path : Path) : Bool :=
  match a.resolveFdFilename pid fd with
  | none => false
  | some exitFile =>
    match a.equivalent exitFile path with
    | .ok same => same
    | .error _ => false

/-- The tests that the exit handler of a successful call makes before it comes to `register_file`. -/
def registersAtExit (c : Syscall) (a : Answers) (pid : Pid) (rval : SyscallRet) (path : Path) : Bool :=
  match c with
  | .open => a.isSupported path && decide (0 ≤ rval) && leadsTo a pid rval.toInt32 path
  | .openat => a.isSupported path && decide (0 ≤ rval) && leadsTo a pid rval.toInt32 path
  | .execve => true
  | .newfstatat => a.isSupported path
  | .readlink => false
  | .readlinkat => false

private theorem genericOpenExit_files {pid : Pid} {rval : SyscallRet} (habs : info.path.isAbsolute = true)
    (h : t.genericOpenExit a pid rval false (.fileInfo info) = .ok t') :
    (registersAtExit .openat a pid rval info.path = true ∧
        ∃ size, t'.files = t.files.emplace ⟨info.path, size, info.existedBefore⟩) ∨
      (registersAtExit .openat a pid rval info.path = false ∧ t'.files = t.files) := by
  simp only [genericOpenExit, Bool.false_eq_true, if_false] at h
  split at h
  · rename_i hs
    cases h
    have hs : a.isSupported info.path = false := by simpa using hs
    exact .inr ⟨by simp [registersAtExit, hs], rfl⟩
  · rename_i hs
    have hs : a.isSupported info.path = true := by simpa using hs
    split at h
    · rename_i hrval
      cases hfd : a.resolveFdFilename pid rval.toInt32 with
      | none =>
        rw [hfd] at h
        cases h
        exact .inr ⟨by simp [registersAtExit, leadsTo, hfd], rfl⟩
      | some exitFile =>
        rw [hfd] at h
        dsimp only at h
        split at h
        · rename_i hsame
          exact .inl ⟨by simp [registersAtExit, leadsTo, hs, hrval, hfd, hsame], registerFile_ok habs h⟩
        · rename_i hsame
          cases h
          right
          refine ⟨?_, rfl⟩
          cases he : a.equivalent exitFile info.path with
          | error e => simp [registersAtExit, leadsTo, hfd, he]
          | ok same =>
            cases same with
            | true => exact absurd he hsame
            | false => simp [registersAtExit, leadsTo, hfd, he]
    · rename_i hrval
      cases h
      exact .inr ⟨by simp [registersAtExit, hrval], rfl⟩

private theorem genericReadlinkExit_files {isError : Bool} {state : SyscallState}
    (h : t.genericReadlinkExit a isError state = .ok t') : t'.files = t.files := by
  unfold genericReadlinkExit at h
  split at h
  · cases h
    rfl
  · split at h
    · cases h
      rfl
    · split at h
      · cases h
        rfl
      · obtain ⟨ignored, -, h⟩ := Except.bind_eq_ok h
        cases h
        split <;> rfl

/-- The exit handler of a successful call records the file of its state exactly when its tests succeed; `execve`
records that it existed. -/
theorem exit_files_fileInfo {c : Syscall} {pid : Pid} {rval : SyscallRet}
    (habs : isFileCall c = true → info.path.isAbsolute = true)
    (h : c.handler.exit t a pid rval false (.fileInfo info) = .ok t') :
    (registersAtExit c a pid rval info.path = true ∧
        ∃ size, t'.files = t.files.emplace ⟨info.path, size, c == .execve || info.existedBefore⟩) ∨
      (registersAtExit c a pid rval info.path = false ∧ t'.files = t.files) := by
  cases c with
  | «open» => exact genericOpenExit_files (habs rfl) h
  | openat => exact genericOpenExit_files (habs rfl) h
  | readlink =>
    change t.genericReadlinkExit a false (.fileInfo info) = .ok t' at h
    exact .inr ⟨rfl, genericReadlinkExit_files h⟩
  | readlinkat =>
    change t.genericReadlinkExit a false (.fileInfo info) = .ok t' at h
    exact .inr ⟨rfl, genericReadlinkExit_files h⟩
  | execve =>
    have hpath : FileInfo.path { info with existedBefore := true } = info.path := rfl
    exact .inl ⟨rfl, registerFile_ok (by rw [hpath]; exact habs rfl) h⟩
  | newfstatat =>
    change t.syscallNewfstatatExit a pid rval false (.fileInfo info) = .ok t' at h
    simp only [syscallNewfstatatExit, Bool.false_eq_true, if_false] at h
    split at h
    · rename_i hs
      cases h
      exact .inr ⟨by simpa [registersAtExit] using hs, rfl⟩
    · rename_i hs
      exact .inl ⟨by simpa [registersAtExit] using hs, registerFile_ok (habs rfl) h⟩

/-- A failed call, an ignored file and a call whose exit can record no file leave the files as they are. -/
theorem exit_files_of_ignored {c : Syscall} {pid : Pid} {rval : SyscallRet} {isError : Bool} {state : SyscallState}
    (hnone : isError = true ∨ state = .monostate ∨ isFileCall c = false)
    (h : c.handler.exit t a pid rval isError state = .ok t') : t'.files = t.files := by
  rcases hnone with rfl | rfl | hc
  · cases c <;> (cases h; rfl)
  · cases isError <;> cases c <;> (cases h; rfl)
  · cases c with
    | readlink =>
      change t.genericReadlinkExit a isError state = .ok t' at h
      exact genericReadlinkExit_files h
    | readlinkat =>
      change t.genericReadlinkExit a isError state = .ok t' at h
      exact genericReadlinkExit_files h
    | «open» => cases hc
    | openat => cases hc
    | execve => cases hc
    | newfstatat => cases hc

end Files

/-! ### Answers for examples -/

/-- A file that is there and that every path and every descriptor leads to. -/
def oneFile : Answers where
  readString _ _ := .ok (.ofString "/tmp/out")
  readSymlink _ := .ok (.ofString "/tmp/out")
  currentPath := .ok (.ofString "/")
  fileExists _ := .ok true
  status _ := .regular
  isRegularFile _ := .ok true
  fileSize _ := .ok 0
  equivalent _ _ := .ok true
  ignore _ := .ok false

def noArgs : SyscallArgs := Vector.replicate 6 0

end R4R.FileTracer
