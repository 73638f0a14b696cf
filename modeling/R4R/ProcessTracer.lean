import R4R.CommandOutput
import R4R.FileTracerRuns
import R4R.Lib.Scoped
import R4R.SyscallMonitor

/-!
# The process tracer

`SyscallMonitor::start` in the parent: the pipes, the fork, and `process_tracer` with its two forwarding threads, the
wait for the initial stop and the monitoring loop.  What the operating system and the listener answer comes from a
world that every call may change.  A pipe and a `std::thread` are automatic objects; the destructor of a thread that
has not been joined terminates the program.
-/

namespace R4R.SyscallMonitor

open Scoped

abbrev Errno := Nat

def ESRCH : Errno := 3
def EINTR : Errno := 4
def ECHILD : Errno := 10

/-- The exceptions that `process_tracer` may meet; `E` is the type of those of the listener. -/
inductive Failure (E : Type) where
  | systemError (errno : Errno) (message : String)
  | runtimeError (message : String)
  | listener (e : E)
deriving DecidableEq

/-- What the calls answer, in a world of type `W`. -/
structure Surroundings (W E : Type) where
  pipe : Stream → W → Except Errno Unit × W
  fork : W → Except Errno Pid × W
  /-- the constructor of `std::thread` -/
  thread : Stream → W → Except Errno Unit × W
  /-- `waitpid` for one tracee with `WNOHANG`: the status, if there is a report -/
  poll : Pid → W → Except Errno (Option Nat) × W
  /-- the time for the initial stop is over -/
  isLate : W → Bool × W
  /-- `waitpid` for all tracees -/
  waitpid : W → Except Errno (Pid × Nat) × W
  setOptions : Pid → W → Except Errno Unit × W
  resume : Pid → W → Except Errno Unit × W
  eventMsg : Pid → W → Except Errno Pid × W
  /-- what `ptrace_syscall_info` holds after the call, none when it holds neither an entry nor an exit -/
  syscallInfo : Pid → W → Option SyscallInfo × W
  listener : Pid → SyscallInfo → W → Except E Unit × W
  /-- the end of file of a pipe, none when it never comes -/
  endOfFile : Stream → W → Option W

/-- The open ends of a pipe. -/
structure PipeEnds where
  read : Bool
  write : Bool

structure TracerState (W : Type) where
  world : W
  pipe : Stream → PipeEnds
  /-- the forwarding threads that run or have not been joined -/
  joinable : Stream → Bool

def TracerState.start {W : Type} (world : W) : TracerState W := ⟨world, fun _ => ⟨false, false⟩, fun _ => false⟩

inductive WaitForSignalResult where
  | success
  | timeout
  | exit (code : Nat)
  | signal (sig : Nat)

def WaitForSignalResult.ofStatus (sig status : Nat) : Option WaitForSignalResult :=
  if wIfStopped status && wStopSig status == sig then some .success
  else if wIfExited status then some (.exit (wExitStatus status))
  else if wIfSignaled status then some (.signal (wTermSig status))
  else none

namespace Surroundings

variable {W E : Type} (k : Surroundings W E)

abbrev Tracing (W E α : Type) := Computation (TracerState W) (Failure E) α

def call {α : Type} (f : W → α × W) : Tracing W E α := fun s =>
  (.returned (f s.world).1, { s with world := (f s.world).2 })

/-- A call that throws `make_system_error` when it fails. -/
def callOrThrow {α : Type} (message : String) (f : W → Except Errno α × W) : Tracing W E α := do
  match ← call f with
  | .ok a => return a
  | .error errno => throw (.systemError errno message)

/-! ### Pipes and threads -/

def newPipe (p : Stream) : Tracing W E PUnit := do
  callOrThrow "Failed to create pipe" (k.pipe p)
  fun s => (.returned ⟨⟩, { s with pipe := Function.update s.pipe p ⟨true, true⟩ })

def closeRead (p : Stream) : Tracing W E PUnit := fun s =>
  (.returned ⟨⟩, { s with pipe := Function.update s.pipe p { s.pipe p with read := false } })

def closeWrite (p : Stream) : Tracing W E PUnit := fun s =>
  (.returned ⟨⟩, { s with pipe := Function.update s.pipe p { s.pipe p with write := false } })

/-- `~Pipe` -/
def destroyPipe (p : Stream) (s : TracerState W) : Option (TracerState W) :=
  some { s with pipe := Function.update s.pipe p ⟨false, false⟩ }

def newThread (p : Stream) : Tracing W E PUnit := do
  callOrThrow "" (k.thread p)
  fun s => (.returned ⟨⟩, { s with joinable := Function.update s.joinable p true })

/-- `~thread` calls `std::terminate` when the thread is joinable. -/
def destroyThread (p : Stream) (s : TracerState W) : Option (TracerState W) :=
  if s.joinable p then none else some s

/-- `join`, of a joinable thread. -/
def join (p : Stream) : Tracing W E PUnit := fun s =>
  if s.joinable p then
    match k.endOfFile p s.world with
    | none => (.waiting, s)
    | some world => (.returned ⟨⟩, { s with world := world, joinable := Function.update s.joinable p false })
  else (.returned ⟨⟩, s)

/-! ### The initial stop -/

def waitForSignal (pid : Pid) (sig : Nat) : Nat → Tracing W E WaitForSignalResult
  | 0 => waiting
  | fuel + 1 => do
    let status ← callOrThrow "waitpid" (k.poll pid)
    match status.bind (WaitForSignalResult.ofStatus sig) with
    | some result => return result
    | none =>
      if ← call k.isLate then return .timeout
      else waitForSignal pid sig fuel

def waitForInitialStop (fuel : Nat) (pid : Pid) : Tracing W E PUnit := do
  let message := "Failed to wait for initial stop: "
  match ← k.waitForSignal pid SIGSTOP fuel with
  | .success => return ⟨⟩
  | .timeout => throw (.runtimeError (message ++ "timeout"))
  | .exit code => throw (.runtimeError (message ++ "child exited with " ++ toString code))
  | .signal sig => throw (.runtimeError (message ++ "child signalled with " ++ toString sig))

/-! ### The monitor -/

/-- A `ptrace` request that may find its tracee dead. -/
def request (message : String) (f : W → Except Errno Unit × W) : Tracing W E PUnit := do
  match ← call f with
  | .ok _ => return ⟨⟩
  | .error errno => if errno = ESRCH then return ⟨⟩ else throw (.systemError errno message)

def setPtraceOptions (pid : Pid) : Tracing W E PUnit :=
  request ("Failed to set ptrace options on pid: " ++ toString pid) (k.setOptions pid)

def traceSyscalls (pid : Pid) : Tracing W E PUnit :=
  request ("Failed to start tracing syscalls on pis: " ++ toString pid) (k.resume pid)

def handleSyscall (pid : Pid) : Tracing W E PUnit := do
  match ← call (k.syscallInfo pid) with
  | none => return ⟨⟩
  | some info =>
    match ← call (k.listener pid info) with
    | .ok _ => return ⟨⟩
    | .error e => throw (.listener e)

def handleNewChild (pid : Pid) : Tracing W E PUnit := do
  match ← call (k.eventMsg pid) with
  | .error _ => k.traceSyscalls 0
  | .ok child => do
    k.setPtraceOptions child
    k.traceSyscalls child

def handleStop (pid : Pid) (status : Nat) : Tracing W E PUnit := do
  let event := status >>> 16
  (if event = 1 ∨ event = 3 ∨ event = 2 then k.handleNewChild pid else return ⟨⟩)
  (if wStopSig status = SIGTRAP ||| 0x80 then k.handleSyscall pid else return ⟨⟩)
  k.traceSyscalls pid

def monitor (main : Pid) : Nat → Tracing W E Result
  | 0 => waiting
  | fuel + 1 => do
    match ← call k.waitpid with
    | .error errno =>
      if errno = ECHILD then throw (.systemError errno "waitpid - no more childer to trace")
      else if errno = EINTR then monitor main fuel
      else throw (.systemError errno "waitpid")
    | .ok (wpid, status) =>
      match onStatus main wpid status with
      | .returned result => return result
      | .handleStop pid status => do
        k.handleStop pid status
        monitor main fuel
      | _ => monitor main fuel

/-! ### `process_tracer` -/

/-- What `process_tracer` does while its threads forward the output. -/
def trace (fuel : Nat) (pid : Pid) : Tracing W E Result := do
  k.waitForInitialStop fuel pid
  k.setPtraceOptions pid
  k.traceSyscalls pid
  k.monitor pid fuel

def processTracer (fuel : Nat) (pid : Pid) : Tracing W E Result := do
  closeWrite .stdout
  closeWrite .stderr
  object (k.newThread .stdout) (destroyThread .stdout) <|
    object (k.newThread .stderr) (destroyThread .stderr) do
      let exitCode ← k.trace fuel pid
      k.join .stdout
      k.join .stderr
      closeRead .stdout
      closeRead .stderr
      return exitCode

def start (fuel : Nat) : Tracing W E Result :=
  object (k.newPipe .stdout) (destroyPipe .stdout) <|
    object (k.newPipe .stderr) (destroyPipe .stderr) do
      let pid ← callOrThrow "Error forking the tracee process" k.fork
      k.processTracer fuel pid

/-- The beginning of `start`, up to the forwarding threads. -/
def begin : Tracing W E Pid := do
  k.newPipe .stdout
  k.newPipe .stderr
  let pid ← callOrThrow "Error forking the tracee process" k.fork
  closeWrite .stdout
  closeWrite .stderr
  k.newThread .stdout
  k.newThread .stderr
  return pid

/-- `process_tracer` meets the failure `e` after its threads have been started. -/
def Fails (fuel : Nat) (s : TracerState W) (e : Failure E) : Prop :=
  ∃ pid s₁ s₂, k.begin s = (.returned pid, s₁) ∧ k.trace fuel pid s₁ = (.threw e, s₂)

/-! ### The threads while the tracees are traced -/

/-- The threads are as in `j`. -/
def Threads (j : Stream → Bool) (s : TracerState W) : Prop := s.joinable = j

variable {k} {j : Stream → Bool}

private theorem keeps_call {α : Type} (f : W → α × W) : Keeps (Threads j) (call f : Tracing W E α) := fun _ hs => hs

private theorem keeps_callOrThrow {α : Type} (message : String) (f : W → Except Errno α × W) :
    Keeps (Threads j) (callOrThrow message f : Tracing W E α) := by
  refine Keeps.bind (keeps_call f) fun r => ?_
  cases r with
  | ok a => exact Keeps.pure a
  | error errno => exact Keeps.throw _

private theorem keeps_waitForSignal (pid : Pid) (sig fuel : Nat) :
    Keeps (Threads j) (k.waitForSignal pid sig fuel) := by
  induction fuel with
  | zero => exact Keeps.waiting
  | succ fuel ih =>
    refine Keeps.bind (keeps_callOrThrow _ _) fun status => ?_
    split
    · exact Keeps.pure _
    · refine Keeps.bind (keeps_call _) fun late => ?_
      split
      · exact Keeps.pure _
      · exact ih

private theorem keeps_waitForInitialStop (fuel : Nat) (pid : Pid) :
    Keeps (Threads j) (k.waitForInitialStop fuel pid) := by
  refine Keeps.bind (keeps_waitForSignal pid SIGSTOP fuel) fun r => ?_
  cases r with
  | success => exact Keeps.pure _
  | timeout => exact Keeps.throw _
  | exit code => exact Keeps.throw _
  | signal sig => exact Keeps.throw _

private theorem keeps_request (message : String) (f : W → Except Errno Unit × W) :
    Keeps (Threads j) (request message f : Tracing W E PUnit) := by
  refine Keeps.bind (keeps_call f) fun r => ?_
  cases r with
  | ok a => exact Keeps.pure _
  | error errno =>
    change Keeps (Threads j) (if errno = ESRCH then _ else _)
    split
    · exact Keeps.pure _
    · exact Keeps.throw _

private theorem keeps_handleSyscall (pid : Pid) : Keeps (Threads j) (k.handleSyscall pid) := by
  refine Keeps.bind (keeps_call _) fun info => ?_
  cases info with
  | none => exact Keeps.pure _
  | some info =>
    refine Keeps.bind (keeps_call _) fun r => ?_
    cases r with
    | ok a => exact Keeps.pure _
    | error e => exact Keeps.throw _

private theorem keeps_handleNewChild (pid : Pid) : Keeps (Threads j) (k.handleNewChild pid) := by
  refine Keeps.bind (keeps_call _) fun r => ?_
  cases r with
  | error errno => exact keeps_request _ _
  | ok child => exact Keeps.bind (keeps_request _ _) fun _ => keeps_request _ _

private theorem keeps_handleStop (pid : Pid) (status : Nat) : Keeps (Threads j) (k.handleStop pid status) := by
  refine Keeps.bind ?_ fun _ => Keeps.bind ?_ fun _ => keeps_request _ _
  · split
    · exact keeps_handleNewChild pid
    · exact Keeps.pure _
  · split
    · exact keeps_handleSyscall pid
    · exact Keeps.pure _

private theorem keeps_monitor (main : Pid) (fuel : Nat) : Keeps (Threads j) (k.monitor main fuel) := by
  induction fuel with
  | zero => exact Keeps.waiting
  | succ fuel ih =>
    refine Keeps.bind (keeps_call _) fun r => ?_
    cases r with
    | error errno =>
      change Keeps (Threads j) (if errno = ECHILD then _ else if errno = EINTR then _ else _)
      split
      · exact Keeps.throw _
      · split
        · exact ih
        · exact Keeps.throw _
    | ok report =>
      change Keeps (Threads j) (match onStatus main report.1 report.2 with
        | .returned result => _
        | .handleStop pid status => _
        | _ => _)
      split
      · exact Keeps.pure _
      · exact Keeps.bind (keeps_handleStop _ _) fun _ => ih
      · exact ih

/-- Nothing that is done while the tracees are traced joins a thread. -/
private theorem keeps_trace (fuel : Nat) (pid : Pid) : Keeps (Threads j) (k.trace fuel pid) :=
  Keeps.bind (keeps_waitForInitialStop fuel pid) fun _ =>
    Keeps.bind (keeps_request _ _) fun _ => Keeps.bind (keeps_request _ _) fun _ => keeps_monitor pid fuel

/-! ### Failures -/

private theorem newThread_returned {p : Stream} {s s' : TracerState W} {u : PUnit}
    (h : k.newThread p s = (.returned u, s')) : s'.joinable = Function.update s.joinable p true := by
  obtain ⟨a, s₁, hcall, hset⟩ := bind_returned h
  have hkeeps := keeps_callOrThrow (E := E) (j := s.joinable) "" (k.thread p) s rfl
  rw [hcall] at hkeeps
  cases hset
  exact congrArg (Function.update · p true) hkeeps

/-- A joinable thread is not destroyed. -/
private theorem destroyThread_of_joinable {p : Stream} {s : TracerState W} (h : s.joinable p = true) :
    destroyThread p s = none := if_pos h

/-- An exception that is met while the threads run leaves the scope of the inner thread, which is still joinable. -/
private theorem processTracer_of_fails {fuel : Nat} {pid : Pid} {s s₁ s₂ s₃ : TracerState W} {e : Failure E}
    {u v : PUnit}
    (hout : k.newThread .stdout (closeWrite (E := E) .stderr (closeWrite (E := E) .stdout s).2).2 = (.returned u, s₁))
    (herr : k.newThread .stderr s₁ = (.returned v, s₂)) (htrace : k.trace fuel pid s₂ = (.threw e, s₃)) :
    k.processTracer fuel pid s = (.terminated, s₃) := by
  have hjoinable : s₃.joinable .stderr = true := by
    have hkeeps := keeps_trace (k := k) (j := s₂.joinable) fuel pid s₂ rfl
    rw [htrace] at hkeeps
    rw [hkeeps, newThread_returned herr, Function.update_self]
  rw [processTracer, bind_of_returned (x := closeWrite .stdout) rfl, bind_of_returned (x := closeWrite .stderr) rfl]
  refine object_of_terminated hout ?_
  exact object_of_threw herr (bind_of_threw htrace) (destroyThread_of_joinable hjoinable)

/-- When `start` returns, its threads have been joined. -/
theorem start_returned {fuel : Nat} {s s' : TracerState W} {result : Result}
    (h : k.start fuel s = (.returned result, s')) (p : Stream) : s'.joinable p = false := by
  have hdestroy : ∀ {p : Stream} {t t' : TracerState W}, destroyThread p t = some t' →
      t.joinable p = false ∧ t' = t := by
    intro p t t' ht
    unfold destroyThread at ht
    split at ht
    · cases ht
    · rename_i hp
      exact ⟨by simpa using hp, (Option.some.inj ht).symm⟩
  obtain ⟨s₁, s₂, -, hinner, hpipe⟩ := object_returned h
  cases hpipe
  obtain ⟨s₃, s₄, -, htracer, hpipe⟩ := object_returned hinner
  cases hpipe
  obtain ⟨pid, s₅, -, htracer⟩ := bind_returned htracer
  rw [processTracer, bind_of_returned (x := closeWrite .stdout) rfl,
    bind_of_returned (x := closeWrite .stderr) rfl] at htracer
  obtain ⟨s₆, s₇, -, hbody, hout⟩ := object_returned htracer
  obtain ⟨hjout, rfl⟩ := hdestroy hout
  obtain ⟨s₈, s₉, -, -, herr⟩ := object_returned hbody
  obtain ⟨hjerr, rfl⟩ := hdestroy herr
  cases p with
  | stdout => exact hjout
  | stderr => exact hjerr

/-- A failure that `process_tracer` meets while its threads run does not reach the caller of `start`: the program is
terminated. -/
theorem start_of_fails {fuel : Nat} {s : TracerState W} {e : Failure E} (h : k.Fails fuel s e) :
    (k.start fuel s).1 ≠ .threw e ∧ (k.start fuel s).1 = .terminated := by
  obtain ⟨pid, s₆, s₇, hbegin, htrace⟩ := h
  obtain ⟨⟨⟩, s₁, hout, hbegin⟩ := bind_returned hbegin
  obtain ⟨⟨⟩, s₂, herr, hbegin⟩ := bind_returned hbegin
  obtain ⟨pid', s₃, hfork, hbegin⟩ := bind_returned hbegin
  rw [bind_of_returned (x := closeWrite .stdout) rfl, bind_of_returned (x := closeWrite .stderr) rfl] at hbegin
  obtain ⟨⟨⟩, s₄, htout, hbegin⟩ := bind_returned hbegin
  obtain ⟨⟨⟩, s₅, hterr, hbegin⟩ := bind_returned hbegin
  cases hbegin
  have htracer := processTracer_of_fails htout hterr htrace
  have hstart : k.start fuel s = (.terminated, s₇) :=
    object_of_terminated hout (object_of_terminated herr ((bind_of_returned hfork).trans htracer))
  rw [hstart]
  exact ⟨nofun, rfl⟩

private theorem fails_of_endings {fuel : Nat} (pid : Pid) {s : TracerState W} {e : Failure E}
    (hbegin : (k.begin s).1 = .returned pid) (htrace : (k.trace fuel pid (k.begin s).2).1 = .threw e) :
    k.Fails fuel s e :=
  ⟨pid, _, _, Prod.ext hbegin rfl, Prod.ext htrace rfl⟩

/-- A tracee at its initial stop that comes to entries of `openat` and to nothing else, with the file tracer. -/
def onlyEntries : Surroundings FileTracer TracerError where
  pipe _ w := (.ok (), w)
  fork w := (.ok 1, w)
  thread _ w := (.ok (), w)
  poll _ w := (.ok (some (Stop.signal Tracee.sigstop).status), w)
  isLate w := (false, w)
  waitpid w := (.ok (1, (Stop.syscall (.entry 257 FileTracer.noArgs)).status), w)
  setOptions _ w := (.ok (), w)
  resume _ w := (.ok (), w)
  eventMsg _ w := (.ok 0, w)
  syscallInfo _ w := (some (.entry 257 FileTracer.noArgs), w)
  listener pid info w :=
    match FileTracer.onEvent .x86_64 w ⟨pid, info, FileTracer.oneFile⟩ with
    | .ok w' => (.ok (), w')
    | .error e => (.error e, w)
  endOfFile _ w := some w

/-- The file tracer throws at the second entry. -/
theorem start_of_fails_onlyEntries : (onlyEntries.start 2 (.start .init)).1 ≠ .threw (.listener (.alreadyHandler 1)) ∧
    (onlyEntries.start 2 (.start .init)).1 = .terminated :=
  start_of_fails (fails_of_endings 1 (by decide +kernel) (by decide +kernel))

/-- The time for the initial stop is over before the tracee has stopped. -/
def lateStop : Surroundings FileTracer TracerError := { onlyEntries with
  poll := fun _ w => (.ok none, w)
  isLate := fun w => (true, w) }

theorem not_reached_lateStop :
    lateStop.Fails 1 (.start .init) (.runtimeError "Failed to wait for initial stop: timeout") ∧
    (lateStop.start 1 (.start .init)).1 ≠ .threw (.runtimeError "Failed to wait for initial stop: timeout") := by
  refine ⟨fails_of_endings 1 rfl rfl, ?_⟩
  have h : (lateStop.start 1 (.start .init)).1 = .terminated := rfl
  rw [h]
  exact nofun

end Surroundings

end R4R.SyscallMonitor
