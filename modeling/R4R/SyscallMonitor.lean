import R4R.Lib.Runs
import R4R.Ptrace

/-!
# The syscall monitor

`SyscallMonitor::monitor` and its tracees as one labelled system.  The monitor is sequential, so its state is the
place it has reached; between any two of its system calls the kernel can let a tracee stop, fork or die.  The choice
of the tracee that `waitpid` reports is part of the label.  The system keeps two histories that no step reads: the
syscall stops that tracees came to, and the stops at which a tracee was resumed before `waitpid` had reported them.
-/

namespace R4R.SyscallMonitor

def kSpawnErrorExitCode : Nat := 254

/-- `SyscallMonitor::Result`. -/
inductive Result where
  | exit (code : Nat)
  | signal (sig : Nat)
  | failure
deriving DecidableEq

/-- Where the monitor is: at `waitpid`, in `handle_stop`, or done. -/
inductive Place where
  | waiting
  | handleStop (pid : Pid) (status : Nat)
  /-- before `trace_syscalls(child_pid)` -/
  | traceChild (pid : Pid) (status : Nat) (child : Pid)
  /-- before the test for a ptrace trap -/
  | checkTrap (pid : Pid) (status : Nat)
  /-- before `trace_syscalls(pid)` -/
  | traceSyscalls (pid : Pid)
  | returned (result : Result)
deriving DecidableEq

structure System where
  tracees : Tracees
  place : Place
  /-- the calls of the listener -/
  delivered : List (Pid × SyscallInfo)
  happened : List (Pid × SyscallInfo)
  skipped : List (Pid × Stop)

/-- The tracee `main` has been resumed from its initial stop. -/
def start (main : Pid) : System where
  tracees := Function.update (fun _ => none) main (some .running)
  place := .waiting
  delivered := []
  happened := []
  skipped := []

inductive Label where
  /-- a running tracee forks -/
  | spawn (pid : Pid) (kind : ForkKind) (child : Pid)
  | stop (pid : Pid) (stop : Stop)
  | die (pid : Pid) (how : Death)
  /-- `waitpid` returns the report of a tracee -/
  | wait (pid : Pid)
  /-- the monitor does the next thing -/
  | monitor
deriving DecidableEq

/-- What `monitor` does with a status. -/
def onStatus (main pid : Pid) (status : Nat) : Place :=
  if wIfExited status then
    if pid = main then
      if wExitStatus status = kSpawnErrorExitCode then .returned .failure else .returned (.exit (wExitStatus status))
    else .waiting
  else if wIfSignaled status then
    if pid = main then .returned (.signal (wTermSig status)) else .waiting
  else if wIfStopped status then .handleStop pid status
  else .waiting

namespace System

/-- `SyscallMonitor::trace_syscalls`. -/
def traceSyscalls (s : System) (pid : Pid) : System :=
  match ptraceSyscall s.tracees pid with
  | none => s
  | some tracees =>
    { s with
      tracees := tracees
      skipped := s.skipped ++ (pendingStop s.tracees pid).toList.map (pid, ·) }

/-- `SyscallMonitor::handle_syscall`. -/
def handleSyscall (s : System) (pid : Pid) : System :=
  match ptraceGetSyscallInfo s.tracees pid with
  | none => s
  | some info => { s with delivered := s.delivered ++ [(pid, info)] }

/-- The monitor goes on from its place; setting the options of a child shows nowhere in the system. -/
def monitorStep (s : System) : Option System :=
  match s.place with
  | .waiting => none
  | .handleStop pid status =>
    let event := status >>> 16
    if event = 1 ∨ event = 3 ∨ event = 2 then
      some { s with place := .traceChild pid status ((ptraceGetEventMsg s.tracees pid).getD 0) }
    else some { s with place := .checkTrap pid status }
  | .traceChild pid status child => some { s.traceSyscalls child with place := .checkTrap pid status }
  | .checkTrap pid status =>
    if wStopSig status = SIGTRAP ||| 0x80 then some { s.handleSyscall pid with place := .traceSyscalls pid }
    else some { s with place := .traceSyscalls pid }
  | .traceSyscalls pid => some { s.traceSyscalls pid with place := .waiting }
  | .returned _ => none

/-- The stop of a tracee, with its report pending. -/
def stopStep (s : System) (pid : Pid) (st : Stop) : System :=
  { s with
    tracees := Function.update s.tracees pid (some (.stopped st true))
    happened := s.happened ++ st.info?.toList.map (pid, ·) }

def spawnStep (s : System) (pid : Pid) (kind : ForkKind) (child : Pid) : System :=
  { s with
    tracees := Function.update (Function.update s.tracees pid (some (.forking kind child))) child (some .starting) }

def dieStep (s : System) (pid : Pid) (how : Death) : System :=
  { s with tracees := Function.update s.tracees pid (some (.dead how)) }

def waitStep (main : Pid) (s : System) (pid : Pid) : Option System :=
  match s.tracees pid with
  | some (.stopped st true) =>
    some { s with
      tracees := Function.update s.tracees pid (some (.stopped st false))
      place := onStatus main pid st.status }
  | some (.dead how) =>
    some { s with
      tracees := Function.update s.tracees pid none
      place := onStatus main pid how.status }
  | _ => none

def step (main : Pid) (s : System) : Label → Option System
  | .spawn pid kind child =>
    if s.tracees pid = some .running ∧ s.tracees child = none then some (s.spawnStep pid kind child) else none
  | .stop pid st =>
    match s.tracees pid with
    | some t => if t.CanStop st then some (s.stopStep pid st) else none
    | none => none
  | .die pid how =>
    match s.tracees pid with
    | some t => if t.Live then some (s.dieStep pid how) else none
    | none => none
  | .wait pid => if s.place = .waiting then waitStep main s pid else none
  | .monitor => s.monitorStep

/-! ### What a step can do -/

section Step

variable {main : Pid} {s s' : System} {pid : Pid}

theorem step_spawn {kind : ForkKind} {child : Pid} (h : step main s (.spawn pid kind child) = some s') :
    s.tracees pid = some .running ∧ s.tracees child = none ∧ s' = s.spawnStep pid kind child := by
  rw [step] at h
  split at h
  · rename_i hcond
    exact ⟨hcond.1, hcond.2, (Option.some.inj h).symm⟩
  · cases h

theorem step_stop {st : Stop} (h : step main s (.stop pid st) = some s') :
    ∃ t, s.tracees pid = some t ∧ t.CanStop st ∧ s' = s.stopStep pid st := by
  simp only [step] at h
  split at h
  · rename_i t ht
    split at h
    · rename_i hst
      exact ⟨t, ht, hst, (Option.some.inj h).symm⟩
    · cases h
  · cases h

theorem step_die {how : Death} (h : step main s (.die pid how) = some s') :
    ∃ t, s.tracees pid = some t ∧ t.Live ∧ s' = s.dieStep pid how := by
  simp only [step] at h
  split at h
  · rename_i t ht
    split at h
    · rename_i hlive
      exact ⟨t, ht, hlive, (Option.some.inj h).symm⟩
    · cases h
  · cases h

theorem step_wait (h : step main s (.wait pid) = some s') : s.place = .waiting ∧ waitStep main s pid = some s' := by
  rw [step] at h
  split at h
  · rename_i hplace
    exact ⟨hplace, h⟩
  · cases h

end Step

end System

end R4R.SyscallMonitor
