import Mathlib.Data.Fintype.Defs
import Mathlib.Logic.Function.Basic

/-!
# Traced processes

What `waitpid` and `ptrace` show of traced processes.  A stopped tracee stays stopped, with a pending report until
`waitpid` returns it.  `PTRACE_SYSCALL` resumes a stopped tracee whether or not its report was returned, and fails
with `ESRCH` on any other.
-/

namespace R4R

abbrev Pid := Nat
abbrev SyscallArgs := Vector UInt64 6
abbrev SyscallRet := Int64

/-- The part of `ptrace_syscall_info` for a syscall stop. -/
inductive SyscallInfo where
  | entry (nr : UInt64) (args : SyscallArgs)
  | exit (rval : SyscallRet) (isError : Bool)
deriving DecidableEq

/-! ### Wait statuses -/

def SIGTRAP : Nat := 5
def SIGSTOP : Nat := 19

def wIfExited (status : Nat) : Bool := status &&& 0x7f == 0
def wExitStatus (status : Nat) : Nat := (status &&& 0xff00) >>> 8
def wTermSig (status : Nat) : Nat := status &&& 0x7f
def wIfSignaled (status : Nat) : Bool := 0 < wTermSig status && wTermSig status != 0x7f
def wIfStopped (status : Nat) : Bool := status &&& 0xff == 0x7f
def wStopSig (status : Nat) : Nat := wExitStatus status

/-- The numbers of signals. -/
structure Signal where
  number : Fin 65
  pos : 0 < number
deriving DecidableEq

namespace SyscallMonitor.Signalled

def sigusr1 : Signal := ⟨10, by decide⟩

def sigtrap : Signal := ⟨5, by decide⟩

end SyscallMonitor.Signalled

/-- The event stops that the options of the monitor ask for. -/
inductive ForkKind where
  | fork
  | vfork
  | clone
deriving DecidableEq

/-- `PTRACE_EVENT_FORK`, `PTRACE_EVENT_VFORK`, `PTRACE_EVENT_CLONE` -/
def ForkKind.event : ForkKind → Nat
  | fork => 1
  | vfork => 2
  | clone => 3

/-- A stop of a tracee. -/
inductive Stop where
  | syscall (info : SyscallInfo)
  | event (kind : ForkKind) (child : Pid)
  | signal (sig : Signal)
deriving DecidableEq

def Stop.info? : Stop → Option SyscallInfo
  | syscall info => some info
  | _ => none

/-- The status that `waitpid` returns for a stop, with `PTRACE_O_TRACESYSGOOD` set. -/
def Stop.status : Stop → Nat
  | syscall _ => (SIGTRAP ||| 0x80) <<< 8 ||| 0x7f
  | event kind _ => kind.event <<< 16 ||| SIGTRAP <<< 8 ||| 0x7f
  | signal sig => sig.number.val <<< 8 ||| 0x7f

/-- The end of a tracee. -/
inductive Death where
  | exited (code : Fin 256)
  | signaled (sig : Signal)
deriving DecidableEq

def Death.status : Death → Nat
  | exited code => code.val <<< 8
  | signaled sig => sig.number.val

/-! ### Tracees -/

inductive Tracee where
  /-- forked, its first `SIGSTOP` is due -/
  | starting
  | running
  /-- has forked, the event stop is due -/
  | forking (kind : ForkKind) (child : Pid)
  | stopped (stop : Stop) (pending : Bool)
  | dead (how : Death)
deriving DecidableEq

namespace Tracee

def sigstop : Signal := ⟨19, by decide⟩

/-- The stops that a tracee can come to next. -/
def CanStop : Tracee → Stop → Prop
  | starting, st => st = .signal sigstop
  | running, .event .. => False
  | running, _ => True
  | forking kind child, st => st = .event kind child
  | stopped .., _ => False
  | dead _, _ => False

instance : ∀ (t : Tracee) (st : Stop), Decidable (t.CanStop st)
  | starting, st => inferInstanceAs (Decidable (st = _))
  | running, .event .. => isFalse id
  | running, .syscall _ => isTrue trivial
  | running, .signal _ => isTrue trivial
  | forking _ _, st => inferInstanceAs (Decidable (st = _))
  | stopped .., _ => isFalse id
  | dead _, _ => isFalse id

/-- A tracee that is neither stopped nor dead. -/
def Live : Tracee → Prop
  | stopped .. => False
  | dead _ => False
  | _ => True

instance : ∀ t : Tracee, Decidable t.Live
  | starting => isTrue trivial
  | running => isTrue trivial
  | forking .. => isTrue trivial
  | stopped .. => isFalse id
  | dead _ => isFalse id

end Tracee

/-- The tracees of the monitor. -/
abbrev Tracees := Pid → Option Tracee

/-- `PTRACE_GETEVENTMSG`: the child of a tracee at an event stop. -/
def ptraceGetEventMsg (ts : Tracees) (pid : Pid) : Option Pid :=
  match ts pid with
  | some (.stopped (.event _ child) _) => some child
  | _ => none

/-- `PTRACE_GET_SYSCALL_INFO`, for a tracee at a syscall stop. -/
def ptraceGetSyscallInfo (ts : Tracees) (pid : Pid) : Option SyscallInfo :=
  match ts pid with
  | some (.stopped (.syscall info) _) => some info
  | _ => none

/-- `PTRACE_SYSCALL`; `none` is `ESRCH`. -/
def ptraceSyscall (ts : Tracees) (pid : Pid) : Option Tracees :=
  match ts pid with
  | some (.stopped ..) => some (Function.update ts pid (some .running))
  | _ => none

/-- The stop of a tracee that `waitpid` has not reported. -/
def pendingStop (ts : Tracees) (pid : Pid) : Option Stop :=
  match ts pid with
  | some (.stopped st true) => some st
  | _ => none

/-! ### Statuses of stops -/

theorem Stop.wIfStopped_status (st : Stop) : wIfExited st.status = false ∧ wIfSignaled st.status = false ∧
    wIfStopped st.status = true := by
  have hsig : ∀ n : Fin 65, wIfExited (n.val <<< 8 ||| 0x7f) = false ∧ wIfSignaled (n.val <<< 8 ||| 0x7f) = false ∧
      wIfStopped (n.val <<< 8 ||| 0x7f) = true := by decide
  cases st with
  | syscall info =>
    simp only [Stop.status]
    decide
  | event kind child => cases kind <;> (simp only [Stop.status]; decide)
  | signal sig => exact hsig sig.number

theorem Stop.wStopSig_status (st : Stop) :
    wStopSig st.status = SIGTRAP ||| 0x80 ↔ ∃ info, st = .syscall info := by
  have hsig : ∀ n : Fin 65, wStopSig (n.val <<< 8 ||| 0x7f) ≠ SIGTRAP ||| 0x80 := by decide
  cases st with
  | syscall info =>
    simp only [Stop.status]
    exact ⟨fun _ => ⟨info, rfl⟩, fun _ => by decide⟩
  | event kind child =>
    have h : wStopSig (Stop.event kind child).status ≠ SIGTRAP ||| 0x80 := by
      cases kind <;> (simp only [Stop.status]; decide)
    simpa using h
  | signal sig =>
    have h : wStopSig (Stop.signal sig).status ≠ SIGTRAP ||| 0x80 := hsig sig.number
    simpa using h

/-- The upper half of a status tells the event stops. -/
theorem Stop.event_status (st : Stop) :
    (st.status >>> 16 = 1 ∨ st.status >>> 16 = 3 ∨ st.status >>> 16 = 2) ↔ ∃ kind child, st = .event kind child := by
  have hsig : ∀ n : Fin 65, (n.val <<< 8 ||| 0x7f) >>> 16 = 0 := by decide
  cases st with
  | syscall info =>
    have h : (Stop.syscall info).status >>> 16 = 0 := by
      simp only [Stop.status]
      decide
    simp [h]
  | event kind child =>
    refine ⟨fun _ => ⟨kind, child, rfl⟩, fun _ => ?_⟩
    cases kind <;> (simp only [Stop.status]; decide)
  | signal sig =>
    have h : (Stop.signal sig).status >>> 16 = 0 := hsig sig.number
    simp [h]

theorem Death.status_cases (how : Death) :
    wIfExited how.status = true ∨ wIfExited how.status = false ∧ wIfSignaled how.status = true := by
  have hcode : ∀ n : Nat, wIfExited (n <<< 8) = true := by
    intro n
    have h : n <<< 8 &&& 2 ^ 7 - 1 = n <<< 8 % 2 ^ 7 := Nat.and_two_pow_sub_one_eq_mod _ 7
    rw [Nat.shiftLeft_eq] at h
    have h0 : n * 2 ^ 8 % 2 ^ 7 = 0 := by omega
    rw [h0] at h
    simpa [wIfExited, Nat.shiftLeft_eq] using h
  have hsig : ∀ n : Fin 65, 0 < n → wIfExited n.val = false ∧ wIfSignaled n.val = true := by decide
  cases how with
  | exited code => exact .inl (hcode code.val)
  | signaled sig => exact .inr (hsig sig.number sig.pos)

end R4R
