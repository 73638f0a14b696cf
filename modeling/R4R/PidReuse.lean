import R4R.FileTracerHandlers
import R4R.Lib.Runs

/-!
# Reused pids

Processes that start, make syscalls and die, and the file tracer that hears of their syscall stops.  The monitor keeps
the end of a tracee to itself, so what the tracer holds under the pid of a process that dies inside a handled call
stays there, and a later process with this pid meets it.
-/

namespace R4R

namespace PidReuse

open FileTracer

/-- A live process: its number in the order of births, and the syscall it is in. -/
structure Process where
  born : Nat
  call : Option UInt64
deriving DecidableEq

structure System where
  tracer : FileTracer
  processes : Pid → Option Process
  births : Nat
  /-- the process whose entry made the state kept under a pid -/
  maker : Pid → Option Nat
  /-- a process with this pid has died in a handled call, and no exit has come under the pid since -/
  left : Pid → Bool
  /-- the calls of exit handlers: the process at its exit, and the maker of the state -/
  exits : List (Nat × Option Nat)
  thrown : Option TracerError

def start : System := ⟨.init, fun _ => none, 0, fun _ => none, fun _ => false, [], none⟩

inductive Label where
  | spawn (pid : Pid)
  | entry (pid : Pid) (nr : UInt64) (args : SyscallArgs) (answers : Answers)
  | exit (pid : Pid) (rval : SyscallRet) (isError : Bool) (answers : Answers)
  | die (pid : Pid)

variable (arch : Arch)

def isHandled (nr : UInt64) : Bool := (kHandlers arch nr).isSome

def Process.inHandledCall (p : Process) : Bool :=
  match p.call with
  | none => false
  | some nr => isHandled arch nr

namespace System

/-- The maker of the state that an exit under this pid hands to a handler. -/
def exitCall (s : System) (pid : Pid) (born : Nat) : List (Nat × Option Nat) :=
  match s.tracer.state pid with
  | none => []
  | some (syscall, _) => if isHandled arch syscall.toInt64.toUInt64 then [(born, s.maker pid)] else []

def spawnStep (s : System) (pid : Pid) : System :=
  { s with
    processes := Function.update s.processes pid (some ⟨s.births, none⟩)
    births := s.births + 1 }

def dieStep (s : System) (pid : Pid) (p : Process) : System :=
  { s with
    processes := Function.update s.processes pid none
    left := Function.update s.left pid (s.left pid || p.inHandledCall arch) }

def entryStep (s : System) (pid : Pid) (born : Nat) (nr : UInt64) (args : SyscallArgs) (a : Answers) : System :=
  match onSyscallEntry arch s.tracer a pid nr args with
  | .error x => { s with thrown := some x }
  | .ok t =>
    { s with
      tracer := t
      processes := Function.update s.processes pid (some ⟨born, some nr⟩)
      maker := if isHandled arch nr then Function.update s.maker pid (some born) else s.maker }

def exitStep (s : System) (pid : Pid) (born : Nat) (rval : SyscallRet) (isError : Bool) (a : Answers) : System :=
  match onSyscallExit arch s.tracer a pid rval isError with
  | .error x => { s with exits := s.exits ++ s.exitCall arch pid born, thrown := some x }
  | .ok t =>
    { s with
      tracer := t
      processes := Function.update s.processes pid (some ⟨born, none⟩)
      left := Function.update s.left pid false
      exits := s.exits ++ s.exitCall arch pid born }

/-- An exception of the tracer ends the monitor. -/
def step (s : System) (e : Label) : Option System :=
  if s.thrown.isSome then none
  else match e with
    | .spawn pid => if s.processes pid = none then some (s.spawnStep pid) else none
    | .die pid =>
      match s.processes pid with
      | none => none
      | some p => some (s.dieStep arch pid p)
    | .entry pid nr args a =>
      match s.processes pid with
      | some ⟨born, none⟩ => some (s.entryStep arch pid born nr args a)
      | _ => none
    | .exit pid rval isError a =>
      match s.processes pid with
      | some ⟨born, some _⟩ => some (s.exitStep arch pid born rval isError a)
      | _ => none

/-- No entry has found a state under its pid, and every exit handler has got a state of its own process. -/
structure StatesMatch (s : System) : Prop where
  thrown : ∀ pid, s.thrown ≠ some (.alreadyHandler pid)
  exits : ∀ c ∈ s.exits, c.2 = some c.1

end System

/-- The entry has a handler, and it returns. -/
def entryReturns (a : Answers) (pid : Pid) (nr : UInt64) (args : SyscallArgs) : Bool :=
  match kHandlers arch nr with
  | none => false
  | some handler => (handler.entry a pid args).isOk

/-- The stop is no exit, and no entry with a handler that returns, under a pid that a process has left in a handled
call. -/
def NotLeft (s : System) : Label → Prop
  | .entry pid nr args a => entryReturns arch a pid nr args = true → s.left pid = false
  | .exit pid _ _ _ => s.left pid = false
  | _ => True

instance (s : System) : ∀ e, Decidable (NotLeft arch s e)
  | .entry .. => inferInstanceAs (Decidable (_ → _))
  | .exit .. => inferInstanceAs (Decidable (_ = _))
  | .spawn _ => isTrue trivial
  | .die _ => isTrue trivial

/-! ### The states under the pids -/

/-- A pid has a state when its process is in a handled call, which has then made the state, or when an earlier process
has left it. -/
structure PidInv (births : Nat) (state : Option PidState) (process : Option Process) (maker : Option Nat)
    (left : Bool) : Prop where
  born_lt : ∀ p, process = some p → p.born < births
  state_iff : state.isSome = true ↔ left = true ∨ ∃ p, process = some p ∧ p.inHandledCall arch = true
  handled : ∀ n st, state = some (n, st) → isHandled arch n.toInt64.toUInt64 = true
  maker_eq : ∀ p, process = some p → p.inHandledCall arch = true → maker = some p.born
  left_maker : left = true → ∃ m, maker = some m ∧ m < births ∧
    ∀ p, process = some p → p.born ≠ m ∧ p.inHandledCall arch = false

def System.PidInvAt (s : System) (pid : Pid) : Prop :=
  PidInv arch s.births (s.tracer.state pid) (s.processes pid) (s.maker pid) (s.left pid)

def Inv (s : System) : Prop := ∀ pid, s.PidInvAt arch pid

variable {arch}

private theorem PidInv.mono {births births' : Nat} {state : Option PidState} {process : Option Process}
    {maker : Option Nat} {left : Bool} (h : PidInv arch births state process maker left) (hle : births ≤ births') :
    PidInv arch births' state process maker left := by
  refine ⟨?_, h.state_iff, h.handled, h.maker_eq, ?_⟩
  · intro p hp
    have := h.born_lt p hp
    omega
  · intro hleft
    obtain ⟨m, hm, hlt, hne⟩ := h.left_maker hleft
    exact ⟨m, hm, by omega, hne⟩

/-- A step that concerns one pid. -/
private theorem Inv.of_update {s s' : System} (hs : Inv arch s) (pid : Pid) (hbirths : s.births ≤ s'.births)
    (hstate : ∀ q ≠ pid, s'.tracer.state q = s.tracer.state q) (hproc : ∀ q ≠ pid, s'.processes q = s.processes q)
    (hmaker : ∀ q ≠ pid, s'.maker q = s.maker q) (hleft : ∀ q ≠ pid, s'.left q = s.left q)
    (hpid : s'.PidInvAt arch pid) : Inv arch s' := by
  intro q
  by_cases hq : q = pid
  · rw [hq]
    exact hpid
  · unfold System.PidInvAt
    rw [hstate q hq, hproc q hq, hmaker q hq, hleft q hq]
    exact (hs q).mono hbirths

private theorem inv_start : Inv arch start := by
  intro pid
  refine ⟨?_, ?_, ?_, ?_, ?_⟩
  · intro p hp
    cases hp
  · simp [start, FileTracer.init]
  · intro n st hst
    cases hst
  · intro p hp
    cases hp
  · intro hleft
    cases hleft

theorem inHandledCall_idle (born : Nat) : (Process.mk born none).inHandledCall arch = false := rfl

private theorem spawnStep_inv {s : System} (hs : Inv arch s) {pid : Pid} (hpid : s.processes pid = none) :
    Inv arch (s.spawnStep pid) := by
  have hinv := hs pid
  unfold System.PidInvAt at hinv
  rw [hpid] at hinv
  apply hs.of_update pid
  · exact Nat.le_succ _
  · exact fun q _ => rfl
  · exact fun q hq => Function.update_of_ne hq ..
  · exact fun q _ => rfl
  · exact fun q _ => rfl
  · unfold System.PidInvAt
    rw [show (s.spawnStep pid).processes pid = some ⟨s.births, none⟩ from Function.update_self ..]
    refine ⟨?_, ?_, hinv.handled, ?_, ?_⟩
    · intro p hp
      cases hp
      exact Nat.lt_succ_self _
    · rw [show (s.spawnStep pid).tracer = s.tracer from rfl, hinv.state_iff]
      simp [System.spawnStep, inHandledCall_idle]
    · intro p hp hcall
      cases hp
      cases hcall
    · intro hleft
      obtain ⟨m, hm, hlt, -⟩ := hinv.left_maker hleft
      refine ⟨m, hm, Nat.lt_succ_of_lt hlt, ?_⟩
      intro p hp
      cases hp
      exact ⟨Nat.ne_of_gt hlt, rfl⟩

private theorem dieStep_inv {s : System} (hs : Inv arch s) {pid : Pid} {p : Process} (hpid : s.processes pid = some p) :
    Inv arch (s.dieStep arch pid p) := by
  have hinv := hs pid
  unfold System.PidInvAt at hinv
  rw [hpid] at hinv
  apply hs.of_update pid
  · exact Nat.le_refl _
  · exact fun q _ => rfl
  · exact fun q hq => Function.update_of_ne hq ..
  · exact fun q _ => rfl
  · exact fun q hq => Function.update_of_ne hq ..
  · unfold System.PidInvAt
    rw [show (s.dieStep arch pid p).processes pid = none from Function.update_self ..,
      show (s.dieStep arch pid p).left pid = (s.left pid || p.inHandledCall arch) from Function.update_self ..]
    refine ⟨?_, ?_, hinv.handled, ?_, ?_⟩
    · intro q hq
      cases hq
    · rw [show (s.dieStep arch pid p).tracer = s.tracer from rfl, hinv.state_iff]
      simp
    · intro q hq
      cases hq
    · intro hleft
      rcases Bool.or_eq_true_iff.1 hleft with hleft | hcall
      · obtain ⟨m, hm, hlt, -⟩ := hinv.left_maker hleft
        refine ⟨m, hm, hlt, ?_⟩
        intro q hq
        cases hq
      · -- the state is the one that this process has made
        refine ⟨p.born, hinv.maker_eq p rfl hcall, hinv.born_lt p rfl, ?_⟩
        intro q hq
        cases hq

/-- An exception leaves the states as they are. -/
private theorem Inv.thrown {s : System} (hs : Inv arch s) (exits : List (Nat × Option Nat)) (x : Option TracerError) :
    Inv arch { s with exits := exits, thrown := x } := hs

/-- An entry without a handler leaves the state as it is. -/
private theorem PidInv.enter_unhandled {births born : Nat} {state : Option PidState} {maker : Option Nat} {left : Bool}
    {nr : UInt64} (h : PidInv arch births state (some ⟨born, none⟩) maker left) (hnr : isHandled arch nr = false) :
    PidInv arch births state (some ⟨born, some nr⟩) maker left := by
  have hcall : (Process.mk born (some nr)).inHandledCall arch = false := hnr
  refine ⟨?_, ?_, h.handled, ?_, ?_⟩
  · intro p hp
    cases hp
    exact h.born_lt ⟨born, none⟩ rfl
  · rw [h.state_iff]
    simp [inHandledCall_idle, hcall]
  · intro p hp hc
    cases hp
    rw [hcall] at hc
    cases hc
  · -- a state that was left stays that of the earlier process
    intro hleft
    obtain ⟨m, hm, hlt, hne⟩ := h.left_maker hleft
    refine ⟨m, hm, hlt, ?_⟩
    intro p hp
    cases hp
    exact ⟨(hne _ rfl).1, hcall⟩

/-- A handled entry, which has found no state, makes one. -/
private theorem PidInv.enter_handled {births born : Nat} {maker : Option Nat} {left : Bool} {nr : UInt64}
    (h : PidInv arch births none (some ⟨born, none⟩) maker left) (hnr : isHandled arch nr = true)
    (hback : isHandled arch (toInt nr).toInt64.toUInt64 = true) (state : SyscallState) :
    PidInv arch births (some (toInt nr, state)) (some ⟨born, some nr⟩) (some born) left := by
  have hcall : (Process.mk born (some nr)).inHandledCall arch = true := hnr
  -- without a state no earlier process has left one
  have hleft : ¬ left = true := by
    intro hl
    have hsome := h.state_iff.2 (.inl hl)
    cases hsome
  refine ⟨?_, ?_, ?_, ?_, ?_⟩
  · intro p hp
    cases hp
    exact h.born_lt ⟨born, none⟩ rfl
  · simp [hcall]
  · intro n st hst
    cases hst
    exact hback
  · intro p hp _
    cases hp
    rfl
  · intro hl
    exact absurd hl hleft

private theorem entryStep_inv {s : System} (hs : Inv arch s) {pid : Pid} {born : Nat}
    (hpid : s.processes pid = some ⟨born, none⟩) (nr : UInt64) (args : SyscallArgs) (a : Answers) :
    Inv arch (s.entryStep arch pid born nr args a) := by
  have hinv := hs pid
  unfold System.PidInvAt at hinv
  rw [hpid] at hinv
  unfold System.entryStep
  cases h : onSyscallEntry arch s.tracer a pid nr args with
  | error x => exact hs.thrown _ _
  | ok t =>
    obtain ⟨-, ⟨hk, hstate⟩ | ⟨handler, state, hk, -, hnone, hstate⟩⟩ := onSyscallEntry_ok h
    · have hnr : isHandled arch nr = false := by
        unfold isHandled
        rw [hk]
        rfl
      dsimp only
      rw [hnr]
      apply hs.of_update pid
      · exact Nat.le_refl _
      · exact fun q _ => congrFun hstate q
      · exact fun q hq => Function.update_of_ne hq ..
      · exact fun q _ => rfl
      · exact fun q _ => rfl
      · unfold System.PidInvAt
        dsimp only
        rw [hstate, Function.update_self]
        exact hinv.enter_unhandled hnr
    · have hnr : isHandled arch nr = true := by
        unfold isHandled
        rw [hk]
        rfl
      have hback : isHandled arch (toInt nr).toInt64.toUInt64 = true := by
        obtain ⟨c, hc, -⟩ := exists_of_kHandlers hk
        rwa [toInt_of_syscallOf hc]
      rw [hnone] at hinv
      dsimp only
      rw [hnr]
      apply hs.of_update pid
      · exact Nat.le_refl _
      · exact fun q hq => by rw [hstate, Function.update_of_ne hq]
      · exact fun q hq => Function.update_of_ne hq ..
      · exact fun q hq => Function.update_of_ne hq ..
      · exact fun q _ => rfl
      · unfold System.PidInvAt
        dsimp only
        rw [hstate, Function.update_self, Function.update_self, if_pos rfl, Function.update_self]
        exact hinv.enter_handled hnr hback state

private theorem exitStep_inv {s : System} (hs : Inv arch s) {pid : Pid} {born : Nat} {nr : UInt64}
    (hpid : s.processes pid = some ⟨born, some nr⟩) (rval : SyscallRet) (isError : Bool) (a : Answers) :
    Inv arch (s.exitStep arch pid born rval isError a) := by
  have hinv := hs pid
  unfold System.PidInvAt at hinv
  rw [hpid] at hinv
  have hborn : born < s.births := hinv.born_lt _ rfl
  unfold System.exitStep
  cases h : onSyscallExit arch s.tracer a pid rval isError with
  | error x => exact hs.thrown _ _
  | ok t =>
    have hstate := onSyscallExit_ok h
    apply hs.of_update pid
    · exact Nat.le_refl _
    · exact fun q hq => by rw [hstate, Function.update_of_ne hq]
    · exact fun q hq => Function.update_of_ne hq ..
    · exact fun q _ => rfl
    · exact fun q hq => Function.update_of_ne hq ..
    · unfold System.PidInvAt
      dsimp only
      rw [hstate, Function.update_self, Function.update_self, Function.update_self]
      refine ⟨?_, ?_, ?_, ?_, ?_⟩
      · intro p hp
        cases hp
        exact hborn
      · simp [inHandledCall_idle]
      · intro n st hst
        cases hst
      · intro p hp hc
        cases hp
        cases hc
      · intro hl
        cases hl

private theorem step_inv {s s' : System} {e : Label} (hs : Inv arch s) (h : s.step arch e = some s') : Inv arch s' := by
  unfold System.step at h
  split at h
  · cases h
  · cases e with
    | spawn pid =>
      dsimp only at h
      split at h
      · rename_i hpid
        cases h
        exact spawnStep_inv hs hpid
      · cases h
    | die pid =>
      dsimp only at h
      split at h
      · cases h
      · rename_i p hpid
        cases h
        exact dieStep_inv hs hpid
    | entry pid nr args a =>
      dsimp only at h
      split at h
      · rename_i born hpid
        cases h
        exact entryStep_inv hs hpid nr args a
      · cases h
    | exit pid rval isError a =>
      dsimp only at h
      split at h
      · rename_i born nr hpid
        cases h
        exact exitStep_inv hs hpid rval isError a
      · cases h

/-! ### The stops at which the states match -/

private theorem entryStep_statesMatch {s : System} (hs : Inv arch s) (hthrown : s.thrown = none) {pid : Pid}
    {born : Nat} (hpid : s.processes pid = some ⟨born, none⟩) (nr : UInt64) (args : SyscallArgs) (a : Answers) :
    (s.entryStep arch pid born nr args a).StatesMatch ↔ s.StatesMatch ∧ NotLeft arch s (.entry pid nr args a) := by
  have hinv := hs pid
  unfold System.PidInvAt at hinv
  rw [hpid] at hinv
  have hstate : (s.tracer.state pid).isSome = true ↔ s.left pid = true := by
    rw [hinv.state_iff]
    simp [inHandledCall_idle]
  show _ ↔ s.StatesMatch ∧ (entryReturns arch a pid nr args = true → s.left pid = false)
  unfold System.entryStep entryReturns
  cases h : onSyscallEntry arch s.tracer a pid nr args with
  | ok t =>
    obtain ⟨-, ⟨hk, -⟩ | ⟨handler, state, hk, -, hnone, -⟩⟩ := onSyscallEntry_ok h
    · rw [hk]
      exact ⟨fun hm => ⟨⟨hm.thrown, hm.exits⟩, by simp⟩, fun hm => ⟨hm.1.thrown, hm.1.exits⟩⟩
    · have hleft : s.left pid = false := by
        cases hl : s.left pid with
        | false => rfl
        | true =>
          rw [hnone] at hstate
          cases hstate.2 hl
      exact ⟨fun hm => ⟨⟨hm.thrown, hm.exits⟩, fun _ => hleft⟩, fun hm => ⟨hm.1.thrown, hm.1.exits⟩⟩
  | error x =>
    obtain ⟨handler, hk, hor⟩ := onSyscallEntry_error h
    rw [hk]
    dsimp only
    rcases hor with hentry | ⟨⟨state, hentry⟩, hsome, rfl⟩
    · -- the handler throws before the state is looked for
      have hx : ∀ p, x ≠ .alreadyHandler p := by
        rintro p rfl
        obtain ⟨c, -, rfl⟩ := exists_of_kHandlers hk
        exact noBookkeeping_entry c a pid args _ hentry trivial
      constructor
      · intro hm
        refine ⟨⟨by simp [hthrown], hm.exits⟩, ?_⟩
        intro hok
        rw [hentry] at hok
        cases hok
      · rintro ⟨hm, -⟩
        exact ⟨fun p hp => hx p (Option.some.inj hp), hm.exits⟩
    · constructor
      · intro hm
        exact absurd rfl (hm.thrown pid)
      · rintro ⟨-, hnot⟩
        have hleft := hnot (by rw [hentry]; rfl)
        rw [hstate.1 hsome] at hleft
        cases hleft

/-- An exit matches if its pid has not been left. -/
private theorem exitCall_matches_iff {s : System} (hs : Inv arch s) {pid : Pid} {born : Nat} {nr : UInt64}
    (hpid : s.processes pid = some ⟨born, some nr⟩) :
    (∀ c ∈ s.exitCall arch pid born, c.2 = some c.1) ↔ s.left pid = false := by
  have hinv := hs pid
  unfold System.PidInvAt at hinv
  rw [hpid] at hinv
  unfold System.exitCall
  cases hst : s.tracer.state pid with
  | none =>
    have hl : s.left pid = false := by
      cases hl : s.left pid with
      | false => rfl
      | true =>
        have hsome := hinv.state_iff.2 (.inl hl)
        rw [hst] at hsome
        cases hsome
    simp [hl]
  | some st =>
    have hhandled := hinv.handled st.1 st.2 hst
    simp only [hhandled, if_true, List.mem_singleton, forall_eq]
    cases hl : s.left pid with
    | false =>
      -- the process is in a handled call of its own
      have hcall : (Process.mk born (some nr)).inHandledCall arch = true := by
        rcases hinv.state_iff.1 (by rw [hst]; rfl) with hleft | ⟨p, hp, hcall⟩
        · rw [hl] at hleft
          cases hleft
        · cases hp
          exact hcall
      simp [hinv.maker_eq _ rfl hcall]
    | true =>
      obtain ⟨m, hm, -, hne⟩ := hinv.left_maker hl
      have hne' := (hne _ rfl).1
      simp only [hm, Option.some.injEq, Bool.true_eq_false, iff_false]
      exact fun he => hne' he.symm

private theorem exitStep_statesMatch {s : System} (hs : Inv arch s) (hthrown : s.thrown = none) {pid : Pid} {born : Nat}
    {nr : UInt64} (hpid : s.processes pid = some ⟨born, some nr⟩) (rval : SyscallRet) (isError : Bool) (a : Answers) :
    (s.exitStep arch pid born rval isError a).StatesMatch ↔
      s.StatesMatch ∧ NotLeft arch s (.exit pid rval isError a) := by
  show _ ↔ s.StatesMatch ∧ s.left pid = false
  rw [← exitCall_matches_iff hs hpid]
  have hexits : (∀ c ∈ s.exits ++ s.exitCall arch pid born, c.2 = some c.1) ↔
      (∀ c ∈ s.exits, c.2 = some c.1) ∧ ∀ c ∈ s.exitCall arch pid born, c.2 = some c.1 := List.forall_mem_append
  unfold System.exitStep
  cases h : onSyscallExit arch s.tracer a pid rval isError with
  | error x =>
    constructor
    · intro hm
      obtain ⟨hold, hnew⟩ := hexits.1 hm.exits
      exact ⟨⟨by simp [hthrown], hold⟩, hnew⟩
    · rintro ⟨hm, hnew⟩
      exact ⟨fun p hp => onSyscallExit_error h p (Option.some.inj hp), hexits.2 ⟨hm.exits, hnew⟩⟩
  | ok t =>
    constructor
    · intro hm
      obtain ⟨hold, hnew⟩ := hexits.1 hm.exits
      exact ⟨⟨hm.thrown, hold⟩, hnew⟩
    · rintro ⟨hm, hnew⟩
      exact ⟨hm.thrown, hexits.2 ⟨hm.exits, hnew⟩⟩

private theorem step_statesMatch {s s' : System} {e : Label} (hs : Inv arch s) (h : s.step arch e = some s') :
    s'.StatesMatch ↔ s.StatesMatch ∧ NotLeft arch s e := by
  unfold System.step at h
  split at h
  · cases h
  · rename_i hthrown
    have hthrown : s.thrown = none := by simpa using hthrown
    cases e with
    | spawn pid =>
      dsimp only at h
      split at h
      · cases h
        exact ⟨fun hm => ⟨⟨hm.thrown, hm.exits⟩, trivial⟩, fun hm => ⟨hm.1.thrown, hm.1.exits⟩⟩
      · cases h
    | die pid =>
      dsimp only at h
      split at h
      · cases h
      · cases h
        exact ⟨fun hm => ⟨⟨hm.thrown, hm.exits⟩, trivial⟩, fun hm => ⟨hm.1.thrown, hm.1.exits⟩⟩
    | entry pid nr args a =>
      dsimp only at h
      split at h
      · rename_i born hpid
        cases h
        exact entryStep_statesMatch hs hthrown hpid nr args a
      · cases h
    | exit pid rval isError a =>
      dsimp only at h
      split at h
      · rename_i born nr hpid
        cases h
        exact exitStep_statesMatch hs hthrown hpid rval isError a
      · cases h

/-- In every run the states match exactly when no process makes a handled entry or reaches an exit under a pid that an
earlier process has left in a handled call. -/
theorem statesMatch_iff {es : List Label} {s : System} (h : Runs.run (System.step arch) start es = some s) :
    s.StatesMatch ↔ Runs.AllSteps (System.step arch) (NotLeft arch) start es := by
  have hstart : start.StatesMatch := ⟨by simp [start], by simp [start]⟩
  rw [Runs.iff_allSteps (I := Inv arch) (fun _ _ _ => step_inv) (fun _ _ _ => step_statesMatch) inv_start h]
  simp [hstart]

/-! ### A pid that is used again -/

/-- A process opens a file, another one with the same pid follows when it is done. -/
def cleanReuse : List Label :=
  [.spawn 7, .entry 7 257 noArgs oneFile, .exit 7 3 false oneFile, .die 7, .spawn 7, .entry 7 257 noArgs oneFile,
    .exit 7 3 false oneFile]

theorem statesMatch_cleanReuse :
    ∃ s, Runs.run (System.step .x86_64) start cleanReuse = some s ∧ s.StatesMatch :=
  have hrun : Runs.run (System.step .x86_64) start cleanReuse = some _ := rfl
  ⟨_, hrun, (statesMatch_iff hrun).2 (by decide)⟩

/-- A process is killed in `openat`, and the next one with its pid opens a file. -/
def killedThenOpen : List Label :=
  [.spawn 7, .entry 7 257 noArgs oneFile, .die 7, .spawn 7, .entry 7 257 noArgs oneFile]

/-- A process is killed in `openat`, and the next one with its pid makes an unhandled call. -/
def killedThenGetpid : List Label :=
  [.spawn 7, .entry 7 257 noArgs oneFile, .die 7, .spawn 7, .entry 7 39 noArgs oneFile, .exit 7 7 false oneFile]

theorem not_statesMatch_killed :
    (∃ s, Runs.run (System.step .x86_64) start killedThenOpen = some s ∧ ¬ s.StatesMatch ∧
      s.thrown = some (.alreadyHandler 7)) ∧
    ∃ s, Runs.run (System.step .x86_64) start killedThenGetpid = some s ∧ ¬ s.StatesMatch ∧
      s.exits = [(1, some 0)] := by
  constructor
  · exact ⟨_, rfl, fun hm => hm.thrown 7 rfl, rfl⟩
  · refine ⟨_, rfl, ?_, rfl⟩
    intro hm
    cases hm.exits (1, some 0) (List.mem_singleton_self _)

end PidReuse

end R4R
