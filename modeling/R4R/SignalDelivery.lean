import R4R.SyscallMonitorRuns
import Mathlib.Data.List.Count

/-!
# Signals of the tracees

Signals that are sent to tracees, beside the system of the monitor and its tracees.  A tracee stops before a signal is
delivered to it, and the tracer decides with the last argument of `PTRACE_SYSCALL` which signal it receives.
`trace_syscalls` passes no signal at any stop, so a tracee receives exactly the signals sent to it only in the runs in
which no tracee is resumed at a stop for a signal that was sent to it (`transparent_iff`).
-/

namespace R4R.SyscallMonitor

def SIGKILL : Nat := 9

/-- The `data` argument of `trace_syscalls`: `nullptr`, no signal. -/
def resumeSignal : Option Signal := none

/-- The system with the signals of its tracees. -/
structure Signalled where
  system : System
  /-- sent, and not yet at a stop -/
  queued : Pid → List Signal
  /-- the signal for which a tracee is at its signal-delivery stop -/
  delivering : Pid → Option Signal
  sent : List (Pid × Signal)
  received : List (Pid × Signal)
  /-- pending when the tracee died -/
  discarded : List (Pid × Signal)
  /-- for each resumption the signal of the stop and the signal that the tracee is resumed with -/
  resumed : List (Pid × Option Signal × Option Signal)

namespace Signalled

inductive Label where
  /-- a signal other than `SIGTRAP` is sent to a tracee -/
  | send (pid : Pid) (sig : Signal)
  | system (label : SyscallMonitor.Label)
deriving DecidableEq

def start (main : Pid) : Signalled where
  system := SyscallMonitor.start main
  queued := fun _ => []
  delivering := fun _ => none
  sent := []
  received := []
  discarded := []
  resumed := []

end Signalled

/-- The tracee that the next step of the monitor resumes. -/
def System.nextResumed (s : System) : Option Pid :=
  match s.place with
  | .traceChild _ _ child => if (ptraceSyscall s.tracees child).isSome then some child else none
  | .traceSyscalls pid => if (ptraceSyscall s.tracees pid).isSome then some pid else none
  | _ => none

namespace Signalled

/-- A signal is sent to a tracee that has not died. -/
def onSend (s : Signalled) (pid : Pid) (sig : Signal) : Option Signalled :=
  match s.system.tracees pid with
  | none => none
  | some (.dead _) => none
  | some _ =>
    if sig.number.val = SIGTRAP then none
    else some { s with
      queued := Function.update s.queued pid (s.queued pid ++ [sig])
      sent := s.sent ++ [(pid, sig)] }

/-- A tracee comes to a stop.  The `SIGSTOP` of a new tracee and the `SIGTRAP` of an `execve` were not sent to it, and
`SIGKILL` does not stop a tracee. -/
def onStop (s : Signalled) (pid : Pid) : Stop → Option Signalled
  | .signal sig =>
    if s.system.tracees pid = some .starting ∨ sig.number.val = SIGTRAP then some s
    else if sig ∈ s.queued pid ∧ sig.number.val ≠ SIGKILL then
      some { s with
        queued := Function.update s.queued pid ((s.queued pid).erase sig)
        delivering := Function.update s.delivering pid (some sig) }
    else none
  | _ => some s

def onDie (s : Signalled) (pid : Pid) : Signalled :=
  { s with
    queued := Function.update s.queued pid []
    discarded := s.discarded ++ (s.queued pid).map (pid, ·) }

/-- A tracee is resumed by `trace_syscalls`. -/
def onResume (s : Signalled) (pid : Pid) : Signalled :=
  { s with
    delivering := Function.update s.delivering pid none
    received := s.received ++ resumeSignal.toList.map (pid, ·)
    resumed := s.resumed ++ [(pid, s.delivering pid, resumeSignal)] }

/-- What a step of the system does to the signals. -/
def onLabel (s : Signalled) : SyscallMonitor.Label → Option Signalled
  | .stop pid st => s.onStop pid st
  | .die pid _ => some (s.onDie pid)
  | .monitor => some (match s.system.nextResumed with
    | some pid => s.onResume pid
    | none => s)
  | _ => some s

def step (main : Pid) (s : Signalled) : Label → Option Signalled
  | .send pid sig => s.onSend pid sig
  | .system label => do
    let system ← System.step main s.system label
    let s' ← s.onLabel label
    return { s' with system := system }

/-- How often a signal was received by a tracee, or is on its way to it, or was on its way when the tracee died. -/
def accounted (s : Signalled) (e : Pid × Signal) : Nat :=
  s.received.count e + (s.queued e.1).count e.2 + (s.delivering e.1).toList.count e.2 + s.discarded.count e

/-- Tracing shows nowhere in the signals: each tracee is resumed with the signal of its stop, and every signal that was
sent is accounted for. -/
structure Transparent (s : Signalled) : Prop where
  resumed : ∀ r ∈ s.resumed, r.2.2 = r.2.1
  received : ∀ e, s.sent.count e = s.accounted e

/-- The step does not resume a tracee at a stop for a signal that was sent to it. -/
def NoSignalResumed (s : Signalled) (label : Label) : Prop :=
  ∀ pid, label = .system .monitor → s.system.nextResumed = some pid → s.delivering pid = none

instance (s : Signalled) (label : Label) : Decidable (NoSignalResumed s label) :=
  match label, h : s.system.nextResumed with
  | .system .monitor, some pid => decidable_of_iff (s.delivering pid = none) (by simp [NoSignalResumed, h])
  | .system .monitor, none => isTrue (by simp [NoSignalResumed, h])
  | .send .., _ => isTrue nofun
  | .system (.spawn ..), _ => isTrue nofun
  | .system (.stop ..), _ => isTrue nofun
  | .system (.die ..), _ => isTrue nofun
  | .system (.wait ..), _ => isTrue nofun

end Signalled

/-! ### Stopped tracees -/

private theorem ptraceSyscall_isSome {ts : Tracees} {p : Pid} :
    (ptraceSyscall ts p).isSome = true ↔ ∃ st b, ts p = some (.stopped st b) := by
  unfold ptraceSyscall
  split
  · rename_i st b h
    simp [h]
  · rename_i h
    simp only [Option.isSome_none, Bool.false_eq_true, false_iff, not_exists]
    intro st b hst
    exact h st b hst

/-- `trace_syscalls` changes no tracee but its own. -/
theorem traceSyscalls_tracees_of_ne {s : System} {p q : Pid} (h : p ≠ q) :
    (s.traceSyscalls q).tracees p = s.tracees p := by
  unfold System.traceSyscalls ptraceSyscall
  split
  · rfl
  · rename_i ts hts
    split at hts
    · obtain rfl := Option.some.inj hts
      exact Function.update_of_ne h ..
    · cases hts

namespace System

variable {s s' : System} {p : Pid} {st : Stop} {b : Bool}

/-- `waitpid` takes the report of a stopped tracee and leaves it stopped. -/
private theorem stopped_waitStep {main q : Pid} (h : waitStep main s q = some s')
    (hp : s.tracees p = some (.stopped st b)) :
    ∃ b', s'.tracees p = some (.stopped st b') := by
  unfold waitStep at h
  split at h
  · rename_i st' hst'
    obtain rfl := Option.some.inj h
    by_cases hpq : p = q
    · subst hpq
      rw [hp] at hst'
      cases hst'
      exact ⟨false, Function.update_self ..⟩
    · exact ⟨b, by simp [Function.update_of_ne hpq, hp]⟩
  · rename_i how hhow
    obtain rfl := Option.some.inj h
    have hpq : p ≠ q := by
      rintro rfl
      rw [hp] at hhow
      cases hhow
    exact ⟨b, by simp [Function.update_of_ne hpq, hp]⟩
  · cases h

/-- The monitor resumes one tracee or none, and never returns of itself. -/
theorem monitorStep_cases (h : s.monitorStep = some s') : (∀ result, s'.place ≠ .returned result) ∧
    (s'.tracees = s.tracees ∨ ∃ q, s'.tracees = (s.traceSyscalls q).tracees ∧
      ((ptraceSyscall s.tracees q).isSome = true → s.nextResumed = some q)) := by
  rw [monitorStep] at h
  cases hplace : s.place with
  | waiting => simp [hplace] at h
  | returned result => simp [hplace] at h
  | handleStop q status =>
    simp only [hplace] at h
    split at h <;> (obtain rfl := Option.some.inj h; exact ⟨by simp, .inl rfl⟩)
  | checkTrap q status =>
    simp only [hplace] at h
    split at h
    · obtain rfl := Option.some.inj h
      refine ⟨by simp, .inl ?_⟩
      change (s.handleSyscall q).tracees = _
      unfold handleSyscall
      split <;> rfl
    · obtain rfl := Option.some.inj h
      exact ⟨by simp, .inl rfl⟩
  | traceChild q status child =>
    simp only [hplace, Option.some.injEq] at h
    subst h
    exact ⟨by simp, .inr ⟨child, rfl, fun hsome => by simp [nextResumed, hplace, hsome]⟩⟩
  | traceSyscalls q =>
    simp only [hplace, Option.some.injEq] at h
    subst h
    exact ⟨by simp, .inr ⟨q, rfl, fun hsome => by simp [nextResumed, hplace, hsome]⟩⟩

/-- The monitor leaves a stopped tracee stopped unless it is the one that is resumed. -/
private theorem stopped_monitorStep (h : s.monitorStep = some s') (hp : s.tracees p = some (.stopped st b)) :
    s'.tracees p = some (.stopped st b) ∨ s.nextResumed = some p := by
  rcases (monitorStep_cases h).2 with htracees | ⟨q, htracees, hnext⟩
  · exact .inl (htracees ▸ hp)
  · by_cases hpq : p = q
    · subst hpq
      exact .inr (hnext (ptraceSyscall_isSome.2 ⟨st, b, hp⟩))
    · exact .inl (by rw [htracees, traceSyscalls_tracees_of_ne hpq, hp])

/-- A stopped tracee stays stopped until the monitor resumes it. -/
theorem stopped_step {main : Pid} {label : Label} (h : step main s label = some s')
    (hp : s.tracees p = some (.stopped st b)) :
    (∃ b', s'.tracees p = some (.stopped st b')) ∨ label = .monitor ∧ s.nextResumed = some p := by
  cases label with
  | spawn q kind child =>
    obtain ⟨hq, hchild, rfl⟩ := step_spawn h
    have hpq : p ≠ q := by
      rintro rfl
      rw [hp] at hq
      cases hq
    have hpc : p ≠ child := by
      rintro rfl
      rw [hp] at hchild
      cases hchild
    exact .inl ⟨b, by simp [spawnStep, Function.update_of_ne hpc, Function.update_of_ne hpq, hp]⟩
  | stop q st' =>
    obtain ⟨t, ht, hcan, rfl⟩ := step_stop h
    have hpq : p ≠ q := by
      rintro rfl
      rw [hp] at ht
      exact not_stopped_of_canStop hcan st b (Option.some.inj ht).symm
    exact .inl ⟨b, by simp [stopStep, Function.update_of_ne hpq, hp]⟩
  | die q how =>
    obtain ⟨t, ht, hlive, rfl⟩ := step_die h
    have hpq : p ≠ q := by
      rintro rfl
      rw [hp] at ht
      exact not_stopped_of_live hlive st b (Option.some.inj ht).symm
    exact .inl ⟨b, by simp [dieStep, Function.update_of_ne hpq, hp]⟩
  | wait q =>
    exact .inl (stopped_waitStep (step_wait h).2 hp)
  | monitor => exact (stopped_monitorStep h hp).imp (fun hp' => ⟨b, hp'⟩) fun hnext => ⟨rfl, hnext⟩

end System

namespace Signalled

/-- Only a stopped tracee is at a signal-delivery stop. -/
def DeliveringStopped (s : Signalled) : Prop :=
  ∀ p, s.delivering p ≠ none → ∃ st b, s.system.tracees p = some (.stopped st b)

/-- The signals that a step sends are those that it adds to the accounted ones. -/
def KeepsAccount (s s' : Signalled) : Prop :=
  ∀ e, s'.sent.count e + s.accounted e = s.sent.count e + s'.accounted e

variable {s s' : Signalled} {main : Pid}

private theorem step_system {label : SyscallMonitor.Label} (h : step main s (.system label) = some s') :
    ∃ system s₁, System.step main s.system label = some system ∧ s.onLabel label = some s₁ ∧
      s' = { s₁ with system := system } := by
  obtain ⟨system, hsystem, h⟩ := Option.bind_eq_some_iff.1 h
  obtain ⟨s₁, hs₁, h⟩ := Option.bind_eq_some_iff.1 h
  exact ⟨system, s₁, hsystem, hs₁, (Option.some.inj h).symm⟩

private theorem onSend_spec {pid : Pid} {sig : Signal} (h : s.onSend pid sig = some s') :
    s' = { s with
      queued := Function.update s.queued pid (s.queued pid ++ [sig])
      sent := s.sent ++ [(pid, sig)] } := by
  unfold onSend at h
  split at h
  · cases h
  · cases h
  · split at h
    · cases h
    · exact (Option.some.inj h).symm

private theorem onStop_spec {pid : Pid} {st : Stop} (h : s.onStop pid st = some s') :
    s' = s ∨ ∃ sig ∈ s.queued pid, s' = { s with
      queued := Function.update s.queued pid ((s.queued pid).erase sig)
      delivering := Function.update s.delivering pid (some sig) } := by
  unfold onStop at h
  split at h
  · rename_i sig
    split at h
    · exact .inl (Option.some.inj h).symm
    · split at h
      · rename_i hmem
        exact .inr ⟨sig, hmem.1, (Option.some.inj h).symm⟩
      · cases h
  · exact .inl (Option.some.inj h).symm

/-! ### The account of the signals -/

private theorem keepsAccount_onSend (pid : Pid) (sig : Signal) : KeepsAccount s { s with
    queued := Function.update s.queued pid (s.queued pid ++ [sig])
    sent := s.sent ++ [(pid, sig)] } := by
  rintro ⟨p, sg⟩
  simp only [accounted, List.count_append]
  by_cases hp : p = pid
  · subst hp
    have hcount : [(p, sig)].count (p, sg) = [sig].count sg := by simp [List.count_singleton]
    rw [Function.update_self, List.count_append, hcount]
    omega
  · have hcount : [(pid, sig)].count (p, sg) = 0 := by simp [List.count_eq_zero, hp]
    rw [Function.update_of_ne hp, hcount]
    omega

/-- A signal that leaves the queue is at its stop. -/
private theorem keepsAccount_onStop {pid : Pid} {sig : Signal} (hsig : sig ∈ s.queued pid)
    (hnone : s.delivering pid = none) :
    KeepsAccount s { s with
      queued := Function.update s.queued pid ((s.queued pid).erase sig)
      delivering := Function.update s.delivering pid (some sig) } := by
  rintro ⟨p, sg⟩
  simp only [accounted]
  by_cases hp : p = pid
  · subst hp
    rw [Function.update_self, Function.update_self, hnone, List.count_erase]
    by_cases hsg : sg = sig
    · subst hsg
      have hpos : 0 < (s.queued p).count sg := List.count_pos_iff.2 hsig
      simp only [beq_self_eq_true, if_true, Option.toList_some, Option.toList_none, List.count_nil,
        List.count_singleton_self]
      omega
    · have hne : (sig == sg) = false := by simpa using fun he => hsg he.symm
      simp [hne, List.count_singleton]
  · rw [Function.update_of_ne hp, Function.update_of_ne hp]

private theorem keepsAccount_onDie (pid : Pid) : KeepsAccount s (s.onDie pid) := by
  rintro ⟨p, sg⟩
  simp only [accounted, onDie, List.count_append]
  by_cases hp : p = pid
  · subst hp
    have hcount : ((s.queued p).map (p, ·)).count (p, sg) = (s.queued p).count sg :=
      List.count_map_of_injective _ _ (Prod.mk_right_injective p) sg
    rw [Function.update_self, hcount, List.count_nil]
    omega
  · have hcount : ((s.queued pid).map (pid, ·)).count (p, sg) = 0 := by
      rw [List.count_eq_zero]
      intro hmem
      obtain ⟨x, -, hx⟩ := List.mem_map.1 hmem
      exact hp (congrArg Prod.fst hx).symm
    rw [Function.update_of_ne hp, hcount]
    omega

private theorem keepsAccount_onResume {pid : Pid} (hnone : s.delivering pid = none) :
    KeepsAccount s (s.onResume pid) := by
  rintro ⟨p, sg⟩
  simp only [accounted, onResume, resumeSignal, Option.toList_none, List.map_nil, List.append_nil]
  by_cases hp : p = pid
  · subst hp
    rw [Function.update_self, hnone]
  · rw [Function.update_of_ne hp]

/-! ### Steps -/

private theorem resumed_onLabel {label : SyscallMonitor.Label} (h : s.onLabel label = some s') :
    (s'.resumed = s.resumed ∧ (∀ pid, label = .monitor → s.system.nextResumed ≠ some pid)) ∨
      ∃ pid, label = .monitor ∧ s.system.nextResumed = some pid ∧ s' = s.onResume pid := by
  cases label with
  | spawn pid kind child =>
    obtain rfl := Option.some.inj h
    exact .inl ⟨rfl, nofun⟩
  | stop pid st =>
    refine .inl ⟨?_, nofun⟩
    rcases onStop_spec h with rfl | ⟨sig, -, rfl⟩
    · rfl
    · rfl
  | die pid how =>
    obtain rfl := Option.some.inj h
    exact .inl ⟨rfl, nofun⟩
  | wait pid =>
    obtain rfl := Option.some.inj h
    exact .inl ⟨rfl, nofun⟩
  | monitor =>
    have heq := Option.some.inj h
    cases hnext : s.system.nextResumed with
    | none =>
      simp only [hnext] at heq
      exact .inl ⟨by rw [heq], nofun⟩
    | some pid =>
      simp only [hnext] at heq
      exact .inr ⟨pid, rfl, rfl, heq.symm⟩

/-- A step resumes every tracee with the signal of its stop exactly when it resumes none at a stop for a signal that
was sent to it. -/
private theorem resumed_step {label : Label} (h : step main s label = some s') :
    (∀ r ∈ s'.resumed, r.2.2 = r.2.1) ↔ (∀ r ∈ s.resumed, r.2.2 = r.2.1) ∧ NoSignalResumed s label := by
  cases label with
  | send pid sig =>
    obtain rfl := onSend_spec h
    exact ⟨fun hr => ⟨hr, nofun⟩, fun hr => hr.1⟩
  | system label =>
    obtain ⟨system, s₁, -, hs₁, rfl⟩ := step_system h
    rcases resumed_onLabel hs₁ with ⟨heq, hnone⟩ | ⟨pid, rfl, hnext, rfl⟩
    · refine ⟨fun hr => ⟨heq ▸ hr, fun pid hl hp => ?_⟩, fun hr => heq ▸ hr.1⟩
      cases hl
      exact absurd hp (hnone pid rfl)
    · change (∀ r ∈ s.resumed ++ [(pid, s.delivering pid, resumeSignal)], r.2.2 = r.2.1) ↔ _
      rw [List.forall_mem_append, List.forall_mem_singleton]
      refine and_congr_right fun _ => ⟨fun he p _ hp => ?_, fun hno => (hno pid rfl hnext).symm⟩
      rw [hnext] at hp
      cases hp
      exact he.symm

/-- Only a stopped tracee comes to be at a signal-delivery stop. -/
private theorem deliveringStopped_step (hs : DeliveringStopped s) {label : Label} (h : step main s label = some s') :
    DeliveringStopped s' := by
  cases label with
  | send pid sig =>
    obtain rfl := onSend_spec h
    exact hs
  | system label =>
    obtain ⟨system, s₁, hsystem, hs₁, rfl⟩ := step_system h
    -- a tracee that was at such a stop is still stopped, unless it is the one that is resumed
    have hold : ∀ p, s.delivering p ≠ none → (∃ st b, system.tracees p = some (.stopped st b)) ∨
        label = .monitor ∧ s.system.nextResumed = some p := by
      intro p hp
      obtain ⟨st, b, hst⟩ := hs p hp
      exact (System.stopped_step hsystem hst).imp_left fun ⟨b', hb'⟩ => ⟨st, b', hb'⟩
    intro p hp
    cases label with
    | spawn pid kind child =>
      obtain rfl := Option.some.inj hs₁
      exact (hold p hp).resolve_right (by simp)
    | stop pid st =>
      rcases onStop_spec hs₁ with rfl | ⟨sig, -, rfl⟩
      · exact (hold p hp).resolve_right (by simp)
      · by_cases hpp : p = pid
        · subst hpp
          obtain ⟨t, -, -, rfl⟩ := System.step_stop hsystem
          exact ⟨st, true, Function.update_self ..⟩
        · have hp' : Function.update s.delivering pid (some sig) p ≠ none := hp
          rw [Function.update_of_ne hpp] at hp'
          exact (hold p hp').resolve_right (by simp)
    | die pid how =>
      obtain rfl := Option.some.inj hs₁
      exact (hold p hp).resolve_right (by simp)
    | wait pid =>
      obtain rfl := Option.some.inj hs₁
      exact (hold p hp).resolve_right (by simp)
    | monitor =>
      have heq := Option.some.inj hs₁
      cases hnext : s.system.nextResumed with
      | none =>
        simp only [hnext] at heq
        subst heq
        exact (hold p hp).resolve_right (by simp [hnext])
      | some pid =>
        simp only [hnext] at heq
        subst heq
        by_cases hpp : p = pid
        · subst hpp
          exact absurd (Function.update_self ..) hp
        · have hp' : Function.update s.delivering pid none p ≠ none := hp
          rw [Function.update_of_ne hpp] at hp'
          refine (hold p hp').resolve_right fun hr => hpp ?_
          rw [hnext] at hr
          exact (Option.some.inj hr.2).symm

/-- A step that resumes no tracee at a stop for a signal loses no signal. -/
private theorem keepsAccount_step (hs : DeliveringStopped s) {label : Label} (hno : NoSignalResumed s label)
    (h : step main s label = some s') : KeepsAccount s s' := by
  have hrefl : KeepsAccount s s := fun e => rfl
  cases label with
  | send pid sig =>
    obtain rfl := onSend_spec h
    exact keepsAccount_onSend pid sig
  | system label =>
    obtain ⟨system, s₁, hsystem, hs₁, rfl⟩ := step_system h
    change KeepsAccount s s₁
    cases label with
    | spawn pid kind child =>
      obtain rfl := Option.some.inj hs₁
      exact hrefl
    | stop pid st =>
      rcases onStop_spec hs₁ with rfl | ⟨sig, hsig, rfl⟩
      · exact hrefl
      · refine keepsAccount_onStop hsig (by_contra fun hne => ?_)
        -- a tracee that comes to a stop was not at one
        obtain ⟨st', b, hst'⟩ := hs pid hne
        obtain ⟨t, ht, hcan, -⟩ := System.step_stop hsystem
        exact not_stopped_of_canStop hcan st' b (Option.some.inj (ht.symm.trans hst'))
    | die pid how =>
      obtain rfl := Option.some.inj hs₁
      exact keepsAccount_onDie pid
    | wait pid =>
      obtain rfl := Option.some.inj hs₁
      exact hrefl
    | monitor =>
      rcases resumed_onLabel hs₁ with ⟨-, hnone⟩ | ⟨pid, -, hnext, rfl⟩
      · have heq := Option.some.inj hs₁
        cases hnext : s.system.nextResumed with
        | none =>
          simp only [hnext] at heq
          exact heq ▸ hrefl
        | some pid => exact absurd hnext (hnone pid rfl)
      · exact keepsAccount_onResume (hno pid rfl hnext)

private theorem transparent_step (hs : DeliveringStopped s) {label : Label} (h : step main s label = some s') :
    Transparent s' ↔ Transparent s ∧ NoSignalResumed s label := by
  have hresumed := resumed_step h
  constructor
  · rintro ⟨hr', hsent'⟩
    obtain ⟨hr, hno⟩ := hresumed.1 hr'
    have hkeep := keepsAccount_step hs hno h
    refine ⟨⟨hr, fun e => ?_⟩, hno⟩
    have he := hkeep e
    rw [hsent' e] at he
    omega
  · rintro ⟨⟨hr, hsent⟩, hno⟩
    have hkeep := keepsAccount_step hs hno h
    refine ⟨hresumed.2 ⟨hr, hno⟩, fun e => ?_⟩
    have he := hkeep e
    rw [hsent e] at he
    omega

/-- In a run every tracee receives exactly the signals that are sent to it, and is resumed without a signal at every
other stop, exactly when no step resumes a tracee at a stop for a signal that was sent to it. -/
theorem transparent_iff {labels : List Label} (h : Runs.run (step main) (start main) labels = some s) :
    s.Transparent ↔ Runs.AllSteps (step main) NoSignalResumed (start main) labels := by
  have hstart : DeliveringStopped (start main) := fun p hp => absurd rfl hp
  have htransparent : (start main).Transparent := ⟨nofun, fun e => rfl⟩
  rw [Runs.iff_allSteps (fun s e s' hs hstep => deliveringStopped_step hs hstep)
    (fun s e s' hs hstep => transparent_step hs hstep) hstart h]
  exact and_iff_right htransparent

/-- The system steps of a run. -/
def systemRun (labels : List SyscallMonitor.Label) : List Label := labels.map .system

/-- A syscall, an `execve` and the `SIGSTOP` of a new child, with a signal on its way. -/
theorem transparent_without_signal_stop :
    ∃ s, Runs.run (step 1) (start 1) (systemRun cloneRun ++ [.send 1 sigusr1] ++
      systemRun [.stop 2 (.signal sigtrap), .wait 2, .monitor, .monitor, .monitor]) = some s ∧ s.Transparent :=
  have hrun : Runs.run (step 1) (start 1) (systemRun cloneRun ++ [.send 1 sigusr1] ++
      systemRun [.stop 2 (.signal sigtrap), .wait 2, .monitor, .monitor, .monitor]) = some _ := rfl
  ⟨_, hrun, (transparent_iff hrun).2 (by decide)⟩

/-- `SIGUSR1` is sent to the tracee, which is resumed at its stop and never receives it. -/
theorem not_transparent_sigusr1 :
    ∃ s, Runs.run (step 1) (start 1) (.send 1 sigusr1 ::
      systemRun [.stop 1 (.signal sigusr1), .wait 1, .monitor, .monitor, .monitor]) = some s ∧ ¬ s.Transparent ∧
      s.sent = [(1, sigusr1)] ∧ s.received = [] ∧ s.queued 1 = [] ∧ s.system.tracees 1 = some .running := by
  refine ⟨_, rfl, ?_, by decide, by decide, by decide, by decide⟩
  rintro ⟨hresumed, -⟩
  exact absurd (hresumed (1, some sigusr1, none) (List.mem_singleton_self _)) (by decide)

end Signalled

end R4R.SyscallMonitor
