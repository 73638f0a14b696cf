import R4R.Lib.Runs
import R4R.Ptrace

/-!
# Signals

`register_error_handler` makes a handler for SIGINT and SIGTERM that stops the current task of a tracer.  The handler is
a static object, which the first call of `run_from_options` initialises with its own tracer, and `current_task_` is not
reset when a task throws.  So the handler finds the objects that it uses alive only in the first call and before a task
has thrown; there it kills the process that `tracee_pid_` names (`Process.Inv.handle_snd`).
-/

namespace R4R.Signals

/-- The signals that have a handler. -/
inductive Signal where
  /-- `SIGINT` -/
  | interrupt
  /-- `SIGTERM` -/
  | terminate
deriving DecidableEq

/-- The tasks, as far as `stop` tells them apart. -/
inductive Task where
  | fileTracing
  | other
deriving DecidableEq

/-- Where `run_pipeline` is, with the tasks that have not been started. -/
inductive Place where
  | between (left : List Task)
  | inTask (task : Task) (left : List Task)
  /-- in `monitor_->start()`, with what `fork` has returned -/
  | starting (forked : Option Pid) (left : List Task)
  /-- in `process_tracer`, with the threads that forward the output -/
  | monitoring (left : List Task)
  /-- `waitpid` has returned the end of the tracee -/
  | reaped (left : List Task)
  /-- in the task that traces the files, behind `monitor_->start()` -/
  | monitored (left : List Task)
  /-- an exception that no task has thrown has left `run_pipeline` -/
  | failed
  /-- an exception of a task has destroyed the tasks -/
  | unwound
deriving DecidableEq

/-- A call of `run_from_options` with the pointers of its tracer and of the task that traces the files; what `monitor_`
points to is the `tracee_pid_` of the monitor, which is `none` for -1. -/
structure Call where
  place : Place
  currentTask : Option Task
  monitor : Option (Option Pid)
deriving DecidableEq

/-- `global_signal_handler`: the number of the call whose tracer it has captured, and `got_sigint`. -/
structure Handler where
  tracer : Nat
  gotSigint : Bool
deriving DecidableEq

/-- A process that runs this program. -/
structure Process where
  /-- how often `run_from_options` has been called -/
  calls : Nat
  call : Option Call
  handler : Option Handler
  exit : Option Nat
deriving DecidableEq

/-- What happens in a process. -/
inductive Event where
  | call (tasks : List Task)
  /-- `current_task_ = &task` -/
  | startTask
  /-- `monitor_ = &monitor` -/
  | setMonitor
  /-- `fork()` has returned `result` -/
  | fork (result : Pid)
  /-- `tracee_pid_ = fork()` -/
  | setTraceePid
  /-- the threads of `process_tracer` -/
  | forward
  | reap
  /-- `monitor_ = nullptr` -/
  | startReturned
  /-- `current_task_ = nullptr` -/
  | taskReturned
  | throw
  | ret
  | signal (sig : Signal)
deriving DecidableEq

namespace Call

/-- What the call does next. -/
def step (c : Call) : Event → Option Call
  | .startTask =>
    match c.place with
    | .between (task :: left) => some { c with place := .inTask task left, currentTask := some task }
    | _ => none
  | .setMonitor =>
    match c.place with
    | .inTask .fileTracing left => some { c with place := .starting none left, monitor := some none }
    | _ => none
  | .fork result =>
    match c.place with
    | .starting none left => some { c with place := .starting (some result) left }
    | _ => none
  | .setTraceePid =>
    match c.place, c.monitor with
    | .starting (some result) _, some none => some { c with monitor := some (some result) }
    | _, _ => none
  -- only where `tracee_pid_` is not 0
  | .forward =>
    match c.place, c.monitor with
    | .starting _ left, some (some pid) => if pid = 0 then none else some { c with place := .monitoring left }
    | _, _ => none
  -- `tracee_pid_` is not reset
  | .reap =>
    match c.place with
    | .monitoring left => some { c with place := .reaped left }
    | _ => none
  | .startReturned =>
    match c.place with
    | .reaped left => some { c with place := .monitored left, monitor := none }
    | _ => none
  | .taskReturned =>
    match c.place with
    | .inTask .other left => some { c with place := .between left, currentTask := none }
    | .monitored left => some { c with place := .between left, currentTask := none }
    | _ => none
  -- neither pointer is reset, and nothing is thrown in the tracee
  | .throw =>
    match c.place with
    | .between _ => some { c with place := .failed }
    | .inTask .. => some { c with place := .unwound }
    | .starting forked _ => if forked = some 0 then none else some { c with place := .unwound }
    | .monitored _ => some { c with place := .unwound }
    | _ => none
  | _ => none

/-- The call can return. -/
def isDone (c : Call) : Bool :=
  match c.place with
  | .between [] => true
  | .failed => true
  | .unwound => true
  | _ => false

/-- The threads of `process_tracer` run, so that an exception calls `std::terminate`. -/
def forwards (c : Call) : Bool :=
  match c.place with
  | .monitoring _ => true
  | .reaped _ => true
  | _ => false

/-- The monitor exists, which is a local object of `FileTracingTask::run`. -/
def inStart (c : Call) : Bool :=
  match c.place with
  | .starting .. => true
  | _ => c.forwards

end Call

/-- What `Tracer::stop` comes to. -/
inductive Stopped where
  | nothing
  | kill (pid : Pid)
  | dangling
deriving DecidableEq

/-- `SyscallMonitor::stop` -/
def Stopped.ofTracee : Option Pid → Stopped
  | none => .nothing
  | some pid => .kill pid

/-- `Task::stop` and `FileTracingTask::stop`. -/
def Call.stopTask (c : Call) : Task → Stopped
  | .other => .nothing
  | .fileTracing =>
    match c.monitor with
    | none => .nothing
    | some tracee => if c.inStart then .ofTracee tracee else .dangling

/-- `Tracer::stop`. -/
def Call.stop (c : Call) : Stopped :=
  match c.currentTask with
  | none => .nothing
  | some task => if c.place = .unwound then .dangling else c.stopTask task

namespace Process

/-- What stopping comes to when the handler has captured the tracer of the call with that number. -/
def stopped (p : Process) (tracer : Nat) : Stopped :=
  match p.call with
  | none => .dangling
  | some c => if tracer = p.calls then c.stop else .dangling

/-- The handler; without one the signal ends the process. -/
def handle (p : Process) (sig : Signal) : Process × Stopped :=
  match p.handler, sig with
  | none, .interrupt => ({ p with exit := some 130 }, .nothing)
  | none, .terminate => ({ p with exit := some 143 }, .nothing)
  | some h, .terminate => ({ p with exit := some 1 }, p.stopped h.tracer)
  | some h, .interrupt =>
    if h.gotSigint then ({ p with exit := some 1 }, .nothing)
    else ({ p with handler := some { h with gotSigint := true } }, p.stopped h.tracer)

/-- The event in the process, with what the handler stops. -/
def step (p : Process) (e : Event) : Option (Process × Stopped) :=
  if p.exit.isSome then none
  else match e with
    | .call tasks =>
      match p.call with
      | some _ => none
      -- the initializer of the static handler runs once
      | none => some ({ p with
          calls := p.calls + 1
          call := some ⟨.between tasks, none, none⟩
          handler := some (p.handler.getD ⟨p.calls + 1, false⟩) }, .nothing)
    | .ret => p.call.bind fun c => if c.isDone then some ({ p with call := none }, .nothing) else none
    | .signal sig => some (p.handle sig)
    | e => p.call.bind fun c =>
      if e = .throw ∧ c.forwards then some ({ p with exit := some 134 }, .nothing)
      else (c.step e).map fun c => ({ p with call := some c }, .nothing)

/-- The `tracee_pid_` of the monitor. -/
def tracee (p : Process) : Option Pid := p.call.bind fun c => c.monitor.join

end Process

/-! ### The pointers -/

/-- What the pointers of a call are, by the place that it has come to. -/
def Call.Points (c : Call) : Prop :=
  match c.place with
  | .between _ => c.currentTask = none ∧ c.monitor = none
  | .inTask task _ => c.currentTask = some task ∧ c.monitor = none
  | .starting forked _ => c.currentTask = some .fileTracing ∧
      (c.monitor = some none ∨ ∃ pid, forked = some pid ∧ c.monitor = some (some pid))
  | .monitoring _ => c.currentTask = some .fileTracing ∧ ∃ pid, c.monitor = some (some pid)
  | .reaped _ => c.currentTask = some .fileTracing ∧ ∃ pid, c.monitor = some (some pid)
  | .monitored _ => c.currentTask = some .fileTracing ∧ c.monitor = none
  | .failed => c.currentTask = none ∧ c.monitor = none
  | .unwound => c.currentTask.isSome

/-- The transitions of a call. -/
inductive Call.Steps : Call → Event → Call → Prop
  | startTask {task left current monitor} :
      Steps ⟨.between (task :: left), current, monitor⟩ .startTask ⟨.inTask task left, some task, monitor⟩
  | setMonitor {left current monitor} :
      Steps ⟨.inTask .fileTracing left, current, monitor⟩ .setMonitor ⟨.starting none left, current, some none⟩
  | fork {result left current monitor} :
      Steps ⟨.starting none left, current, monitor⟩ (.fork result) ⟨.starting (some result) left, current, monitor⟩
  | setTraceePid {result left current} :
      Steps ⟨.starting (some result) left, current, some none⟩ .setTraceePid
        ⟨.starting (some result) left, current, some (some result)⟩
  | forward {forked left current pid} (hpid : pid ≠ 0) :
      Steps ⟨.starting forked left, current, some (some pid)⟩ .forward ⟨.monitoring left, current, some (some pid)⟩
  | reap {left current monitor} :
      Steps ⟨.monitoring left, current, monitor⟩ .reap ⟨.reaped left, current, monitor⟩
  | startReturned {left current monitor} :
      Steps ⟨.reaped left, current, monitor⟩ .startReturned ⟨.monitored left, current, none⟩
  | otherReturned {left current monitor} :
      Steps ⟨.inTask .other left, current, monitor⟩ .taskReturned ⟨.between left, none, monitor⟩
  | tracingReturned {left current monitor} :
      Steps ⟨.monitored left, current, monitor⟩ .taskReturned ⟨.between left, none, monitor⟩
  | throwBetween {left current monitor} :
      Steps ⟨.between left, current, monitor⟩ .throw ⟨.failed, current, monitor⟩
  | throwInTask {task left current monitor} :
      Steps ⟨.inTask task left, current, monitor⟩ .throw ⟨.unwound, current, monitor⟩
  | throwStarting {forked left current monitor} (hforked : forked ≠ some 0) :
      Steps ⟨.starting forked left, current, monitor⟩ .throw ⟨.unwound, current, monitor⟩
  | throwMonitored {left current monitor} :
      Steps ⟨.monitored left, current, monitor⟩ .throw ⟨.unwound, current, monitor⟩

theorem Call.steps_of_step {c c' : Call} {e : Event} (h : c.step e = some c') : c.Steps e c' := by
  obtain ⟨place, current, monitor⟩ := c
  unfold Call.step at h
  dsimp only at h
  split at h
  all_goals try split at h
  all_goals first
    | cases h
      done
    | obtain rfl := Option.some.inj h
      constructor
    | obtain ⟨hne, h⟩ := Option.ite_none_left_eq_some.1 h
      obtain rfl := Option.some.inj h
      exact .forward hne
    | obtain ⟨hne, h⟩ := Option.ite_none_left_eq_some.1 h
      obtain rfl := Option.some.inj h
      exact .throwStarting hne

private theorem Call.Points.step {c c' : Call} {e : Event} (hc : c.Points) (h : c.step e = some c') : c'.Points := by
  cases Call.steps_of_step h with
  | startTask => exact ⟨rfl, hc.2⟩
  | setMonitor => exact ⟨hc.1, .inl rfl⟩
  | fork =>
    rcases hc.2 with hmonitor | ⟨pid, hforked, -⟩
    · exact ⟨hc.1, .inl hmonitor⟩
    · cases hforked
  | setTraceePid => exact ⟨hc.1, .inr ⟨_, rfl, rfl⟩⟩
  | forward => exact ⟨hc.1, _, rfl⟩
  | reap => exact hc
  | startReturned => exact ⟨hc.1, rfl⟩
  | otherReturned | tracingReturned => exact ⟨rfl, hc.2⟩
  | throwBetween => exact hc
  | throwInTask | throwStarting | throwMonitored => exact Option.isSome_of_eq_some hc.1

/-- While the tasks exist, stopping kills the tracee that the monitor knows. -/
private theorem Call.Points.stop_eq {c : Call} (hc : c.Points) (h : c.place ≠ .unwound) :
    c.stop = .ofTracee c.monitor.join := by
  obtain ⟨place, current, monitor⟩ := c
  cases place with
  | between left | failed =>
    obtain ⟨rfl, rfl⟩ : current = none ∧ monitor = none := hc
    rfl
  | inTask task left =>
    obtain ⟨rfl, rfl⟩ : current = some task ∧ monitor = none := hc
    cases task <;> rfl
  | monitored left =>
    obtain ⟨rfl, rfl⟩ : current = some .fileTracing ∧ monitor = none := hc
    rfl
  | starting forked left =>
    obtain ⟨hcurrent, rfl | ⟨pid, -, rfl⟩⟩ := hc
    all_goals
      obtain rfl : current = some .fileTracing := hcurrent
      rfl
  | monitoring left | reaped left =>
    obtain ⟨hcurrent, pid, hmonitor⟩ := hc
    obtain rfl : current = some .fileTracing := hcurrent
    obtain rfl : monitor = some (some pid) := hmonitor
    rfl
  | unwound => exact absurd rfl h

/-- An exception of a task leaves the pointer to a task that has been destroyed. -/
private theorem Call.Points.stop_eq_dangling {c : Call} (hc : c.Points) (h : c.place = .unwound) :
    c.stop = .dangling := by
  obtain ⟨place, current, monitor⟩ := c
  obtain rfl : place = .unwound := h
  obtain ⟨task, rfl⟩ := Option.isSome_iff_exists.1 (show current.isSome = true from hc)
  rfl

/-! ### A process -/

namespace Process

/-- What holds between two events: the handler has captured the first tracer. -/
structure Inv (p : Process) : Prop where
  points : ∀ c, p.call = some c → c.Points
  tracer : ∀ h, p.handler = some h → h.tracer = 1
  installed : p.handler = none → p.calls = 0
  none_of_zero : p.calls = 0 → p.call = none

/-- The signal makes the handler stop the tracer. -/
def StopsOn (p : Process) (sig : Signal) : Prop :=
  ∃ h, p.handler = some h ∧ (sig = .interrupt → h.gotSigint = false)

/-- The first call runs, and no task of it has thrown. -/
def InFirstCall (p : Process) : Prop := p.calls = 1 ∧ ∃ c, p.call = some c ∧ c.place ≠ .unwound

/-- The process is not the child behind `tracee_pid_ = 0`, and not the tracer between the end of its tracee and the
return of `start`. -/
def KnowsTracee (p : Process) : Prop :=
  ∀ c, p.call = some c → c.monitor ≠ some (some 0) ∧ ∀ left, c.place ≠ .reaped left

theorem handle_cases (p : Process) (sig : Signal) :
    (¬p.StopsOn sig ∧ ∃ status, p.handle sig = ({ p with exit := some status }, .nothing)) ∨
      p.StopsOn sig ∧ ∃ h h' exit, p.handler = some h ∧ h'.tracer = h.tracer ∧
        p.handle sig = ({ p with handler := some h', exit := exit }, p.stopped h.tracer) := by
  obtain ⟨calls, call, handler, exit⟩ := p
  cases handler with
  | none =>
    refine .inl ⟨?_, ?_⟩
    · rintro ⟨h, ⟨⟩, -⟩
    · cases sig with
      | interrupt => exact ⟨130, rfl⟩
      | terminate => exact ⟨143, rfl⟩
  | some h =>
    cases sig with
    | terminate => exact .inr ⟨⟨h, rfl, nofun⟩, h, h, some 1, rfl, rfl, rfl⟩
    | interrupt =>
      by_cases hgot : h.gotSigint
      · refine .inl ⟨?_, 1, if_pos hgot⟩
        rintro ⟨h₁, ⟨⟩, hnot⟩
        exact absurd hgot (Bool.eq_false_iff.1 (hnot rfl))
      · rw [Bool.not_eq_true] at hgot
        exact .inr ⟨⟨h, rfl, fun _ => hgot⟩, h, { h with gotSigint := true }, exit, rfl, rfl,
          if_neg (Bool.eq_false_iff.1 hgot)⟩

/-- What an event does in a process. -/
theorem step_cases {p : Process} {e : Event} {r : Process × Stopped} (h : p.step e = some r) :
    (∃ tasks, e = .call tasks ∧ p.call = none ∧ r = ({ p with
        calls := p.calls + 1
        call := some ⟨.between tasks, none, none⟩
        handler := some (p.handler.getD ⟨p.calls + 1, false⟩) }, .nothing)) ∨
    (e = .ret ∧ (∃ c, p.call = some c ∧ c.isDone) ∧ r = ({ p with call := none }, .nothing)) ∨
    (∃ sig, e = .signal sig ∧ r = p.handle sig) ∨
    (e = .throw ∧ r = ({ p with exit := some 134 }, .nothing)) ∨
    ∃ c c', p.call = some c ∧ c.step e = some c' ∧ r = ({ p with call := some c' }, .nothing) := by
  unfold step at h
  split at h
  · cases h
  · cases e with
    | call tasks =>
      cases hcall : p.call with
      | none =>
        rw [hcall] at h
        exact .inl ⟨tasks, rfl, rfl, (Option.some.inj h).symm⟩
      | some c =>
        rw [hcall] at h
        cases h
    | ret =>
      obtain ⟨c, hcall, h⟩ := Option.bind_eq_some_iff.1 h
      obtain ⟨hdone, h⟩ := Option.ite_none_right_eq_some.1 h
      exact .inr (.inl ⟨rfl, ⟨c, hcall, hdone⟩, (Option.some.inj h).symm⟩)
    | signal sig => exact .inr (.inr (.inl ⟨sig, rfl, (Option.some.inj h).symm⟩))
    | startTask | setMonitor | fork | setTraceePid | forward | reap | startReturned | taskReturned | throw =>
      obtain ⟨c, hcall, h⟩ := Option.bind_eq_some_iff.1 h
      split at h
      · rename_i hthrow
        exact .inr (.inr (.inr (.inl ⟨hthrow.1, (Option.some.inj h).symm⟩)))
      · obtain ⟨c', hstep, rfl⟩ := Option.map_eq_some_iff.1 h
        exact .inr (.inr (.inr (.inr ⟨c, c', hcall, hstep, rfl⟩)))

/-- Nothing is stopped but by a handler. -/
theorem signal_or_nothing {p : Process} {e : Event} {r : Process × Stopped} (h : p.step e = some r) :
    (∃ sig, e = .signal sig ∧ r = p.handle sig) ∨ (∀ sig, e ≠ .signal sig) ∧ r.2 = .nothing := by
  rcases step_cases h with ⟨tasks, rfl, -, rfl⟩ | ⟨rfl, -, rfl⟩ | hsignal | ⟨rfl, rfl⟩ | ⟨c, c', -, hstep, rfl⟩
  · exact .inr ⟨nofun, rfl⟩
  · exact .inr ⟨nofun, rfl⟩
  · exact .inl hsignal
  · exact .inr ⟨nofun, rfl⟩
  · refine .inr ⟨?_, rfl⟩
    rintro sig rfl
    cases hstep

theorem Inv.step {p : Process} {e : Event} {r : Process × Stopped} (hp : p.Inv) (h : p.step e = some r) :
    r.1.Inv := by
  rcases step_cases h with ⟨tasks, -, -, rfl⟩ | ⟨-, -, rfl⟩ | ⟨sig, -, rfl⟩ | ⟨-, rfl⟩ | ⟨c, c', hcall, hstep, rfl⟩
  · refine ⟨fun c hc => ?_, fun h' hh' => ?_, nofun, by simp⟩
    · obtain rfl := Option.some.inj hc
      exact ⟨rfl, rfl⟩
    · obtain rfl := Option.some.inj hh'
      cases hh : p.handler with
      | none =>
        have hzero := hp.installed hh
        simp [hzero]
      | some h' => exact hp.tracer h' hh
  · exact ⟨nofun, hp.tracer, hp.installed, fun _ => rfl⟩
  · rcases p.handle_cases sig with ⟨-, status, heq⟩ | ⟨-, h, h', exit, hh, htracer, heq⟩
    · rw [heq]
      exact ⟨hp.points, hp.tracer, hp.installed, hp.none_of_zero⟩
    · rw [heq]
      refine ⟨hp.points, fun h₁ hh₁ => ?_, nofun, hp.none_of_zero⟩
      obtain rfl := Option.some.inj hh₁
      exact htracer.trans (hp.tracer h hh)
  · exact ⟨hp.points, hp.tracer, hp.installed, hp.none_of_zero⟩
  · refine ⟨fun c₁ hc₁ => ?_, hp.tracer, hp.installed, fun hzero => ?_⟩
    · obtain rfl := Option.some.inj hc₁
      exact (hp.points c hcall).step hstep
    · rw [hp.none_of_zero hzero] at hcall
      cases hcall

/-- The handler stops the first tracer. -/
private theorem Inv.stopped_eq {p : Process} (hp : p.Inv) {h : Handler} (hh : p.handler = some h) :
    (p.InFirstCall ∧ p.stopped h.tracer = .ofTracee p.tracee) ∨
      (¬p.InFirstCall ∧ p.stopped h.tracer = .dangling) := by
  unfold stopped InFirstCall tracee
  rw [hp.tracer h hh]
  cases hcall : p.call with
  | none => exact .inr ⟨by simp, rfl⟩
  | some c =>
    have hpoints := hp.points c hcall
    by_cases hcalls : p.calls = 1
    · by_cases hplace : c.place = .unwound
      · exact .inr ⟨by simp [hplace], by simp [hcalls, hpoints.stop_eq_dangling hplace]⟩
      · exact .inl ⟨by simp [hcalls, hplace], by simp [hcalls, hpoints.stop_eq hplace]⟩
    · exact .inr ⟨by simp [hcalls], by simp [Ne.symm hcalls]⟩

/-- What the handler comes to. -/
theorem Inv.handle_snd {p : Process} (hp : p.Inv) (sig : Signal) :
    (p.handle sig).2 = .nothing ∧ ¬p.StopsOn sig ∨
    (p.handle sig).2 = .dangling ∧ p.StopsOn sig ∧ ¬p.InFirstCall ∨
    (p.handle sig).2 = .ofTracee p.tracee ∧ p.StopsOn sig ∧ p.InFirstCall := by
  rcases p.handle_cases sig with ⟨hstops, status, heq⟩ | ⟨hstops, h, h', exit, hh, -, heq⟩
  · exact .inl ⟨by rw [heq], hstops⟩
  · rw [heq]
    rcases hp.stopped_eq hh with ⟨hfirst, hstopped⟩ | ⟨hfirst, hstopped⟩
    · exact .inr (.inr ⟨hstopped, hstops, hfirst⟩)
    · exact .inr (.inl ⟨hstopped, hstops, hfirst⟩)

/-- The process is a copy that `fork` has returned 0 to, and has not executed the program. -/
structure IsCopy (p : Process) : Prop where
  inv : p.Inv
  place : ∃ c left, p.call = some c ∧ c.place = .starting (some 0) left

theorem IsCopy.step {p : Process} {e : Event} {r : Process × Stopped} (hp : p.IsCopy) (h : p.step e = some r) :
    r.1.IsCopy := by
  refine ⟨hp.inv.step h, ?_⟩
  obtain ⟨c, left, hcall, hplace⟩ := hp.place
  have hpoints := hp.inv.points c hcall
  rcases step_cases h with ⟨tasks, -, hnone, -⟩ | ⟨-, ⟨c₁, hcall₁, hdone⟩, -⟩ | ⟨sig, -, rfl⟩ | ⟨-, rfl⟩ |
    ⟨c₁, c', hcall₁, hstep, rfl⟩
  · rw [hnone] at hcall
    cases hcall
  · obtain rfl := Option.some.inj (hcall.symm.trans hcall₁)
    rw [Call.isDone, hplace] at hdone
    cases hdone
  · rcases p.handle_cases sig with ⟨-, status, heq⟩ | ⟨-, h, h', exit, -, -, heq⟩
    · rw [heq]
      exact ⟨c, left, hcall, hplace⟩
    · rw [heq]
      exact ⟨c, left, hcall, hplace⟩
  · exact ⟨c, left, hcall, hplace⟩
  · obtain rfl := Option.some.inj (hcall.symm.trans hcall₁)
    cases Call.steps_of_step hstep with
    | setTraceePid => exact ⟨_, left, rfl, hplace⟩
    | forward hpid =>
      -- in the copy `tracee_pid_` is 0 once it is set
      cases hplace
      rcases hpoints.2 with hnone | ⟨pid, hforked, hsome⟩
      · cases hnone
      · cases hforked
        cases hsome
        exact absurd rfl hpid
    | throwStarting hforked =>
      cases hplace
      exact absurd rfl hforked
    | _ => cases hplace

end Process

end R4R.Signals
