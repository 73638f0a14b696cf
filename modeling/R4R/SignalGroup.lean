import R4R.Signals

/-!
# Signals to the process group

The process that `start` forks is a copy of the tracer, with its handler, until it executes the program.  In the copy
`tracee_pid_` is 0, which is the whole process group for `kill`, and in the tracer it stays as it is when `waitpid` has
returned the end of the tracee.  At whatever moments the signals come, these and the objects that no longer exist are
all the ways in which a handler goes wrong (`run_safe_iff`).
-/

namespace R4R.Signals

/-- A process that the tracer has forked. -/
inductive Child where
  /-- it has not executed the program -/
  | copy (p : Process)
  | program
  /-- the tracer has not waited for it -/
  | ended
deriving DecidableEq

def Child.ofProcess (p : Process) : Child := if p.exit.isSome then .ended else .copy p

/-- What `SIGKILL` to the group leaves; a program may have left the group. -/
def Child.killGroup : Child → Child
  | .copy _ => .ended
  | c => c

/-- The process group of the tracer, with the children that it has not waited for. -/
structure Group where
  tracer : Process
  child : Pid → Option Child
  /-- a handler has used an object that does not exist -/
  dangling : Bool
  /-- `SIGKILL` has gone to a process that is no tracee -/
  astray : Bool

/-- What happens in the group.  A signal that `ptrace` holds back from a child is no event. -/
inductive GroupEvent where
  | tracer (e : Event)
  | child (pid : Pid) (e : Event)
  /-- `execvp` -/
  | exec (pid : Pid)
  /-- the child exits or is killed -/
  | ends (pid : Pid)
deriving DecidableEq

namespace Group

def start : Group := ⟨⟨0, none, none, none⟩, fun _ => none, false, false⟩

/-- `kill(pid, SIGKILL)` -/
def kill (g : Group) (pid : Pid) : Group :=
  if pid = 0 then
    { g with
      tracer := { g.tracer with exit := some (g.tracer.exit.getD 137) }
      child := fun pid => (g.child pid).map Child.killGroup
      astray := true }
  else match g.child pid with
    | none => { g with astray := true }
    | some _ => { g with child := Function.update g.child pid (some .ended) }

def apply (g : Group) : Stopped → Group
  | .nothing => g
  | .kill pid => g.kill pid
  | .dangling => { g with dangling := true }

def step (g : Group) : GroupEvent → Option Group
  -- the child is a copy in which `fork` returns 0
  | .tracer (.fork pid) =>
    if pid ≠ 0 ∧ g.child pid = none then
      (g.tracer.step (.fork pid)).bind fun parent => (g.tracer.step (.fork 0)).map fun copy =>
        { g with tracer := parent.1, child := Function.update g.child pid (some (.copy copy.1)) }
    else none
  | .tracer .reap =>
    g.tracer.tracee.bind fun pid =>
      if g.child pid = some .ended then
        (g.tracer.step .reap).map fun parent =>
          { g with tracer := parent.1, child := Function.update g.child pid none }
      else none
  | .tracer e => (g.tracer.step e).map fun r => apply { g with tracer := r.1 } r.2
  | .child pid e =>
    match g.child pid with
    | some (.copy p) => (p.step e).map fun r =>
        apply { g with child := Function.update g.child pid (some (.ofProcess r.1)) } r.2
    | _ => none
  | .exec pid =>
    match g.child pid with
    | some (.copy p) =>
      if p.tracee = some 0 then some { g with child := Function.update g.child pid (some .program) } else none
    | _ => none
  | .ends pid => (g.child pid).map fun _ => { g with child := Function.update g.child pid (some .ended) }

end Group

/-! ### The group -/

/-- The tracee that a call knows is a child until it has been waited for. -/
def Call.Owns (c : Call) (child : Pid → Option Child) : Prop :=
  match c.place with
  | .starting (some pid) _ => child pid ≠ none
  | .monitoring _ => ∀ pid, c.monitor = some (some pid) → child pid ≠ none
  | .reaped _ => ∀ pid, c.monitor = some (some pid) → child pid = none
  | _ => True

private theorem Call.Owns.congr {c : Call} {child child' : Pid → Option Child} (hc : c.Owns child)
    (h : ∀ pid, child' pid = none ↔ child pid = none) : c.Owns child' := by
  unfold Call.Owns at hc ⊢
  split
  · rename_i pid left hplace
    rw [hplace] at hc
    exact fun hnone => hc ((h pid).1 hnone)
  · rename_i left hplace
    rw [hplace] at hc
    exact fun pid hpid hnone => hc pid hpid ((h pid).1 hnone)
  · rename_i left hplace
    rw [hplace] at hc
    exact fun pid hpid => (h pid).2 (hc pid hpid)
  · trivial

private theorem Call.Owns.step {c c' : Call} {e : Event} {child : Pid → Option Child} (hpoints : c.Points)
    (hc : c.Owns child) (hfork : ∀ pid, e ≠ .fork pid) (hreap : e ≠ .reap) (h : c.step e = some c') :
    c'.Owns child := by
  cases Call.steps_of_step h with
  | setTraceePid => exact hc
  | forward =>
    rcases hpoints.2 with hnone | ⟨pid, hforked, hsome⟩
    · cases hnone
    · cases hforked
      rintro pid' ⟨⟩
      cases hsome
      exact hc
  | fork => exact absurd rfl (hfork _)
  | reap => exact absurd rfl hreap
  | startTask | setMonitor | startReturned | otherReturned | tracingReturned => trivial
  | throwBetween | throwInTask | throwStarting | throwMonitored => trivial

private theorem Process.owns_step {p : Process} {e : Event} {r : Process × Stopped} {child : Pid → Option Child}
    (hp : p.Inv) (howns : ∀ c, p.call = some c → c.Owns child) (hfork : ∀ pid, e ≠ .fork pid) (hreap : e ≠ .reap)
    (h : p.step e = some r) : ∀ c, r.1.call = some c → c.Owns child := by
  rcases step_cases h with ⟨tasks, -, -, rfl⟩ | ⟨-, -, rfl⟩ | ⟨sig, -, rfl⟩ | ⟨-, rfl⟩ | ⟨c, c', hcall, hstep, rfl⟩
  · rintro c ⟨⟩
    trivial
  · nofun
  · rcases p.handle_cases sig with ⟨-, status, heq⟩ | ⟨-, h, h', exit, -, -, heq⟩
    · rw [heq]
      exact howns
    · rw [heq]
      exact howns
  · exact howns
  · rintro c₁ ⟨⟩
    exact (howns c hcall).step (hp.points c hcall) hfork hreap hstep

namespace Group

/-- What holds between two events. -/
structure Inv (g : Group) : Prop where
  tracer : g.tracer.Inv
  owns : ∀ c, g.tracer.call = some c → c.Owns g.child
  copies : ∀ pid p, g.child pid = some (.copy p) → p.IsCopy
  zero : g.child 0 = none

/-- The handler of `p` gets the signal. -/
def Gets (g : Group) (e : GroupEvent) (p : Process) (sig : Signal) : Prop :=
  (e = .tracer (.signal sig) ∧ p = g.tracer) ∨
    ∃ pid, e = .child pid (.signal sig) ∧ g.child pid = some (.copy p)

/-- A signal that makes the handler stop the tracer comes in the first call, before a task of it has thrown. -/
def Timely (g : Group) (e : GroupEvent) : Prop := ∀ p sig, g.Gets e p sig → p.StopsOn sig → p.InFirstCall

/-- Such a signal comes also neither to the tracee before it executes the program, once it has set `tracee_pid_`, nor to
the tracer between the end of the tracee and the return of `start`. -/
def Safe (g : Group) (e : GroupEvent) : Prop :=
  ∀ p sig, g.Gets e p sig → p.StopsOn sig → p.InFirstCall ∧ p.KnowsTracee

/-- What an event does in the group. -/
private theorem step_cases {g g' : Group} {e : GroupEvent} (h : g.step e = some g') :
    (∃ pid parent copy, e = .tracer (.fork pid) ∧ pid ≠ 0 ∧ g.child pid = none ∧
      g.tracer.step (.fork pid) = some parent ∧ g.tracer.step (.fork 0) = some copy ∧
      g' = { g with tracer := parent.1, child := Function.update g.child pid (some (.copy copy.1)) }) ∨
    (∃ pid parent, e = .tracer .reap ∧ g.tracer.tracee = some pid ∧ g.tracer.step .reap = some parent ∧
      g' = { g with tracer := parent.1, child := Function.update g.child pid none }) ∨
    (∃ e' r, e = .tracer e' ∧ (∀ pid, e' ≠ .fork pid) ∧ e' ≠ .reap ∧ g.tracer.step e' = some r ∧
      g' = apply { g with tracer := r.1 } r.2) ∨
    (∃ pid p e' r, e = .child pid e' ∧ g.child pid = some (.copy p) ∧ p.step e' = some r ∧
      g' = apply { g with child := Function.update g.child pid (some (.ofProcess r.1)) } r.2) ∨
    ∃ pid c c', (e = .exec pid ∨ e = .ends pid) ∧ g.child pid = some c ∧ (∀ p, c' ≠ .copy p) ∧
      g' = { g with child := Function.update g.child pid (some c') } := by
  cases e with
  | tracer e =>
    cases e with
    | fork pid =>
      obtain ⟨⟨hpid, hnone⟩, h⟩ := Option.ite_none_right_eq_some.1 h
      obtain ⟨parent, hparent, h⟩ := Option.bind_eq_some_iff.1 h
      obtain ⟨copy, hcopy, rfl⟩ := Option.map_eq_some_iff.1 h
      exact .inl ⟨pid, parent, copy, rfl, hpid, hnone, hparent, hcopy, rfl⟩
    | reap =>
      obtain ⟨pid, hpid, h⟩ := Option.bind_eq_some_iff.1 h
      obtain ⟨-, h⟩ := Option.ite_none_right_eq_some.1 h
      obtain ⟨parent, hparent, rfl⟩ := Option.map_eq_some_iff.1 h
      exact .inr (.inl ⟨pid, parent, rfl, hpid, hparent, rfl⟩)
    | call | startTask | setMonitor | setTraceePid | forward | startReturned | taskReturned | throw | ret | signal =>
      obtain ⟨r, hr, rfl⟩ := Option.map_eq_some_iff.1 h
      exact .inr (.inr (.inl ⟨_, r, rfl, nofun, nofun, hr, rfl⟩))
  | child pid e =>
    unfold step at h
    dsimp only at h
    split at h
    · rename_i p hchild
      obtain ⟨r, hr, rfl⟩ := Option.map_eq_some_iff.1 h
      exact .inr (.inr (.inr (.inl ⟨pid, p, e, r, rfl, hchild, hr, rfl⟩)))
    · cases h
  | exec pid =>
    unfold step at h
    dsimp only at h
    split at h
    · rename_i p hchild
      obtain ⟨-, h⟩ := Option.ite_none_right_eq_some.1 h
      exact .inr (.inr (.inr (.inr ⟨pid, .copy p, .program, .inl rfl, hchild, nofun, (Option.some.inj h).symm⟩)))
    · cases h
  | ends pid =>
    obtain ⟨c, hchild, rfl⟩ := Option.map_eq_some_iff.1 h
    exact .inr (.inr (.inr (.inr ⟨pid, c, .ended, .inr rfl, hchild, nofun, rfl⟩)))

private theorem update_eq_none_iff {child : Pid → Option Child} {pid : Pid} {c : Child} (h : child pid = some c)
    (c' : Child) (pid' : Pid) : Function.update child pid (some c') pid' = none ↔ child pid' = none := by
  by_cases hpid : pid' = pid
  · subst hpid
    simp [h]
  · rw [Function.update_of_ne hpid]

/-- A copy among the children is one that was there, or the new one. -/
private theorem copy_of_update {child : Pid → Option Child} {pid pid' : Pid} {new : Option Child} {p : Process}
    (h : Function.update child pid new pid' = some (.copy p)) : new = some (.copy p) ∨ child pid' = some (.copy p) := by
  by_cases hpid : pid' = pid
  · subst hpid
    exact .inl (by rwa [Function.update_self] at h)
  · exact .inr (by rwa [Function.update_of_ne hpid] at h)

/-! ### What the handler does to the group -/

private theorem apply_tracer (g : Group) (stopped : Stopped) :
    ∃ exit, (g.apply stopped).tracer = { g.tracer with exit := exit } := by
  cases stopped with
  | nothing | dangling => exact ⟨g.tracer.exit, rfl⟩
  | kill pid =>
    unfold apply kill
    dsimp only
    split
    · exact ⟨_, rfl⟩
    · split
      · exact ⟨g.tracer.exit, rfl⟩
      · exact ⟨g.tracer.exit, rfl⟩

private theorem apply_child_eq_none_iff (g : Group) (stopped : Stopped) (pid' : Pid) :
    (g.apply stopped).child pid' = none ↔ g.child pid' = none := by
  cases stopped with
  | nothing | dangling => exact Iff.rfl
  | kill pid =>
    unfold apply kill
    dsimp only
    split
    · exact Option.map_eq_none_iff
    · split
      · exact Iff.rfl
      · rename_i c hchild
        exact update_eq_none_iff hchild _ pid'

private theorem apply_child_eq_copy {g : Group} {stopped : Stopped} {pid' : Pid} {p : Process}
    (h : (g.apply stopped).child pid' = some (.copy p)) : g.child pid' = some (.copy p) := by
  cases stopped with
  | nothing | dangling => exact h
  | kill pid =>
    unfold apply kill at h
    dsimp only at h
    split at h
    · obtain ⟨c, -, hc⟩ := Option.map_eq_some_iff.1 h
      cases c <;> cases hc
    · split at h
      · exact h
      · rcases copy_of_update h with hnew | hold
        · cases hnew
        · exact hold

private theorem apply_dangling (g : Group) (stopped : Stopped) :
    (g.apply stopped).dangling = false ↔ g.dangling = false ∧ stopped ≠ .dangling := by
  cases stopped with
  | nothing | dangling => simp [apply]
  | kill pid =>
    have hsame : (g.apply (.kill pid)).dangling = g.dangling := by
      unfold apply kill
      dsimp only
      split
      · rfl
      · split <;> rfl
    simp [hsame]

/-- What is stopped exists, and is a tracee if it is killed. -/
def Hits (child : Pid → Option Child) : Stopped → Prop
  | .nothing => True
  | .kill pid => pid ≠ 0 ∧ child pid ≠ none
  | .dangling => False

private theorem apply_safe (g : Group) (stopped : Stopped) :
    ((g.apply stopped).dangling = false ∧ (g.apply stopped).astray = false) ↔
      (g.dangling = false ∧ g.astray = false) ∧ Hits g.child stopped := by
  cases stopped with
  | nothing | dangling => simp [apply, Hits]
  | kill pid =>
    unfold apply kill Hits
    dsimp only
    by_cases hpid : pid = 0
    · simp [hpid]
    · cases hchild : g.child pid <;> simp [hpid]

private theorem Inv.frame {g g' : Group} (hg : g.Inv) (htracer : g'.tracer.Inv)
    (howns : ∀ c, g'.tracer.call = some c → c.Owns g.child) (hnone : ∀ pid, g'.child pid = none ↔ g.child pid = none)
    (hcopies : ∀ pid p, g'.child pid = some (.copy p) → p.IsCopy) : g'.Inv :=
  ⟨htracer, fun c hc => (howns c hc).congr hnone, hcopies, (hnone 0).2 hg.zero⟩

private theorem Inv.apply {g : Group} (hg : g.Inv) (stopped : Stopped) : (g.apply stopped).Inv := by
  obtain ⟨exit, htracer⟩ := g.apply_tracer stopped
  refine hg.frame ?_ ?_ (g.apply_child_eq_none_iff stopped) fun pid p hp => hg.copies pid p (apply_child_eq_copy hp)
  · rw [htracer]
    exact ⟨hg.tracer.points, hg.tracer.tracer, hg.tracer.installed, hg.tracer.none_of_zero⟩
  · rw [htracer]
    exact hg.owns

private theorem place_of_fork {p : Process} {result : Pid} {r : Process × Stopped}
    (h : p.step (.fork result) = some r) : ∃ c left, r.1.call = some c ∧ c.place = .starting (some result) left := by
  obtain ⟨tasks, ⟨⟩, -⟩ | ⟨⟨⟩, -⟩ | ⟨sig, ⟨⟩, -⟩ | ⟨⟨⟩, -⟩ | ⟨c, c', -, hstep, rfl⟩ := Process.step_cases h
  cases Call.steps_of_step hstep with
  | fork => exact ⟨_, _, rfl, rfl⟩

private theorem place_of_reap {p : Process} {r : Process × Stopped} (h : p.step .reap = some r) :
    ∃ c left, r.1.call = some c ∧ c.place = .reaped left ∧ p.tracee = c.monitor.join := by
  obtain ⟨tasks, ⟨⟩, -⟩ | ⟨⟨⟩, -⟩ | ⟨sig, ⟨⟩, -⟩ | ⟨⟨⟩, -⟩ | ⟨c, c', hcall, hstep, rfl⟩ := Process.step_cases h
  cases Call.steps_of_step hstep with
  | reap =>
    refine ⟨_, _, rfl, rfl, ?_⟩
    rw [Process.tracee, hcall]
    rfl

private theorem Inv.step {g g' : Group} {e : GroupEvent} (hg : g.Inv) (h : g.step e = some g') : g'.Inv := by
  rcases step_cases h with ⟨pid, parent, copy, -, hpid, hnone, hparent, hcopy, rfl⟩ |
    ⟨pid, parent, -, htracee, hparent, rfl⟩ | ⟨e', r, -, hfork, hreap, hr, rfl⟩ |
    ⟨pid, p, e', r, -, hchild, hr, rfl⟩ | ⟨pid, c, c', -, hchild, hc, rfl⟩
  · refine ⟨hg.tracer.step hparent, fun c hc => ?_, fun pid' p hp => ?_, ?_⟩
    · obtain ⟨c₁, left, hcall, hplace⟩ := place_of_fork hparent
      obtain rfl := Option.some.inj (hcall.symm.trans hc)
      rw [Call.Owns, hplace]
      simp
    · rcases copy_of_update hp with hnew | hold
      · obtain rfl := Child.copy.inj (Option.some.inj hnew)
        exact ⟨hg.tracer.step hcopy, place_of_fork hcopy⟩
      · exact hg.copies pid' p hold
    · show Function.update g.child pid _ 0 = none
      rw [Function.update_of_ne (Ne.symm hpid), hg.zero]
  · refine ⟨hg.tracer.step hparent, fun c hc => ?_, fun pid' p hp => ?_, ?_⟩
    · obtain ⟨c₁, left, hcall, hplace, hjoin⟩ := place_of_reap hparent
      obtain rfl := Option.some.inj (hcall.symm.trans hc)
      rw [Call.Owns, hplace]
      intro pid' hpid'
      obtain rfl : pid = pid' := by simpa [htracee, hpid'] using hjoin
      simp
    · rcases copy_of_update hp with hnew | hold
      · cases hnew
      · exact hg.copies pid' p hold
    · show Function.update g.child pid none 0 = none
      by_cases heq : 0 = pid
      · subst heq
        exact Function.update_self ..
      · rw [Function.update_of_ne heq, hg.zero]
  · refine Inv.apply ?_ r.2
    exact ⟨hg.tracer.step hr, Process.owns_step hg.tracer hg.owns hfork hreap hr, hg.copies, hg.zero⟩
  · refine Inv.apply ?_ r.2
    refine hg.frame hg.tracer hg.owns (update_eq_none_iff hchild _) fun pid' p' hp' => ?_
    rcases copy_of_update hp' with hnew | hold
    · have hof := Option.some.inj hnew
      unfold Child.ofProcess at hof
      split at hof
      · cases hof
      · obtain rfl := Child.copy.inj hof
        exact (hg.copies pid p hchild).step hr
    · exact hg.copies pid' p' hold
  · refine hg.frame hg.tracer hg.owns (update_eq_none_iff hchild c') fun pid' p hp => ?_
    rcases copy_of_update hp with hnew | hold
    · exact absurd (Option.some.inj hnew) (hc p)
    · exact hg.copies pid' p hold

/-- The handler that gets the signal, if the event is one. -/
private theorem gets_cases {g g' : Group} {e : GroupEvent} (h : g.step e = some g') :
    ((∀ p sig, ¬g.Gets e p sig) ∧ g'.dangling = g.dangling ∧ g'.astray = g.astray) ∨
    ∃ (p : Process) (sig : Signal) (g₁ : Group), (∀ p' sig', g.Gets e p' sig' ↔ p' = p ∧ sig' = sig) ∧
      g' = g₁.apply (p.handle sig).2 ∧ g₁.dangling = g.dangling ∧ g₁.astray = g.astray ∧
        ∀ pid, g₁.child pid = none ↔ g.child pid = none := by
  rcases step_cases h with ⟨pid, parent, copy, rfl, -, -, -, -, rfl⟩ | ⟨pid, parent, rfl, -, -, rfl⟩ |
    ⟨e', r, rfl, -, -, hr, rfl⟩ | ⟨pid, p, e', r, rfl, hchild, hr, rfl⟩ | ⟨pid, c, c', rfl | rfl, -, -, rfl⟩
  · exact .inl ⟨by simp [Gets], rfl, rfl⟩
  · exact .inl ⟨by simp [Gets], rfl, rfl⟩
  · rcases Process.signal_or_nothing hr with ⟨sig, rfl, rfl⟩ | ⟨hne, hnothing⟩
    · refine .inr ⟨g.tracer, sig, { g with tracer := (g.tracer.handle sig).1 }, ?_, rfl, rfl, rfl, fun _ => Iff.rfl⟩
      simp [Gets, and_comm, eq_comm]
    · rw [hnothing]
      exact .inl ⟨by simp [Gets, hne], rfl, rfl⟩
  · rcases Process.signal_or_nothing hr with ⟨sig, rfl, rfl⟩ | ⟨hne, hnothing⟩
    · refine .inr ⟨p, sig, _, ?_, rfl, rfl, rfl, update_eq_none_iff hchild _⟩
      simp [Gets, hchild, and_comm, eq_comm]
    · rw [hnothing]
      refine .inl ⟨?_, rfl, rfl⟩
      simp [Gets, hne]
  · exact .inl ⟨by simp [Gets], rfl, rfl⟩
  · exact .inl ⟨by simp [Gets], rfl, rfl⟩

/-- What the process that gets the signal knows of its tracee. -/
private theorem Inv.of_gets {g : Group} {e : GroupEvent} {p : Process} {sig : Signal} (hg : g.Inv)
    (h : g.Gets e p sig) : p.Inv ∧ ∀ c pid, p.call = some c → c.place ≠ .unwound → c.monitor = some (some pid) →
      (pid ≠ 0 ∧ g.child pid ≠ none ↔ pid ≠ 0 ∧ ∀ left, c.place ≠ .reaped left) := by
  rcases h with ⟨-, rfl⟩ | ⟨pid', -, hchild⟩
  · refine ⟨hg.tracer, fun c pid hcall hplace hmonitor => ?_⟩
    have hpoints := hg.tracer.points c hcall
    have howns := hg.owns c hcall
    obtain ⟨place, current, monitor⟩ := c
    obtain rfl : monitor = some (some pid) := hmonitor
    cases place with
    | starting forked left =>
      rcases hpoints.2 with hnone | ⟨pid₁, hforked, hsome⟩
      · cases hnone
      · cases hsome
        obtain rfl : forked = some pid := hforked
        have hchild : g.child pid ≠ none := howns
        simp [hchild]
    | monitoring left =>
      have hchild : g.child pid ≠ none := howns pid rfl
      simp [hchild]
    | reaped left =>
      have hnone : g.child pid = none := howns pid rfl
      simp [hnone]
    | between left | inTask task left | monitored left | failed => cases hpoints.2
    | unwound => exact absurd rfl hplace
  · have hcopy := hg.copies pid' p hchild
    refine ⟨hcopy.inv, fun c pid hcall hplace hmonitor => ?_⟩
    obtain ⟨c₁, left, hcall₁, hplace₁⟩ := hcopy.place
    obtain rfl := Option.some.inj (hcall.symm.trans hcall₁)
    have hpoints := hcopy.inv.points c hcall
    rw [Call.Points, hplace₁, hmonitor] at hpoints
    rcases hpoints.2 with hnone | ⟨pid₁, hforked, hsome⟩
    · cases hnone
    · cases hforked
      cases hsome
      simp

/-- The handler kills a tracee or does nothing exactly when the signal comes at a safe moment. -/
private theorem hits_handle_iff {p : Process} {child : Pid → Option Child} (hp : p.Inv)
    (hchild : ∀ c pid, p.call = some c → c.place ≠ .unwound → c.monitor = some (some pid) →
      (pid ≠ 0 ∧ child pid ≠ none ↔ pid ≠ 0 ∧ ∀ left, c.place ≠ .reaped left)) (sig : Signal) :
    Hits child (p.handle sig).2 ↔ (p.StopsOn sig → p.InFirstCall ∧ p.KnowsTracee) := by
  rcases hp.handle_snd sig with ⟨heq, hstops⟩ | ⟨heq, hstops, hfirst⟩ | ⟨heq, hstops, hfirst⟩
  · rw [heq]
    simp [Hits, hstops]
  · rw [heq]
    simp [Hits, hstops, hfirst]
  · rw [heq]
    obtain ⟨-, c, hcall, hplace⟩ := id hfirst
    have hpoints := hp.points c hcall
    have hknows : p.KnowsTracee ↔ c.monitor ≠ some (some 0) ∧ ∀ left, c.place ≠ .reaped left := by
      simp [Process.KnowsTracee, hcall]
    have htracee : p.tracee = c.monitor.join := by
      rw [Process.tracee, hcall]
      rfl
    rw [htracee, hknows]
    simp only [hstops, hfirst, true_and, forall_const]
    cases hjoin : c.monitor.join with
    | none =>
      have hmonitor : ∀ pid, c.monitor ≠ some (some pid) := by
        intro pid hpid
        rw [hpid] at hjoin
        cases hjoin
      refine iff_of_true trivial ⟨hmonitor 0, fun left hreaped => ?_⟩
      rw [Call.Points, hreaped] at hpoints
      obtain ⟨-, pid, hpid⟩ := hpoints
      exact hmonitor pid hpid
    | some pid =>
      have hmonitor : c.monitor = some (some pid) := Option.join_eq_some_iff.1 hjoin
      show (pid ≠ 0 ∧ child pid ≠ none) ↔ _
      rw [hchild c pid hcall hplace hmonitor, hmonitor]
      simp

/-- A step uses only objects that exist exactly when it is timely. -/
private theorem Inv.dangling_step {g g' : Group} {e : GroupEvent} (hg : g.Inv) (h : g.step e = some g') :
    g'.dangling = false ↔ g.dangling = false ∧ g.Timely e := by
  rcases gets_cases h with ⟨hnot, hdangling, -⟩ | ⟨p, sig, g₁, hgets, rfl, hdangling, -, -⟩
  · rw [hdangling]
    exact ⟨fun h => ⟨h, fun p sig hp => absurd hp (hnot p sig)⟩, And.left⟩
  · have htimely : g.Timely e ↔ (p.StopsOn sig → p.InFirstCall) := by
      simp [Timely, hgets]
    obtain ⟨hp, -⟩ := hg.of_gets ((hgets p sig).2 ⟨rfl, rfl⟩)
    rw [apply_dangling, hdangling, htimely]
    refine and_congr_right fun _ => ?_
    rcases hp.handle_snd sig with ⟨heq, hstops⟩ | ⟨heq, hstops, hfirst⟩ | ⟨heq, hstops, hfirst⟩
    · simp [heq, hstops]
    · simp [heq, hstops, hfirst]
    · cases htracee : p.tracee <;> simp [heq, htracee, Stopped.ofTracee, hfirst]

/-- A step also kills only a tracee exactly when it is safe. -/
private theorem Inv.safe_step {g g' : Group} {e : GroupEvent} (hg : g.Inv) (h : g.step e = some g') :
    (g'.dangling = false ∧ g'.astray = false) ↔ (g.dangling = false ∧ g.astray = false) ∧ g.Safe e := by
  rcases gets_cases h with ⟨hnot, hdangling, hastray⟩ | ⟨p, sig, g₁, hgets, rfl, hdangling, hastray, hnone⟩
  · rw [hdangling, hastray]
    exact ⟨fun h => ⟨h, fun p sig hp => absurd hp (hnot p sig)⟩, And.left⟩
  · have hsafe : g.Safe e ↔ (p.StopsOn sig → p.InFirstCall ∧ p.KnowsTracee) := by
      simp [Safe, hgets]
    obtain ⟨hp, hchild⟩ := hg.of_gets ((hgets p sig).2 ⟨rfl, rfl⟩)
    rw [apply_safe, hdangling, hastray, hsafe, hits_handle_iff hp _ sig]
    intro c pid hcall hplace hmonitor
    rw [ne_eq (g₁.child pid), hnone]
    exact hchild c pid hcall hplace hmonitor

private theorem inv_start : start.Inv :=
  ⟨⟨nofun, nofun, fun _ => rfl, fun _ => rfl⟩, nofun, nofun, rfl⟩

end Group

/-- However the signals come between what the processes of the group do, the handlers use no object that does not exist
exactly when each signal that makes one stop the tracer comes in the first call of `run_from_options`, before a task has
thrown.  They also kill nothing but a tracee that the tracer has not waited for exactly when, besides, no such signal
comes to the tracee between `tracee_pid_ = 0` and the program, or to the tracer between the end of its tracee and the
return of `start`. -/
theorem run_safe_iff {es : List GroupEvent} {g : Group} (h : Runs.run Group.step Group.start es = some g) :
    (g.dangling = false ↔ Runs.AllSteps Group.step Group.Timely Group.start es) ∧
      (g.dangling = false ∧ g.astray = false ↔ Runs.AllSteps Group.step Group.Safe Group.start es) := by
  constructor
  · have hiff := Runs.iff_allSteps (fun g e g' hg => Group.Inv.step hg) (fun g e g' hg => Group.Inv.dangling_step hg)
      Group.inv_start h
    rw [hiff]
    exact and_iff_right rfl
  · have hiff := Runs.iff_allSteps (G := fun g : Group => g.dangling = false ∧ g.astray = false)
      (fun g e g' hg => Group.Inv.step hg) (fun g e g' hg => Group.Inv.safe_step hg) Group.inv_start h
    rw [hiff]
    exact and_iff_right ⟨rfl, rfl⟩

/-- The start of the task that traces the files, up to the moment where both processes have set `tracee_pid_`. -/
def forkedRun : List GroupEvent :=
  [.tracer (.call [.fileTracing]), .tracer .startTask, .tracer .setMonitor, .tracer (.fork 7), .child 7 .setTraceePid,
    .tracer .setTraceePid, .tracer .forward]

/-- SIGINT to the tracer while the files are traced. -/
def interruptedRun : List GroupEvent :=
  forkedRun ++ [.exec 7, .tracer (.signal .interrupt), .tracer .reap, .tracer .startReturned, .tracer .throw]

theorem run_safe_iff_interrupted : ∃ g, Runs.run Group.step Group.start interruptedRun = some g ∧
    (g.dangling = false ↔ Runs.AllSteps Group.step Group.Timely Group.start interruptedRun) ∧
      (g.dangling = false ∧ g.astray = false ↔ Runs.AllSteps Group.step Group.Safe Group.start interruptedRun) :=
  ⟨_, rfl, run_safe_iff rfl⟩

/-- Whether a run has used an object that does not exist, and whether it has killed a process that is no tracee. -/
def faults (es : List GroupEvent) : Option (Bool × Bool) :=
  (Runs.run Group.step Group.start es).map fun g => (g.dangling, g.astray)

/-- SIGTERM behind the exception, and SIGTERM in a second call. -/
example : faults (interruptedRun ++ [.tracer (.signal .terminate)]) = some (true, false) ∧
    faults [.tracer (.call []), .tracer .ret, .tracer (.call []), .tracer (.signal .terminate)] =
      some (true, false) := by
  decide

/-- SIGINT to the tracee before it executes the program kills the group, and SIGINT to the tracer between the end of the
tracee and the return of `start` kills a process that the tracer does not know. -/
example : faults (forkedRun ++ [.child 7 (.signal .interrupt)]) = some (false, true) ∧
    faults (forkedRun ++ [.exec 7, .ends 7, .tracer .reap, .tracer (.signal .interrupt)]) = some (false, true) := by
  decide

end R4R.Signals
