import R4R.SignalDelivery

/-!
# The return of the monitor

`monitor` returns when `waitpid` reports the death of the main tracee, whatever the other tracees do.  A process leaves
the tracees only by the report of its death, so the tracees that are left when the monitor returns stay.  Nobody
resumes those that are stopped, and they keep the write ends of the output pipes: the threads that `process_tracer`
joins wait for their end of file.
-/

namespace R4R.SyscallMonitor

/-- When the monitor has returned, the death of every traced process has been reported. -/
def System.AllReported (s : System) : Prop :=
  ∀ result, s.place = .returned result → ∀ pid, s.tracees pid = none

/-- `waitpid` reports the death of the main tracee when no other process is traced. -/
def MainLast (main : Pid) (s : System) (e : Label) : Prop :=
  e = .wait main → ∀ how, s.tracees main = some (.dead how) → ∀ pid, pid ≠ main → s.tracees pid = none

/-! ### Reports of deaths -/

private theorem onStatus_main_death (main : Pid) (how : Death) :
    ∃ result, onStatus main main how.status = .returned result := by
  unfold onStatus
  rcases how.status_cases with h | ⟨h, h'⟩
  · rw [if_pos h, if_pos rfl]
    split
    · exact ⟨_, rfl⟩
    · exact ⟨_, rfl⟩
  · rw [h, h', if_neg (by decide), if_pos rfl, if_pos rfl]
    exact ⟨_, rfl⟩

private theorem onStatus_other_death {main pid : Pid} (hpid : pid ≠ main) (how : Death) :
    onStatus main pid how.status = .waiting := by
  unfold onStatus
  rcases how.status_cases with h | ⟨h, h'⟩
  · rw [if_pos h, if_neg hpid]
  · rw [h, h', if_neg (by decide), if_pos rfl, if_neg hpid]

namespace System

variable {main : Pid} {s s' : System}

/-- `trace_syscalls` takes no process off. -/
private theorem traced_traceSyscalls (s : System) {p : Pid} (hp : s.tracees p ≠ none) (q : Pid) :
    (s.traceSyscalls q).tracees p ≠ none := by
  by_cases hpq : p = q
  · subst hpq
    by_cases hst : ∃ st b, s.tracees p = some (.stopped st b)
    · obtain ⟨st, b, hst⟩ := hst
      rw [traceSyscalls_of_stopped hst]
      simp
    · rw [traceSyscalls_of_not_stopped fun st b h => hst ⟨st, b, h⟩]
      exact hp
  · rw [traceSyscalls_tracees_of_ne hpq]
    exact hp

private theorem traced_monitorStep (h : s.monitorStep = some s') {p : Pid} (hp : s.tracees p ≠ none) :
    s'.tracees p ≠ none := by
  rcases (monitorStep_cases h).2 with htracees | ⟨q, htracees, -⟩
  · exact htracees ▸ hp
  · exact htracees ▸ s.traced_traceSyscalls hp q

/-- A process is traced until `waitpid` reports its death. -/
private theorem traced_step {e : Label} (h : step main s e = some s') {p : Pid} (hp : s.tracees p ≠ none) :
    s'.tracees p ≠ none ∨ e = .wait p ∧ s.place = .waiting ∧ ∃ how, s.tracees p = some (.dead how) := by
  have hupdate : ∀ (ts : Tracees) (q : Pid) (t : Tracee), ts p ≠ none →
      Function.update ts q (some t) p ≠ none := by
    intro ts q t hts
    by_cases hpq : p = q
    · subst hpq
      simp
    · rwa [Function.update_of_ne hpq]
  cases e with
  | spawn q kind child =>
    obtain ⟨-, -, rfl⟩ := step_spawn h
    exact .inl (hupdate _ _ _ (hupdate _ _ _ hp))
  | stop q st =>
    obtain ⟨t, -, -, rfl⟩ := step_stop h
    exact .inl (hupdate _ _ _ hp)
  | die q how =>
    obtain ⟨t, -, -, rfl⟩ := step_die h
    exact .inl (hupdate _ _ _ hp)
  | wait q =>
    obtain ⟨hplace, hwait⟩ := step_wait h
    unfold waitStep at hwait
    split at hwait
    · obtain rfl := Option.some.inj hwait
      exact .inl (hupdate _ _ _ hp)
    · rename_i how hhow
      obtain rfl := Option.some.inj hwait
      by_cases hpq : p = q
      · subst hpq
        exact .inr ⟨rfl, hplace, how, hhow⟩
      · refine .inl ?_
        change Function.update s.tracees q none p ≠ none
        rwa [Function.update_of_ne hpq]
    · cases hwait
  | monitor => exact .inl (traced_monitorStep h hp)

/-- The monitor returns by the report of the death of the main tracee. -/
private theorem returned_step {e : Label} (h : step main s e = some s') {result : Result}
    (hresult : s'.place = .returned result) :
    s.place = .returned result ∨ e = .wait main ∧ ∃ how, s.tracees main = some (.dead how) ∧
      s'.tracees = Function.update s.tracees main none := by
  cases e with
  | spawn q kind child =>
    obtain ⟨-, -, rfl⟩ := step_spawn h
    exact .inl hresult
  | stop q st =>
    obtain ⟨t, -, -, rfl⟩ := step_stop h
    exact .inl hresult
  | die q how =>
    obtain ⟨t, -, -, rfl⟩ := step_die h
    exact .inl hresult
  | wait q =>
    obtain ⟨-, hwait⟩ := step_wait h
    unfold waitStep at hwait
    split at hwait
    · obtain rfl := Option.some.inj hwait
      rw [onStatus_stop] at hresult
      cases hresult
    · rename_i how hhow
      obtain rfl := Option.some.inj hwait
      by_cases hq : q = main
      · subst hq
        exact .inr ⟨rfl, how, hhow, rfl⟩
      · rw [onStatus_other_death hq] at hresult
        cases hresult
    · cases hwait
  | monitor => exact absurd hresult ((monitorStep_cases h).1 result)

/-- After its return the monitor is done. -/
private theorem place_of_returned {e : Label} (h : step main s e = some s') {result : Result}
    (hresult : s.place = .returned result) : s'.place = .returned result := by
  cases e with
  | spawn q kind child =>
    obtain ⟨-, -, rfl⟩ := step_spawn h
    exact hresult
  | stop q st =>
    obtain ⟨t, -, -, rfl⟩ := step_stop h
    exact hresult
  | die q how =>
    obtain ⟨t, -, -, rfl⟩ := step_die h
    exact hresult
  | wait q =>
    obtain ⟨hplace, -⟩ := step_wait h
    rw [hresult] at hplace
    cases hplace
  | monitor =>
    change s.monitorStep = some s' at h
    simp [monitorStep, hresult] at h

end System

/-! ### Runs -/

section Runs

variable {main : Pid} {s s' : System}

/-- Only the report of the death of the main tracee can leave a process unreported, and it is never reported later. -/
private theorem allReported_step {e : Label} (h : System.step main s e = some s') :
    s'.AllReported ↔ s.AllReported ∧ MainLast main s e := by
  constructor
  · intro hs'
    refine ⟨fun result hresult pid => ?_, ?_⟩
    · by_contra hpid
      rcases System.traced_step h hpid with htraced | ⟨-, hwaiting, -⟩
      · exact htraced (hs' result (System.place_of_returned h hresult) pid)
      · rw [hresult] at hwaiting
        cases hwaiting
    · rintro rfl how hhow pid hpid
      obtain ⟨-, hwait⟩ := System.step_wait h
      simp only [System.waitStep, hhow, Option.some.injEq] at hwait
      subst hwait
      obtain ⟨result, hresult⟩ := onStatus_main_death main how
      have hnone := hs' result hresult pid
      change Function.update s.tracees main none pid = none at hnone
      rwa [Function.update_of_ne hpid] at hnone
  · rintro ⟨hs, hlast⟩ result hresult pid
    rcases System.returned_step h hresult with hreturned | ⟨rfl, how, hhow, htracees⟩
    · -- nothing is left to take a step
      have hnone := hs result hreturned
      cases e with
      | spawn q kind child => exact absurd (System.step_spawn h).1 (by simp [hnone])
      | stop q st =>
        obtain ⟨t, ht, -⟩ := System.step_stop h
        simp [hnone] at ht
      | die q how =>
        obtain ⟨t, ht, -⟩ := System.step_die h
        simp [hnone] at ht
      | wait q =>
        obtain ⟨hplace, -⟩ := System.step_wait h
        rw [hreturned] at hplace
        cases hplace
      | monitor => exact absurd hresult ((System.monitorStep_cases h).1 result)
    · rw [htracees]
      by_cases hpid : pid = main
      · subst hpid
        simp
      · rw [Function.update_of_ne hpid]
        exact hlast rfl how hhow pid hpid

/-- A tracee that is stopped when the monitor has returned stays so. -/
private theorem stopped_of_returned {labels : List Label} (h : Runs.run (System.step main) s labels = some s')
    {result : Result} (hresult : s.place = .returned result) {p : Pid} {st : Stop}
    (hp : ∃ b, s.tracees p = some (.stopped st b)) : ∃ b, s'.tracees p = some (.stopped st b) := by
  refine (Runs.invariant (P := fun s => s.place = .returned result ∧ ∃ b, s.tracees p = some (.stopped st b))
    ?_ ⟨hresult, hp⟩ h).2
  rintro s e s' ⟨hplace, b, hst⟩ hstep
  refine ⟨System.place_of_returned hstep hplace, (System.stopped_step hstep hst).resolve_right ?_⟩
  rintro ⟨-, hnext⟩
  simp [System.nextResumed, hplace] at hnext

/-- When the monitor returns, the death of every traced process has been reported, exactly when in the run the death
of the main tracee is reported after those of all others. -/
theorem allReported_iff {labels : List Label} (h : Runs.run (System.step main) (start main) labels = some s) :
    s.AllReported ↔ Runs.AllSteps (System.step main) (MainLast main) (start main) labels := by
  rw [Runs.iff_allSteps (I := fun _ => True) (fun _ _ _ _ _ => trivial)
    (fun s e s' _ hstep => allReported_step hstep) trivial h]
  exact and_iff_right nofun

end Runs

/-- The child 2 of the main tracee 1 is killed and reported first. -/
theorem allReported_childFirst :
    ∃ s, Runs.run (System.step 1) (start 1) [.spawn 1 .fork 2, .die 2 (.signaled Signalled.sigusr1), .wait 2,
      .die 1 (.exited 0), .wait 1] = some s ∧ s.place = .returned (.exit 0) ∧ s.AllReported := by
  have hrun : Runs.run (System.step 1) (start 1) [.spawn 1 .fork 2, .die 2 (.signaled Signalled.sigusr1), .wait 2,
    .die 1 (.exited 0), .wait 1] = some _ := rfl
  refine ⟨_, hrun, rfl, (allReported_iff hrun).2 ?_⟩
  refine And.intro nofun (And.intro nofun (And.intro nofun (And.intro nofun (And.intro ?_ trivial))))
  intro _ how _ pid hpid
  change (Function.update (Function.update (_ : Tracees) 2 none) 1 _ : Tracees) pid = none
  simp [Function.update_apply, hpid, start, System.spawnStep, System.dieStep]

/-- The child 2 of the main tracee 1 is at work when the main tracee exits, and enters `write` after that. -/
def backgroundRun : List Label :=
  [.spawn 1 .fork 2, .stop 1 (.event .fork 2), .wait 1, .monitor, .monitor, .monitor, .monitor,
   .stop 2 (.signal Tracee.sigstop), .wait 2, .monitor, .monitor, .monitor,
   .die 1 (.exited 0), .wait 1, .stop 2 (.syscall (.entry 1 noArgs))]

/-- The child stays at its stop whatever happens afterwards. -/
theorem not_allReported_background :
    ∃ s, Runs.run (System.step 1) (start 1) backgroundRun = some s ∧ s.place = .returned (.exit 0) ∧
      ¬ s.AllReported ∧ ∀ labels s', Runs.run (System.step 1) s labels = some s' →
        ∃ b, s'.tracees 2 = some (.stopped (.syscall (.entry 1 noArgs)) b) := by
  have hrun : Runs.run (System.step 1) (start 1) backgroundRun = some _ := rfl
  refine ⟨_, hrun, rfl, ?_, ?_⟩
  · intro hall
    cases hall (.exit 0) rfl 2
  · intro labels s' h
    exact stopped_of_returned h rfl ⟨true, rfl⟩

end R4R.SyscallMonitor
