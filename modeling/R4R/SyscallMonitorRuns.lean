import R4R.SyscallMonitor

/-!
# Delivery of the syscall stops

Every syscall stop of a tracee reaches the listener unless the tracee is resumed at it first.  The monitor resumes a
tracee at two places: after it has handled a stop of the tracee, which `waitpid` has then reported, and after a fork
event of its parent, when the new child may be at a stop of its own.
-/

namespace R4R.SyscallMonitor

/-- The monitor has the report of `pid` in hand. -/
def Place.holds : Place → Pid → Bool
  | .handleStop p _, pid => p = pid
  | .traceChild p _ _, pid => p = pid
  | .checkTrap p _, pid => p = pid
  | _, _ => false

/-- The entries of a history that concern `pid`. -/
def callsOf (pid : Pid) (l : List (Pid × SyscallInfo)) : List SyscallInfo :=
  l.filterMap fun e => if e.1 = pid then some e.2 else none

/-- The syscall stops among stops. -/
def syscallsOf (l : List (Pid × Stop)) : List (Pid × SyscallInfo) := l.filterMap fun e => e.2.info?.map (e.1, ·)

@[simp] theorem callsOf_append (pid : Pid) (l l' : List (Pid × SyscallInfo)) :
    callsOf pid (l ++ l') = callsOf pid l ++ callsOf pid l' := List.filterMap_append

@[simp] theorem callsOf_nil (pid : Pid) : callsOf pid [] = [] := rfl

@[simp] theorem callsOf_self (pid : Pid) (info : SyscallInfo) : callsOf pid [(pid, info)] = [info] := by
  simp [callsOf]

private theorem callsOf_other {pid p : Pid} (h : p ≠ pid) (info : Option SyscallInfo) :
    callsOf pid (info.toList.map (p, ·)) = [] := by
  cases info <;> simp [callsOf, h]

/-- The syscall stop among the stops of one tracee. -/
private theorem syscallsOf_pending (p : Pid) (st : Option Stop) :
    syscallsOf (st.toList.map (p, ·)) = (st.bind Stop.info?).toList.map (p, ·) := by
  cases st with
  | none => rfl
  | some st => cases hinfo : st.info? <;> simp [syscallsOf, hinfo]

/-- What a tracee at a syscall stop has to report. -/
def unreportedOf (t : Option Tracee) (held : Bool) : List SyscallInfo :=
  match t with
  | some (.stopped st pending) => if pending || held then st.info?.toList else []
  | _ => []

namespace System

/-- The syscall stop of `pid` that has not reached the listener. -/
def unreported (s : System) (pid : Pid) : List SyscallInfo := unreportedOf (s.tracees pid) (s.place.holds pid)

/-- Every syscall stop has reached the listener, or it is the current stop of its tracee. -/
def AllDelivered (s : System) : Prop :=
  ∀ pid, callsOf pid s.happened = callsOf pid s.delivered ++ s.unreported pid

end System

/-! ### The invariant -/

/-- The monitor holds the report of a stopped tracee. -/
def AtPlace (ts : Tracees) : Place → Prop
  | .handleStop pid status => ∃ st, ts pid = some (.stopped st false) ∧ status = st.status
  | .traceChild pid status child => child ≠ pid ∧ ∃ st, ts pid = some (.stopped st false) ∧ status = st.status
  | .checkTrap pid status => ∃ st, ts pid = some (.stopped st false) ∧ status = st.status
  | .traceSyscalls pid => ∃ st, ts pid = some (.stopped st false)
  | .waiting => True
  | .returned _ => True

def childOf : Tracee → Option Pid
  | .forking _ child => some child
  | .stopped (.event _ child) _ => some child
  | _ => none

structure Inv (s : System) : Prop where
  atPlace : AtPlace s.tracees s.place
  /-- no tracee is its own child -/
  child_ne : ∀ pid t child, s.tracees pid = some t → childOf t = some child → child ≠ pid

private theorem AtPlace.update {ts : Tracees} {place : Place} (h : AtPlace ts place) {pid : Pid}
    (hpid : ∀ st b, ts pid ≠ some (.stopped st b)) (t : Option Tracee) :
    AtPlace (Function.update ts pid t) place := by
  have hkeep : ∀ p st, ts p = some (.stopped st false) →
      Function.update ts pid t p = some (.stopped st false) := by
    intro p st hp
    have hne : p ≠ pid := fun he => hpid st false (he ▸ hp)
    rw [Function.update_of_ne hne, hp]
  cases place with
  | handleStop p status =>
    obtain ⟨st, hst, hs⟩ := h
    exact ⟨st, hkeep p st hst, hs⟩
  | traceChild p status child =>
    obtain ⟨hne, st, hst, hs⟩ := h
    exact ⟨hne, st, hkeep p st hst, hs⟩
  | checkTrap p status =>
    obtain ⟨st, hst, hs⟩ := h
    exact ⟨st, hkeep p st hst, hs⟩
  | traceSyscalls p =>
    obtain ⟨st, hst⟩ := h
    exact ⟨st, hkeep p st hst⟩
  | waiting => trivial
  | returned result => trivial

/-- Changing one tracee keeps the parents apart from their children. -/
private theorem child_ne_update {ts : Tracees}
    (h : ∀ pid t child, ts pid = some t → childOf t = some child → child ≠ pid) {p : Pid} {t' : Option Tracee}
    (hp : ∀ t child, t' = some t → childOf t = some child → child ≠ p) :
    ∀ pid t child, Function.update ts p t' pid = some t → childOf t = some child → child ≠ pid := by
  intro pid t child ht hc
  by_cases hpid : pid = p
  · subst hpid
    rw [Function.update_self] at ht
    exact hp t child ht hc
  · rw [Function.update_of_ne hpid] at ht
    exact h pid t child ht hc

theorem onStatus_stop (main pid : Pid) (st : Stop) : onStatus main pid st.status = .handleStop pid st.status := by
  obtain ⟨h1, h2, h3⟩ := st.wIfStopped_status
  simp [onStatus, h1, h2, h3]

/-- After the report of a death the monitor waits or is done. -/
private theorem onStatus_death (main pid : Pid) (how : Death) : onStatus main pid how.status = .waiting ∨
    ∃ result, onStatus main pid how.status = .returned result := by
  unfold onStatus
  rcases how.status_cases with h | ⟨h, h'⟩
  · rw [if_pos h]
    split
    · split
      · exact .inr ⟨_, rfl⟩
      · exact .inr ⟨_, rfl⟩
    · exact .inl rfl
  · rw [h, h', if_neg (by decide), if_pos rfl]
    split
    · exact .inr ⟨_, rfl⟩
    · exact .inl rfl

/-! ### What a step does to the histories -/

/-- The stop at which a step resumes a tracee before its report. -/
def skippedBy (s : System) (e : Label) : List (Pid × Stop) :=
  match e, s.place with
  | .monitor, .traceChild _ _ child => (pendingStop s.tracees child).toList.map (child, ·)
  | _, _ => []

/-- The histories grow by `h`, `d` and `l`, and what is taken from a tracee is what is added to them. -/
structure Effect (s s' : System) (h d : List (Pid × SyscallInfo)) (l : List (Pid × Stop)) : Prop where
  happened : s'.happened = s.happened ++ h
  delivered : s'.delivered = s.delivered ++ d
  skipped : s'.skipped = s.skipped ++ l
  balance : ∀ pid, s.unreported pid ++ callsOf pid h =
    callsOf pid d ++ callsOf pid (syscallsOf l) ++ s'.unreported pid

private theorem unreportedOf_of_not_stopped {t : Option Tracee} (h : ∀ st b, t ≠ some (.stopped st b)) (held : Bool) :
    unreportedOf t held = [] := by
  unfold unreportedOf
  split
  · rename_i st b
    exact absurd rfl (h st b)
  · rfl

/-- Changing a tracee that is not stopped before nor after changes nothing to report. -/
private theorem unreportedOf_update {ts : Tracees} {p : Pid} {t : Option Tracee}
    (hp : ∀ st b, ts p ≠ some (.stopped st b)) (ht : ∀ st b, t ≠ some (.stopped st b)) (pid : Pid) (held : Bool) :
    unreportedOf (Function.update ts p t pid) held = unreportedOf (ts pid) held := by
  by_cases h : pid = p
  · subst h
    rw [Function.update_self, unreportedOf_of_not_stopped hp, unreportedOf_of_not_stopped ht]
  · rw [Function.update_of_ne h]

theorem not_stopped_of_canStop {t : Tracee} {st : Stop} (h : t.CanStop st) (st' : Stop) (b : Bool) :
    t ≠ .stopped st' b := by
  rintro rfl
  exact h

theorem not_stopped_of_live {t : Tracee} (h : t.Live) (st : Stop) (b : Bool) : t ≠ .stopped st b := by
  rintro rfl
  exact h

private theorem stopStep_spec {s : System} (hs : Inv s) {p : Pid} {t : Tracee} {st : Stop} (ht : s.tracees p = some t)
    (hst : t.CanStop st) :
    Inv (s.stopStep p st) ∧ Effect s (s.stopStep p st) (st.info?.toList.map (p, ·)) [] [] := by
  have hp : ∀ st' b, s.tracees p ≠ some (.stopped st' b) := by
    intro st' b h
    rw [ht] at h
    exact not_stopped_of_canStop hst st' b (Option.some.inj h)
  refine ⟨⟨hs.atPlace.update hp _, ?_⟩, rfl, (List.append_nil _).symm, (List.append_nil _).symm, ?_⟩
  · -- an event stop names the child that the tracee has forked
    apply child_ne_update hs.child_ne
    intro t' child ht' hchild
    obtain rfl := Option.some.inj ht'
    cases st with
    | syscall info => cases hchild
    | signal sig => cases hchild
    | event kind c =>
      cases t with
      | forking kind' c' =>
        obtain ⟨rfl, rfl⟩ := Stop.event.inj hst
        exact hs.child_ne p _ child ht hchild
      | starting => cases hst
      | running => cases hst
      | stopped st' b => cases hst
      | dead how => cases hst
  · intro pid
    by_cases hpid : pid = p
    · subst hpid
      have h0 : s.unreported pid = [] := unreportedOf_of_not_stopped hp _
      have h1 : (s.stopStep pid st).unreported pid = st.info?.toList := by
        unfold System.unreported System.stopStep
        simp [unreportedOf]
      rw [h0, h1]
      cases st.info? <;> simp [syscallsOf, callsOf]
    · have h1 : (s.stopStep p st).unreported pid = s.unreported pid := by
        unfold System.unreported System.stopStep
        simp [Function.update_of_ne hpid]
      rw [h1, callsOf_other (Ne.symm hpid)]
      simp [syscallsOf]

private theorem dieStep_spec {s : System} (hs : Inv s) {p : Pid} {t : Tracee} (ht : s.tracees p = some t)
    (hlive : t.Live) (how : Death) : Inv (s.dieStep p how) ∧ Effect s (s.dieStep p how) [] [] [] := by
  have hp : ∀ st b, s.tracees p ≠ some (.stopped st b) := by
    intro st b h
    rw [ht] at h
    exact not_stopped_of_live hlive st b (Option.some.inj h)
  refine ⟨⟨hs.atPlace.update hp _, ?_⟩, (List.append_nil _).symm, (List.append_nil _).symm,
    (List.append_nil _).symm, ?_⟩
  · apply child_ne_update hs.child_ne
    intro t' child ht' hchild
    obtain rfl := Option.some.inj ht'
    cases hchild
  · intro pid
    have h1 : (s.dieStep p how).unreported pid = s.unreported pid := unreportedOf_update hp (by simp) pid _
    rw [h1]
    simp [syscallsOf]

private theorem spawnStep_spec {s : System} (hs : Inv s) {p child : Pid} (hp : s.tracees p = some .running)
    (hchild : s.tracees child = none) (kind : ForkKind) :
    Inv (s.spawnStep p kind child) ∧ Effect s (s.spawnStep p kind child) [] [] [] := by
  have hne : child ≠ p := by
    rintro rfl
    rw [hp] at hchild
    cases hchild
  have hp' : ∀ st b, s.tracees p ≠ some (.stopped st b) := by simp [hp]
  have hchild' : ∀ st b, Function.update s.tracees p (some (.forking kind child)) child ≠ some (.stopped st b) := by
    simp [Function.update_of_ne hne, hchild]
  refine ⟨⟨(hs.atPlace.update hp' _).update hchild' _, ?_⟩, (List.append_nil _).symm, (List.append_nil _).symm,
    (List.append_nil _).symm, ?_⟩
  · apply child_ne_update
    · apply child_ne_update hs.child_ne
      intro t c ht hc
      obtain rfl := Option.some.inj ht
      obtain rfl := Option.some.inj hc
      exact hne
    · intro t c ht hc
      obtain rfl := Option.some.inj ht
      cases hc
  · intro pid
    have h1 : (s.spawnStep p kind child).unreported pid = s.unreported pid :=
      (unreportedOf_update hchild' (by simp) pid _).trans (unreportedOf_update hp' (by simp) pid _)
    rw [h1]
    simp [syscallsOf]

private theorem waitStep_spec {main : Pid} {s s' : System} (hs : Inv s) (hplace : s.place = .waiting) {p : Pid}
    (h : System.waitStep main s p = some s') : Inv s' ∧ Effect s s' [] [] [] := by
  have hnone : ∀ pid, s.place.holds pid = false := by
    intro pid
    rw [hplace]
    rfl
  unfold System.waitStep at h
  split at h
  · rename_i st hst
    obtain rfl := Option.some.inj h
    rw [onStatus_stop]
    refine ⟨⟨⟨st, Function.update_self .., rfl⟩, ?_⟩, (List.append_nil _).symm, (List.append_nil _).symm,
      (List.append_nil _).symm, ?_⟩
    · apply child_ne_update hs.child_ne
      intro t child ht hchild
      obtain rfl := Option.some.inj ht
      exact hs.child_ne p _ child hst (by rw [← hchild]; cases st <;> rfl)
    · intro pid
      -- the report goes from the kernel into the hand of the monitor
      have hsame : s.unreported pid = System.unreported { s with
          tracees := Function.update s.tracees p (some (.stopped st false))
          place := .handleStop p st.status } pid := by
        unfold System.unreported
        rw [hnone]
        by_cases hpid : pid = p
        · subst hpid
          simp [hst, unreportedOf, Place.holds]
        · have hpp : ¬ p = pid := fun he => hpid he.symm
          simp [Function.update_of_ne hpid, Place.holds, hpp]
      rw [← hsame]
      simp [syscallsOf]
  · rename_i how hhow
    obtain rfl := Option.some.inj h
    have hplace' := onStatus_death main p how
    have hnone' : ∀ pid, (onStatus main p how.status).holds pid = false := by
      intro pid
      rcases hplace' with he | ⟨result, he⟩
      · rw [he]; rfl
      · rw [he]; rfl
    refine ⟨⟨?_, ?_⟩, (List.append_nil _).symm, (List.append_nil _).symm, (List.append_nil _).symm, ?_⟩
    · rcases hplace' with he | ⟨result, he⟩
      · rw [he]; trivial
      · rw [he]; trivial
    · apply child_ne_update hs.child_ne
      intro t child ht
      cases ht
    · intro pid
      have hsame : s.unreported pid = System.unreported { s with
          tracees := Function.update s.tracees p none
          place := onStatus main p how.status } pid := by
        unfold System.unreported
        rw [hnone, hnone']
        by_cases hpid : pid = p
        · subst hpid
          simp [hhow, unreportedOf]
        · simp [Function.update_of_ne hpid]
      rw [← hsame]
      simp [syscallsOf]
  · cases h

/-! ### The steps of the monitor -/

theorem traceSyscalls_of_not_stopped {s : System} {p : Pid} (h : ∀ st b, s.tracees p ≠ some (.stopped st b)) :
    s.traceSyscalls p = s := by
  unfold System.traceSyscalls ptraceSyscall
  split
  · rfl
  · rename_i ts hts
    split at hts
    · rename_i st b hst
      exact absurd hst (h st b)
    · cases hts

theorem traceSyscalls_of_stopped {s : System} {p : Pid} {st : Stop} {b : Bool}
    (h : s.tracees p = some (.stopped st b)) :
    s.traceSyscalls p = { s with
      tracees := Function.update s.tracees p (some .running)
      skipped := s.skipped ++ (pendingStop s.tracees p).toList.map (p, ·) } := by
  unfold System.traceSyscalls ptraceSyscall
  rw [h]

/-- Resuming the tracee whose report is in hand skips nothing. -/
private theorem traceSyscalls_reported {s : System} (hs : Inv s) {p : Pid} (hplace : s.place = .traceSyscalls p) :
    Inv { s.traceSyscalls p with place := .waiting } ∧
    Effect s { s.traceSyscalls p with place := .waiting } [] [] [] := by
  have hat := hs.atPlace
  rw [hplace] at hat
  obtain ⟨st, hst⟩ := hat
  have hpend : pendingStop s.tracees p = none := by simp [pendingStop, hst]
  rw [traceSyscalls_of_stopped hst, hpend]
  refine ⟨⟨trivial, ?_⟩, (List.append_nil _).symm, (List.append_nil _).symm, rfl, ?_⟩
  · apply child_ne_update hs.child_ne
    intro t child ht hchild
    obtain rfl := Option.some.inj ht
    cases hchild
  · intro pid
    unfold System.unreported
    rw [hplace]
    by_cases hpid : pid = p
    · subst hpid
      simp [hst, unreportedOf, Place.holds, syscallsOf]
    · simp [Function.update_of_ne hpid, Place.holds, syscallsOf]

/-- Resuming the new child of a tracee skips the stop at which the child may be. -/
private theorem traceSyscalls_child {s : System} (hs : Inv s) {p child : Pid} {status : Nat}
    (hplace : s.place = .traceChild p status child) :
    Inv { s.traceSyscalls child with place := .checkTrap p status } ∧
    Effect s { s.traceSyscalls child with place := .checkTrap p status } [] []
      ((pendingStop s.tracees child).toList.map (child, ·)) := by
  have hat := hs.atPlace
  rw [hplace] at hat
  obtain ⟨hne, st, hst, hstatus⟩ := hat
  by_cases hstop : ∃ st' b, s.tracees child = some (.stopped st' b)
  · obtain ⟨st', b, hst'⟩ := hstop
    rw [traceSyscalls_of_stopped hst']
    refine ⟨⟨⟨st, ?_, hstatus⟩, ?_⟩, (List.append_nil _).symm, (List.append_nil _).symm, rfl, ?_⟩
    · show Function.update s.tracees child (some .running) p = _
      rw [Function.update_of_ne (Ne.symm hne), hst]
    · apply child_ne_update hs.child_ne
      intro t c ht hc
      obtain rfl := Option.some.inj ht
      cases hc
    · intro pid
      unfold System.unreported
      rw [hplace]
      by_cases hpid : pid = child
      · subst hpid
        have hpp : ¬ p = pid := fun he => hne he.symm
        cases b with
        | false =>
          -- `waitpid` has returned the stop of the child already
          simp [hst', unreportedOf, Place.holds, hpp, syscallsOf, pendingStop]
        | true =>
          -- the stop is lost to the listener, and it is what is skipped
          have hpend : pendingStop s.tracees pid = some st' := by simp [pendingStop, hst']
          rw [hpend]
          cases hinfo : st'.info? <;> simp [hst', unreportedOf, syscallsOf, callsOf, hinfo]
      · have hskip : callsOf pid (syscallsOf ((pendingStop s.tracees child).toList.map (child, ·))) = [] := by
          rw [syscallsOf_pending, callsOf_other (Ne.symm hpid)]
        rw [hskip]
        simp [Function.update_of_ne hpid, Place.holds]
  · have hnot : ∀ st' b, s.tracees child ≠ some (.stopped st' b) := by
      intro st' b h
      exact hstop ⟨st', b, h⟩
    have hpend : pendingStop s.tracees child = none := by
      unfold pendingStop
      split
      · rename_i st' h
        exact absurd h (hnot st' true)
      · rfl
    rw [traceSyscalls_of_not_stopped hnot, hpend]
    refine ⟨⟨⟨st, hst, hstatus⟩, hs.child_ne⟩, (List.append_nil _).symm, (List.append_nil _).symm,
      (List.append_nil _).symm, ?_⟩
    intro pid
    unfold System.unreported
    rw [hplace]
    simp [Place.holds, syscallsOf]

/-- The test for a ptrace trap finds the syscall stops, and the listener gets what the tracee has to report. -/
private theorem checkTrap_spec {s s' : System} (hs : Inv s) {p : Pid} {status : Nat}
    (hplace : s.place = .checkTrap p status) (h : s.monitorStep = some s') : Inv s' ∧ ∃ d, Effect s s' [] d [] := by
  have hat := hs.atPlace
  rw [hplace] at hat
  obtain ⟨st, hst, rfl⟩ := hat
  unfold System.monitorStep at h
  simp only [hplace] at h
  split at h
  · rename_i htrap
    obtain ⟨info, rfl⟩ := st.wStopSig_status.1 htrap
    have hinfo : s.handleSyscall p = { s with delivered := s.delivered ++ [(p, info)] } := by
      unfold System.handleSyscall
      rw [show ptraceGetSyscallInfo s.tracees p = some info by simp [ptraceGetSyscallInfo, hst]]
    rw [hinfo] at h
    obtain rfl := Option.some.inj h
    refine ⟨⟨⟨_, hst⟩, hs.child_ne⟩, [(p, info)], (List.append_nil _).symm, rfl, (List.append_nil _).symm, ?_⟩
    intro pid
    unfold System.unreported
    rw [hplace]
    by_cases hpid : pid = p
    · subst hpid
      simp [hst, unreportedOf, Place.holds, syscallsOf, Stop.info?]
    · have hpp : ¬ p = pid := fun he => hpid he.symm
      simp [Place.holds, hpp, syscallsOf, callsOf]
  · rename_i htrap
    obtain rfl := Option.some.inj h
    refine ⟨⟨⟨_, hst⟩, hs.child_ne⟩, [], (List.append_nil _).symm, (List.append_nil _).symm,
      (List.append_nil _).symm, ?_⟩
    intro pid
    unfold System.unreported
    rw [hplace]
    by_cases hpid : pid = p
    · subst hpid
      have hnone : st.info? = none := by
        cases st with
        | syscall info =>
          -- a syscall stop carries `SIGTRAP | 0x80` and would have passed the test
          exact absurd (Stop.wStopSig_status _ |>.2 ⟨info, rfl⟩) htrap
        | event kind child => rfl
        | signal sig => rfl
      simp [hst, unreportedOf, Place.holds, syscallsOf, hnone]
    · have hpp : ¬ p = pid := fun he => hpid he.symm
      simp [Place.holds, hpp, syscallsOf]

/-- At an event stop the monitor learns the child from the kernel. -/
private theorem handleStop_spec {s s' : System} (hs : Inv s) {p : Pid} {status : Nat}
    (hplace : s.place = .handleStop p status) (h : s.monitorStep = some s') : Inv s' ∧ Effect s s' [] [] [] := by
  have hat := hs.atPlace
  rw [hplace] at hat
  obtain ⟨st, hst, rfl⟩ := hat
  unfold System.monitorStep at h
  simp only [hplace] at h
  have hbalance : ∀ place : Place, (∀ pid, place.holds pid = s.place.holds pid) →
      Effect s { s with place := place } [] [] [] := by
    intro place hholds
    refine ⟨(List.append_nil _).symm, (List.append_nil _).symm, (List.append_nil _).symm, ?_⟩
    intro pid
    unfold System.unreported
    rw [hholds]
    simp [syscallsOf]
  split at h
  · rename_i hevent
    obtain ⟨kind, child, rfl⟩ := st.event_status.1 hevent
    have hmsg : ptraceGetEventMsg s.tracees p = some child := by simp [ptraceGetEventMsg, hst]
    rw [hmsg] at h
    obtain rfl := Option.some.inj h
    refine ⟨⟨⟨hs.child_ne p _ child hst rfl, _, hst, rfl⟩, hs.child_ne⟩, hbalance _ ?_⟩
    intro pid
    rw [hplace]
    rfl
  · obtain rfl := Option.some.inj h
    refine ⟨⟨⟨_, hst, rfl⟩, hs.child_ne⟩, hbalance _ ?_⟩
    intro pid
    rw [hplace]
    rfl

private theorem step_spec {main : Pid} {s s' : System} {e : Label} (hs : Inv s) (h : System.step main s e = some s') :
    Inv s' ∧ ∃ h d, Effect s s' h d (skippedBy s e) := by
  cases e with
  | spawn p kind child =>
    obtain ⟨hp, hchild, rfl⟩ := System.step_spawn h
    obtain ⟨hinv, heff⟩ := spawnStep_spec hs hp hchild kind
    exact ⟨hinv, _, _, heff⟩
  | stop p st =>
    obtain ⟨t, ht, hst, rfl⟩ := System.step_stop h
    obtain ⟨hinv, heff⟩ := stopStep_spec hs ht hst
    exact ⟨hinv, _, _, heff⟩
  | die p how =>
    obtain ⟨t, ht, hlive, rfl⟩ := System.step_die h
    obtain ⟨hinv, heff⟩ := dieStep_spec hs ht hlive how
    exact ⟨hinv, _, _, heff⟩
  | wait p =>
    obtain ⟨hplace, hwait⟩ := System.step_wait h
    obtain ⟨hinv, heff⟩ := waitStep_spec hs hplace hwait
    exact ⟨hinv, _, _, heff⟩
  | monitor =>
    have hm : s.monitorStep = some s' := h
    unfold skippedBy
    cases hplace : s.place with
    | waiting => simp [System.monitorStep, hplace] at hm
    | returned result => simp [System.monitorStep, hplace] at hm
    | handleStop p status =>
      obtain ⟨hinv, heff⟩ := handleStop_spec hs hplace hm
      exact ⟨hinv, _, _, heff⟩
    | checkTrap p status =>
      obtain ⟨hinv, d, heff⟩ := checkTrap_spec hs hplace hm
      exact ⟨hinv, _, _, heff⟩
    | traceChild p status child =>
      simp only [System.monitorStep, hplace, Option.some.injEq] at hm
      subst hm
      obtain ⟨hinv, heff⟩ := traceSyscalls_child hs hplace
      exact ⟨hinv, _, _, heff⟩
    | traceSyscalls p =>
      simp only [System.monitorStep, hplace, Option.some.injEq] at hm
      subst hm
      obtain ⟨hinv, heff⟩ := traceSyscalls_reported hs hplace
      exact ⟨hinv, _, _, heff⟩

/-! ### Runs -/

private theorem syscallsOf_append (l l' : List (Pid × Stop)) : syscallsOf (l ++ l') = syscallsOf l ++ syscallsOf l' :=
  List.filterMap_append

private theorem eq_nil_of_callsOf {l : List (Pid × SyscallInfo)} (h : ∀ pid, callsOf pid l = []) : l = [] := by
  cases l with
  | nil => rfl
  | cons e l =>
    have := h e.1
    simp [callsOf] at this

/-- The histories account for every syscall stop of a tracee. -/
structure Balanced (s : System) : Prop where
  length : ∀ pid, (callsOf pid s.happened).length =
    (callsOf pid s.delivered).length + (callsOf pid (syscallsOf s.skipped)).length + (s.unreported pid).length
  order : ∀ pid, callsOf pid (syscallsOf s.skipped) = [] →
    callsOf pid s.happened = callsOf pid s.delivered ++ s.unreported pid

private theorem Effect.balanced {s s' : System} {h d : List (Pid × SyscallInfo)} {l : List (Pid × Stop)}
    (he : Effect s s' h d l) (hs : Balanced s) : Balanced s' := by
  constructor
  · intro pid
    have h1 := hs.length pid
    have h2 := congrArg List.length (he.balance pid)
    rw [he.happened, he.delivered, he.skipped, syscallsOf_append]
    simp only [callsOf_append, List.length_append] at h2 ⊢
    omega
  · intro pid hnil
    rw [he.skipped, syscallsOf_append, callsOf_append, List.append_eq_nil_iff] at hnil
    have h1 := he.balance pid
    rw [hnil.2, List.append_nil] at h1
    calc callsOf pid s'.happened
        = callsOf pid s.happened ++ callsOf pid h := by rw [he.happened, callsOf_append]
      _ = callsOf pid s.delivered ++ (s.unreported pid ++ callsOf pid h) := by
          rw [hs.order pid hnil.1, List.append_assoc]
      _ = callsOf pid s.delivered ++ (callsOf pid d ++ s'.unreported pid) := by rw [h1]
      _ = callsOf pid s'.delivered ++ s'.unreported pid := by rw [he.delivered, callsOf_append, List.append_assoc]

private theorem Balanced.allDelivered_iff_skipped {s : System} (hs : Balanced s) :
    s.AllDelivered ↔ syscallsOf s.skipped = [] := by
  constructor
  · intro h
    apply eq_nil_of_callsOf
    intro pid
    have h1 := hs.length pid
    have h2 := congrArg List.length (h pid)
    rw [List.length_append] at h2
    apply List.eq_nil_of_length_eq_zero
    omega
  · intro h pid
    apply hs.order pid
    rw [h]
    rfl

/-- When the monitor resumes the new child of a tracee, no report of the child is pending. -/
def ChildReported (s : System) (e : Label) : Prop :=
  match e, s.place with
  | .monitor, .traceChild _ _ child => pendingStop s.tracees child = none
  | _, _ => True

/-- When the monitor resumes the new child of a tracee, no report of a syscall stop of the child is pending. -/
def ChildSyscallReported (s : System) (e : Label) : Prop :=
  match e, s.place with
  | .monitor, .traceChild _ _ child => (pendingStop s.tracees child).bind Stop.info? = none
  | _, _ => True

instance (s : System) (e : Label) : Decidable (ChildReported s e) := by
  unfold ChildReported
  split <;> infer_instance

instance (s : System) (e : Label) : Decidable (ChildSyscallReported s e) := by
  unfold ChildSyscallReported
  split <;> infer_instance

private theorem skippedBy_eq_nil (s : System) (e : Label) : skippedBy s e = [] ↔ ChildReported s e := by
  unfold skippedBy ChildReported
  split
  · cases pendingStop s.tracees _ <;> simp
  · simp

private theorem syscallsOf_skippedBy_eq_nil (s : System) (e : Label) :
    syscallsOf (skippedBy s e) = [] ↔ ChildSyscallReported s e := by
  unfold skippedBy ChildSyscallReported
  split
  · rename_i child _
    rw [syscallsOf_pending]
    cases (pendingStop s.tracees child).bind Stop.info? <;> simp
  · simp [syscallsOf]

private theorem start_inv (main : Pid) : Inv (start main) ∧ Balanced (start main) := by
  refine ⟨⟨trivial, ?_⟩, ?_⟩
  · apply child_ne_update
    · intro pid t child ht
      cases ht
    · intro t child ht hchild
      obtain rfl := Option.some.inj ht
      cases hchild
  · have h : ∀ pid, (start main).unreported pid = [] := by
      intro pid
      apply unreportedOf_of_not_stopped
      intro st b
      show Function.update (fun _ => none) main (some Tracee.running) pid ≠ _
      by_cases hpid : pid = main
      · subst hpid
        simp
      · simp [Function.update_of_ne hpid]
    constructor
    · intro pid
      rw [h]
      rfl
    · intro pid _
      rw [h]
      rfl

/-- In every run all syscall stops reach the listener, and no tracee is resumed at a stop that has not been reported,
exactly when no report of a new child is pending whenever the monitor resumes it after the event of its parent.  For
the delivery of the syscall stops alone the report of another stop may be pending. -/
theorem allDelivered_iff {main : Pid} {es : List Label} {s : System}
    (h : Runs.run (System.step main) (start main) es = some s) :
    (s.AllDelivered ∧ s.skipped = [] ↔ Runs.AllSteps (System.step main) ChildReported (start main) es) ∧
    (s.AllDelivered ↔ Runs.AllSteps (System.step main) ChildSyscallReported (start main) es) := by
  have hinv : ∀ s e s', Inv s ∧ Balanced s → System.step main s e = some s' → Inv s' ∧ Balanced s' := by
    rintro s e s' ⟨hs, hb⟩ hstep
    obtain ⟨hs', _, _, heff⟩ := step_spec hs hstep
    exact ⟨hs', heff.balanced hb⟩
  have hskipped : ∀ s e s', Inv s ∧ Balanced s → System.step main s e = some s' →
      s'.skipped = s.skipped ++ skippedBy s e := by
    rintro s e s' ⟨hs, -⟩ hstep
    obtain ⟨-, _, _, heff⟩ := step_spec hs hstep
    exact heff.skipped
  have hall := Runs.iff_allSteps (G := fun s : System => s.skipped = []) hinv (fun s e s' hs hstep => by
    rw [hskipped s e s' hs hstep, List.append_eq_nil_iff, skippedBy_eq_nil]) (start_inv main) h
  have hcalls := Runs.iff_allSteps (G := fun s : System => syscallsOf s.skipped = []) hinv (fun s e s' hs hstep => by
    rw [hskipped s e s' hs hstep, syscallsOf_append, List.append_eq_nil_iff, syscallsOf_skippedBy_eq_nil])
    (start_inv main) h
  have hend := Runs.invariant hinv (start_inv main) h
  rw [hend.2.allDelivered_iff_skipped]
  constructor
  · constructor
    · rintro ⟨-, hnil⟩
      exact (hall.1 hnil).2
    · intro hsteps
      have hnil := hall.2 ⟨rfl, hsteps⟩
      exact ⟨by rw [hnil]; rfl, hnil⟩
  · constructor
    · intro hnil
      exact (hcalls.1 hnil).2
    · intro hsteps
      exact hcalls.2 ⟨rfl, hsteps⟩

/-! ### Two orders of the same stops -/

def noArgs : SyscallArgs := Vector.replicate 6 0

/-- `clone` of process 1 up to its event stop, with the `SIGSTOP` of its child 2 reported first. -/
def cloneRun : List Label :=
  [.stop 1 (.syscall (.entry 56 noArgs)), .wait 1, .monitor, .monitor, .monitor,
   .spawn 1 .clone 2, .stop 1 (.event .clone 2),
   .stop 2 (.signal Tracee.sigstop), .wait 2, .monitor, .monitor, .monitor]

/-- The event of the parent is handled while the child runs, and then the child enters `openat`. -/
def orderedRun : List Label :=
  cloneRun ++ [.wait 1, .monitor, .monitor, .monitor, .monitor, .stop 2 (.syscall (.entry 257 noArgs)), .wait 2,
    .monitor, .monitor, .monitor]

theorem allDelivered_ordered :
    ∃ s, Runs.run (System.step 1) (start 1) orderedRun = some s ∧ s.AllDelivered ∧ s.skipped = [] :=
  have hrun : Runs.run (System.step 1) (start 1) orderedRun = some _ := rfl
  ⟨_, hrun, (allDelivered_iff hrun).1.2 (by decide)⟩

/-- The child enters `openat` before the event of its parent is handled: the entry is lost. -/
def overtakingRun : List Label := cloneRun ++ [.stop 2 (.syscall (.entry 257 noArgs)), .wait 1, .monitor, .monitor]

theorem not_allDelivered_overtaking :
    ∃ s, Runs.run (System.step 1) (start 1) overtakingRun = some s ∧ ¬ (s.AllDelivered ∧ s.skipped = []) ∧
      callsOf 2 s.happened = [.entry 257 noArgs] ∧ callsOf 2 s.delivered = [] ∧ s.tracees 2 = some .running := by
  refine ⟨_, rfl, ?_, by decide, by decide, by decide⟩
  rintro ⟨-, hnil⟩
  cases hnil

end R4R.SyscallMonitor
