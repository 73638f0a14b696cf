import Mathlib.Data.List.Chain
import R4R.FileTracerHandlers
import R4R.Lib.Interleaving

/-!
# Interleaved processes

What the file tracer does at a stop depends on the answers and on the state under the pid of the stop, and on nothing
that other processes have left behind.  So a run over the stops of several processes is an interleaving of the runs
over the stops of each of them, and what it records is what they record.
-/

namespace R4R.FileTracer

open Interleaving (eventsOf runAll runAlone)

/-- A stop of a process, with the answers of the calls made while it is handled. -/
structure Event where
  pid : Pid
  stop : SyscallInfo
  answers : Answers

def Event.isEntry (e : Event) : Bool :=
  match e.stop with
  | .entry .. => true
  | .exit .. => false

/-- Entries and exits take turns. -/
def Alternates (es : List Event) : Prop := es.IsChain fun e e' => e.isEntry ≠ e'.isEntry

instance (es : List Event) : Decidable (Alternates es) := inferInstanceAs (Decidable (es.IsChain _))

variable (arch : Arch)

/-- The call of the listener at a stop. -/
def onEvent (t : FileTracer) (e : Event) : Except TracerError FileTracer :=
  match e.stop with
  | .entry nr args => t.onSyscallEntry arch e.answers e.pid nr args
  | .exit rval isError => t.onSyscallExit arch e.answers e.pid rval isError

def runFrom (t : FileTracer) (es : List Event) : Except TracerError FileTracer := es.foldlM (onEvent arch) t

def run (es : List Event) : Except TracerError FileTracer := runFrom arch init es

/-- The state that a stop leaves under its pid: that of the entry handler at a handled entry, and none otherwise. -/
def pidStateOf (e : Event) : Option PidState :=
  match e.stop with
  | .exit .. => none
  | .entry nr args =>
    match kHandlers arch nr with
    | none => none
    | some handler =>
      match handler.entry e.answers e.pid args with
      | .error _ => none
      | .ok state => some (toInt nr, state)

/-- The state under a pid after the stops of its process. -/
def pidStateAfter (es : List Event) : Option PidState := es.getLast?.bind (pidStateOf arch)

/-! ### The part of a stop that concerns its process -/

/-- What a stop does with the state under its pid, and what it records. -/
def localStep (s : Option PidState) (e : Event) : Except TracerError (Option PidState × List Record) :=
  match e.stop with
  | .entry nr args =>
    match syscallOf arch nr with
    | none => .ok (s, [])
    | some c => do
      let state ← c.handler.entry e.answers e.pid args
      match s with
      | some _ => .error (.alreadyHandler e.pid)
      | none => .ok (some (toInt nr, state), [])
  | .exit rval isError =>
    match s with
    | none => .ok (none, [])
    | some (syscall, state) =>
      match syscallOf arch syscall.toInt64.toUInt64 with
      | none => .error (.noExitHandler syscall)
      | some c => (exitRecords c e.answers e.pid rval isError state).map fun os => (none, os)

/-- The tracer after a stop whose process has the state `s` then. -/
def advance (t : FileTracer) (e : Event) (s : Option PidState) : FileTracer :=
  { t with
    syscallsCount := if e.isEntry then t.syscallsCount + 1 else t.syscallsCount
    state := Function.update t.state e.pid s }

/-- A stop acts on the tracer through the state of its process only. -/
private theorem onEvent_eq (t : FileTracer) (e : Event) : onEvent arch t e =
    (localStep arch (t.state e.pid) e).map fun r => r.2.foldl record (t.advance e r.1) := by
  obtain ⟨pid, stop, a⟩ := e
  cases stop with
  | entry nr args =>
    simp only [onEvent, localStep, onSyscallEntry, kHandlers]
    cases syscallOf arch nr with
    | none => simp [Except.map, advance, Event.isEntry]
    | some c =>
      simp only [Option.map_some]
      cases c.handler.entry a pid args with
      | error err => rfl
      | ok state =>
        simp only [Except.ok_bind]
        cases t.state pid with
        | none => rfl
        | some s => rfl
  | exit rval isError =>
    simp only [onEvent, localStep, onSyscallExit, kHandlers]
    cases hs : t.state pid with
    | none => simp [Except.map, advance, Event.isEntry, ← hs]
    | some s =>
      dsimp only
      cases syscallOf arch s.1.toInt64.toUInt64 with
      | none => rfl
      | some c =>
        simp only [Option.map_some]
        rw [exit_eq]
        cases exitRecords c a pid rval isError s.2 with
        | error err => rfl
        | ok os => rfl

/-! ### Runs -/

namespace Record

def fileKey : Record → Option (List (List Char))
  | file info => some info.path.parts
  | symlink .. => none

def symlinkKey : Record → Option (List (List Char))
  | file _ => none
  | symlink path _ => some path.parts

end Record

/-- The keys of `t'` are those of `t` and those of the records. -/
structure Recorded (t t' : FileTracer) (os : List Record) : Prop where
  files : ∀ k, k ∈ t'.files.keys ↔ k ∈ t.files.keys ∨ ∃ o ∈ os, o.fileKey = some k
  symlinks : ∀ k, k ∈ t'.symlinks.keys ↔ k ∈ t.symlinks.keys ∨ ∃ o ∈ os, o.symlinkKey = some k

private theorem recorded_record (t : FileTracer) (o : Record) : Recorded t (t.record o) [o] := by
  cases o with
  | file info =>
    constructor
    · intro k
      simp [record, Record.fileKey, eq_comm]
    · intro k
      simp [record, Record.symlinkKey]
  | symlink path target =>
    constructor
    · intro k
      simp [record, Record.fileKey]
    · intro k
      simp [record, Record.symlinkKey, eq_comm]

private theorem Recorded.trans {t t' t'' : FileTracer} {os os' : List Record} (h : Recorded t t' os)
    (h' : Recorded t' t'' os') : Recorded t t'' (os ++ os') := by
  constructor
  · intro k
    rw [h'.files, h.files]
    simp [or_and_right, exists_or, or_assoc]
  · intro k
    rw [h'.symlinks, h.symlinks]
    simp [or_and_right, exists_or, or_assoc]

private theorem foldl_record_spec (os : List Record) : ∀ t : FileTracer,
    (os.foldl record t).state = t.state ∧ Recorded t (os.foldl record t) os := by
  induction os with
  | nil =>
    intro t
    exact ⟨rfl, ⟨by simp, by simp⟩⟩
  | cons o os ih =>
    intro t
    obtain ⟨hstate, hrec⟩ := ih (t.record o)
    refine ⟨hstate.trans ?_, (recorded_record t o).trans hrec⟩
    cases o <;> rfl

/-- A run of the tracer is the interleaving of its processes. -/
private theorem runFrom_spec (es : List Event) : ∀ t : FileTracer,
    (∀ x, runAll Event.pid (localStep arch) t.state es = .error x → runFrom arch t es = .error x) ∧
    ∀ s os, runAll Event.pid (localStep arch) t.state es = .ok (s, os) →
      ∃ t', runFrom arch t es = .ok t' ∧ t'.state = s ∧ Recorded t t' os := by
  induction es with
  | nil =>
    intro t
    constructor
    · intro x h
      cases h
    · intro s os h
      cases h
      exact ⟨t, rfl, rfl, ⟨by simp, by simp⟩⟩
  | cons e es ih =>
    intro t
    have hrun : runFrom arch t (e :: es) = (onEvent arch t e >>= fun t' => runFrom arch t' es) := rfl
    rw [hrun, onEvent_eq]
    unfold runAll
    cases hlocal : localStep arch (t.state e.pid) e with
    | error y =>
      constructor
      · intro x h
        cases h
        rfl
      · intro s os h
        cases h
    | ok r =>
      obtain ⟨hstate, hrec⟩ := foldl_record_spec r.2 (t.advance e r.1)
      have hadv : Recorded t (r.2.foldl record (t.advance e r.1)) r.2 := ⟨hrec.files, hrec.symlinks⟩
      obtain ⟨herr, hok⟩ := ih (r.2.foldl record (t.advance e r.1))
      -- what is recorded does not touch the states of the pids
      have hstate' : (r.2.foldl record (t.advance e r.1)).state = Function.update t.state e.pid r.1 := hstate
      rw [hstate'] at herr hok
      dsimp only [Except.map, Except.ok_bind]
      constructor
      · intro x h
        apply herr
        cases hrest : runAll Event.pid (localStep arch) (Function.update t.state e.pid r.1) es with
        | error y =>
          rw [hrest] at h
          cases h
          rfl
        | ok r' =>
          rw [hrest] at h
          cases h
      · intro s os h
        cases hrest : runAll Event.pid (localStep arch) (Function.update t.state e.pid r.1) es with
        | error y =>
          rw [hrest] at h
          cases h
        | ok r' =>
          rw [hrest] at h
          cases h
          obtain ⟨t', hrun', hs', hrec'⟩ := hok r'.1 r'.2 hrest
          exact ⟨t', hrun', hs', hadv.trans hrec'⟩

private theorem run_error_iff {es : List Event} {x : TracerError} :
    run arch es = .error x ↔ runAll Event.pid (localStep arch) (fun _ => none) es = .error x := by
  obtain ⟨herr, hok⟩ := runFrom_spec arch es init
  constructor
  · intro h
    cases hall : runAll Event.pid (localStep arch) (fun _ => none) es with
    | error y =>
      have h' : runFrom arch init es = .error x := h
      rw [herr y hall] at h'
      cases h'
      rfl
    | ok r =>
      obtain ⟨t', hrun, -, -⟩ := hok r.1 r.2 hall
      have h' : runFrom arch init es = .error x := h
      rw [hrun] at h'
      cases h'
  · exact herr x

private theorem run_ok {es : List Event} {t : FileTracer} (h : run arch es = .ok t) :
    ∃ os, runAll Event.pid (localStep arch) (fun _ => none) es = .ok (t.state, os) ∧ Recorded init t os := by
  obtain ⟨herr, hok⟩ := runFrom_spec arch es init
  have h' : runFrom arch init es = .ok t := h
  cases hall : runAll Event.pid (localStep arch) (fun _ => none) es with
  | error y =>
    rw [herr y hall] at h'
    cases h'
  | ok r =>
    obtain ⟨t', hrun, hs, hrec⟩ := hok r.1 r.2 hall
    rw [hrun] at h'
    cases h'
    exact ⟨r.2, by rw [hs], hrec⟩

/-! ### One process -/

/-- The state that a handled entry leaves has a handler for the exit. -/
private theorem syscallOf_of_pidStateOf {e : Event} {n : Int32} {state : SyscallState}
    (h : pidStateOf arch e = some (n, state)) : ∃ c, syscallOf arch n.toInt64.toUInt64 = some c := by
  unfold pidStateOf at h
  split at h
  · cases h
  · rename_i nr args _
    split at h
    · cases h
    · rename_i handler hk
      obtain ⟨c, hc, -⟩ := exists_of_kHandlers hk
      split at h
      · cases h
      · cases h
        exact ⟨c, by rw [toInt_of_syscallOf hc, hc]⟩

/-- A stop that takes its turn leaves its own state and throws no exception about the states of the pids. -/
private theorem localStep_spec {s : Option PidState} {e : Event}
    (hs : s = none ∨ e.isEntry = false ∧ ∃ e₀, s = pidStateOf arch e₀) :
    NoBookkeeping (localStep arch s e) ∧ ∀ r, localStep arch s e = .ok r → r.1 = pidStateOf arch e := by
  obtain ⟨pid, stop, a⟩ := e
  cases stop with
  | entry nr args =>
    obtain rfl : s = none := by
      rcases hs with hs | ⟨hentry, -⟩
      · exact hs
      · cases hentry
    simp only [localStep, pidStateOf, kHandlers]
    cases syscallOf arch nr with
    | none =>
      refine ⟨.ok _, ?_⟩
      intro r hr
      cases hr
      rfl
    | some c =>
      refine ⟨(noBookkeeping_entry c a pid args).bind fun state => .ok _, ?_⟩
      intro r hr
      obtain ⟨state, hstate, hr⟩ := Except.bind_eq_ok hr
      cases hr
      simp only [Option.map_some, hstate]
  | exit rval isError =>
    simp only [localStep, pidStateOf]
    cases s with
    | none =>
      refine ⟨.ok _, ?_⟩
      intro r hr
      cases hr
      rfl
    | some s =>
      obtain ⟨n, state⟩ := s
      obtain ⟨-, e₀, he₀⟩ := hs.resolve_left (by simp)
      obtain ⟨c, hc⟩ := syscallOf_of_pidStateOf arch he₀.symm
      simp only [hc]
      have hexit := noBookkeeping_exitRecords c a pid rval isError state
      cases hrec : exitRecords c a pid rval isError state with
      | error err =>
        constructor
        · intro x hx
          cases hx
          exact hexit _ hrec
        · intro r hr
          cases hr
      | ok os =>
        refine ⟨.ok _, ?_⟩
        intro r hr
        cases hr
        rfl

/-- A process alone: after each of its stops the state is the one that this stop left. -/
private theorem runAlone_spec {es : List Event} (halt : Alternates es) :
    NoBookkeeping (runAlone (localStep arch) none es) ∧
    ∀ r, runAlone (localStep arch) none es = .ok r → r.1 = pidStateAfter arch es := by
  -- from the end of the run, since the state is the one that the last stop left
  induction es using List.reverseRecOn with
  | nil =>
    refine ⟨.ok _, ?_⟩
    intro r hr
    cases hr
    rfl
  | append_singleton es e ih =>
    obtain ⟨halt, -, hturn⟩ := List.isChain_append.1 halt
    obtain ⟨hbook, hstate⟩ := ih halt
    rw [Interleaving.runAlone_concat]
    have hlocal : ∀ r, runAlone (localStep arch) none es = .ok r →
        NoBookkeeping (localStep arch r.1 e) ∧ ∀ r', localStep arch r.1 e = .ok r' → r'.1 = pidStateOf arch e := by
      intro r hr
      apply localStep_spec
      rw [hstate r hr]
      unfold pidStateAfter
      cases hlast : es.getLast? with
      | none => exact .inl rfl
      | some e₀ =>
        have hne : e₀.isEntry ≠ e.isEntry := hturn e₀ hlast e (by simp)
        cases he : e.isEntry with
        | false => exact .inr ⟨rfl, e₀, rfl⟩
        | true =>
          -- the stop before an entry is an exit
          left
          obtain ⟨pid, stop, a⟩ := e₀
          cases stop with
          | entry nr args => exact absurd he.symm hne
          | exit rval isError => rfl
    constructor
    · intro x hx
      cases hes : runAlone (localStep arch) none es with
      | error y =>
        rw [hes] at hx
        cases hx
        exact hbook _ hes
      | ok r =>
        rw [hes, Except.ok_bind] at hx
        exact (hlocal r hes).1.bind (fun r' => .ok _) x hx
    · intro r hr
      obtain ⟨r₁, h₁, hr⟩ := Except.bind_eq_ok hr
      obtain ⟨r₂, h₂, hr⟩ := Except.bind_eq_ok hr
      cases hr
      have hlast : pidStateAfter arch (es ++ [e]) = pidStateOf arch e := by simp [pidStateAfter]
      rw [hlast]
      exact (hlocal r₁ h₁).2 r₂ h₂

/-- A stop that leaves a state if its handler returns. -/
def Event.IsHandledEntry (e : Event) : Prop := ∃ nr args, e.stop = .entry nr args ∧ (kHandlers arch nr).isSome = true

/-- The process is between a handled entry and its exit. -/
def InHandledCall (es : List Event) : Prop := ∃ e, es.getLast? = some e ∧ e.IsHandledEntry arch

private theorem isHandledEntry_of_pidStateOf {e : Event} (h : (pidStateOf arch e).isSome = true) :
    e.IsHandledEntry arch := by
  unfold pidStateOf at h
  split at h
  · cases h
  · rename_i nr args hstop
    refine ⟨nr, args, hstop, ?_⟩
    split at h
    · cases h
    · rename_i handler hhandler
      rw [hhandler]
      rfl

private theorem isSome_of_localStep {s : Option PidState} {e : Event} {r : Option PidState × List Record}
    (he : e.IsHandledEntry arch) (h : localStep arch s e = .ok r) : r.1.isSome = true := by
  obtain ⟨nr, args, hstop, hhandler⟩ := he
  obtain ⟨handler, hk⟩ := Option.isSome_iff_exists.1 hhandler
  obtain ⟨c, hc, -⟩ := exists_of_kHandlers hk
  unfold localStep at h
  rw [hstop] at h
  simp only [hc] at h
  obtain ⟨state, -, h⟩ := Except.bind_eq_ok h
  cases s with
  | none =>
    cases h
    rfl
  | some s => cases h

private theorem isSome_runAlone_iff {es : List Event} (halt : Alternates es) {r : Option PidState × List Record}
    (h : runAlone (localStep arch) none es = .ok r) : r.1.isSome = true ↔ InHandledCall arch es := by
  constructor
  · intro hs
    rw [(runAlone_spec arch halt).2 r h] at hs
    unfold pidStateAfter at hs
    cases hlast : es.getLast? with
    | none => simp [hlast] at hs
    | some e =>
      rw [hlast] at hs
      exact ⟨e, hlast, isHandledEntry_of_pidStateOf arch hs⟩
  · rintro ⟨e, hlast, he⟩
    obtain ⟨es', rfl⟩ := List.getLast?_eq_some_iff.1 hlast
    rw [Interleaving.runAlone_concat] at h
    obtain ⟨r₁, -, h⟩ := Except.bind_eq_ok h
    obtain ⟨r₂, h₂, h⟩ := Except.bind_eq_ok h
    cases h
    show r₂.1.isSome = true
    exact isSome_of_localStep arch he h₂

/-! ### All processes -/

/-- The run of a process alone. -/
private theorem run_eventsOf (es : List Event) (pid : Pid) : runAll Event.pid (localStep arch) (fun _ => none)
    (eventsOf Event.pid pid es) = (runAlone (localStep arch) none (eventsOf Event.pid pid es)).map fun r =>
      (Function.update (fun _ => none) pid r.1, r.2) :=
  Interleaving.runAll_of_owner (fun _ he => Interleaving.owner_of_mem_eventsOf he) _

/-- The keys of a tracer are those of the records. -/
structure KeysOf (t : FileTracer) (P : Record → Prop) : Prop where
  files : ∀ k, k ∈ t.files.keys ↔ ∃ o, P o ∧ o.fileKey = some k
  symlinks : ∀ k, k ∈ t.symlinks.keys ↔ ∃ o, P o ∧ o.symlinkKey = some k

private theorem Recorded.keysOf {t : FileTracer} {os : List Record} (h : Recorded init t os) : KeysOf t (· ∈ os) := by
  constructor
  · intro k
    rw [h.files]
    simp [init]
  · intro k
    rw [h.symlinks]
    simp [init]

private theorem run_eventsOf_ok {es : List Event} {pid : Pid} {r : Option PidState × List Record}
    (h : runAlone (localStep arch) none (eventsOf Event.pid pid es) = .ok r) :
    ∃ t, run arch (eventsOf Event.pid pid es) = .ok t ∧ KeysOf t (· ∈ r.2) := by
  have hall := run_eventsOf arch es pid
  rw [h] at hall
  obtain ⟨t, hrun, -, hrec⟩ := (runFrom_spec arch (eventsOf Event.pid pid es) init).2 _ _ hall
  exact ⟨t, hrun, hrec.keysOf⟩

private theorem run_eventsOf_error {es : List Event} {x : TracerError} (h : run arch es = .error x) :
    ∃ pid, runAlone (localStep arch) none (eventsOf Event.pid pid es) = .error x ∧
      run arch (eventsOf Event.pid pid es) = .error x := by
  obtain ⟨pid, halone⟩ := Interleaving.runAll_error ((run_error_iff arch).1 h)
  refine ⟨pid, halone, (run_error_iff arch).2 ?_⟩
  rw [run_eventsOf, halone]
  rfl

/-- Each process alone, as part of a run of all of them. -/
private theorem run_ok_alone {es : List Event} {t : FileTracer} (h : run arch es = .ok t) : ∃ f : Pid → List Record,
    (∀ pid, runAlone (localStep arch) none (eventsOf Event.pid pid es) = .ok (t.state pid, f pid)) ∧
    KeysOf t fun o => ∃ pid, o ∈ f pid := by
  obtain ⟨os, hall, hrec⟩ := run_ok arch h
  obtain ⟨f, halone, hmem⟩ := Interleaving.runAll_ok hall
  refine ⟨f, halone, ?_⟩
  have hos : (fun o => ∃ pid, o ∈ f pid) = (· ∈ os) := by
    funext o
    rw [hmem]
  rw [hos]
  exact hrec.keysOf

/-- At an exit after a handled entry the exit handler of that syscall gets the state of the entry handler. -/
private theorem onEvent_of_pidStateOf {t : FileTracer} {e e₀ : Event} {nr : UInt64} {args : SyscallArgs}
    {handler : SyscallHandler} {rval : SyscallRet} {isError : Bool} (hstate : t.state e.pid = pidStateOf arch e₀)
    (hsome : (t.state e.pid).isSome = true) (hpid : e₀.pid = e.pid) (hentry : e₀.stop = .entry nr args)
    (hhandler : kHandlers arch nr = some handler) (hexit : e.stop = .exit rval isError) :
    ∃ state, handler.entry e₀.answers e.pid args = .ok state ∧
      onEvent arch t e = handler.exit { t with state := Function.update t.state e.pid none } e.answers e.pid rval
        isError state := by
  have hof : pidStateOf arch e₀ = match handler.entry e₀.answers e.pid args with
      | .error _ => none
      | .ok state => some (toInt nr, state) := by
    unfold pidStateOf
    rw [hentry]
    dsimp only
    rw [hhandler, ← hpid]
  cases hr : handler.entry e₀.answers e.pid args with
  | error x =>
    rw [hstate, hof, hr] at hsome
    cases hsome
  | ok state =>
    refine ⟨state, rfl, ?_⟩
    have ht : t.state e.pid = some (toInt nr, state) := by rw [hstate, hof, hr]
    obtain ⟨c, hc, rfl⟩ := exists_of_kHandlers hhandler
    unfold onEvent
    rw [hexit]
    exact onSyscallExit_of_some ht (by rw [toInt_of_syscallOf hc, hc])

private theorem onEvent_of_state_none {t : FileTracer} {e : Event} {rval : SyscallRet} {isError : Bool}
    (hstate : t.state e.pid = none) (hexit : e.stop = .exit rval isError) : onEvent arch t e = .ok t := by
  unfold onEvent
  rw [hexit]
  exact onSyscallExit_of_none hstate

/-- The exit stops of a run: after a handled entry of the same process the exit handler of that syscall gets the state
of its entry handler, and after any other stop no handler runs. -/
def ExitsMatched (es : List Event) : Prop :=
  ∀ es₁ e es₂ rval isError t, es = es₁ ++ e :: es₂ → e.stop = .exit rval isError → run arch es₁ = .ok t →
    (∀ e₀ nr args handler, (eventsOf Event.pid e.pid es₁).getLast? = some e₀ → e₀.stop = .entry nr args →
      kHandlers arch nr = some handler → ∃ state, handler.entry e₀.answers e.pid args = .ok state ∧
        onEvent arch t e = handler.exit { t with state := Function.update t.state e.pid none } e.answers e.pid rval
          isError state) ∧
    (¬ InHandledCall arch (eventsOf Event.pid e.pid es₁) → onEvent arch t e = .ok t)

private theorem exitsMatched {es : List Event} (halt : ∀ pid, Alternates (eventsOf Event.pid pid es)) :
    ExitsMatched arch es := by
  intro es₁ e es₂ rval isError t hes hexit hrun
  obtain ⟨f, halone, -⟩ := run_ok_alone arch hrun
  have halt₁ : Alternates (eventsOf Event.pid e.pid es₁) := by
    have h := halt e.pid
    rw [hes, Interleaving.eventsOf_append] at h
    exact (List.isChain_append.1 h).1
  have hstate : t.state e.pid = pidStateAfter arch (eventsOf Event.pid e.pid es₁) :=
    (runAlone_spec arch halt₁).2 _ (halone e.pid)
  have hsome := isSome_runAlone_iff arch halt₁ (halone e.pid)
  constructor
  · intro e₀ nr args handler hlast hentry hhandler
    have hpid : e₀.pid = e.pid := Interleaving.owner_of_mem_eventsOf (List.mem_of_getLast? hlast)
    apply onEvent_of_pidStateOf arch _ _ hpid hentry hhandler hexit
    · rw [hstate]
      unfold pidStateAfter
      rw [hlast]
      rfl
    · exact hsome.2 ⟨e₀, hlast, nr, args, hentry, by rw [hhandler]; rfl⟩
  · intro hcall
    apply onEvent_of_state_none arch _ hexit
    cases hs : t.state e.pid with
    | none => rfl
    | some s => exact absurd (hsome.1 (by rw [hs]; rfl)) hcall

/-- A run goes through exactly if each process alone goes through. -/
private theorem run_ok_iff (es : List Event) :
    (∃ t, run arch es = .ok t) ↔ ∀ pid, ∃ t, run arch (eventsOf Event.pid pid es) = .ok t := by
  constructor
  · rintro ⟨t, ht⟩ pid
    obtain ⟨f, halone, -⟩ := run_ok_alone arch ht
    obtain ⟨t', ht', -⟩ := run_eventsOf_ok arch (halone pid)
    exact ⟨t', ht'⟩
  · intro hall
    cases h : run arch es with
    | ok t => exact ⟨t, rfl⟩
    | error x =>
      obtain ⟨pid, -, hpid⟩ := run_eventsOf_error arch h
      obtain ⟨t, ht⟩ := hall pid
      rw [hpid] at ht
      cases ht

/-- What a run records under a key, one of its processes records alone. -/
private theorem exists_key_iff {es : List Event} {f : Pid → List Record} {s : Pid → Option PidState}
    {key : Record → Option (List (List Char))} {keys : FileTracer → List (List (List Char))}
    (hkeys : ∀ t P, KeysOf t P → ∀ k, k ∈ keys t ↔ ∃ o, P o ∧ key o = some k)
    (halone : ∀ pid, runAlone (localStep arch) none (eventsOf Event.pid pid es) = .ok (s pid, f pid))
    {t : FileTracer} (ht : KeysOf t fun o => ∃ pid, o ∈ f pid) (k : List (List Char)) :
    k ∈ keys t ↔ ∃ pid t', run arch (eventsOf Event.pid pid es) = .ok t' ∧ k ∈ keys t' := by
  rw [hkeys t _ ht]
  constructor
  · rintro ⟨o, ⟨pid, ho⟩, hk⟩
    obtain ⟨t', ht', hkeys'⟩ := run_eventsOf_ok arch (halone pid)
    exact ⟨pid, t', ht', (hkeys t' _ hkeys' k).2 ⟨o, ho, hk⟩⟩
  · rintro ⟨pid, t', ht', hk⟩
    obtain ⟨t'', ht'', hkeys'⟩ := run_eventsOf_ok arch (halone pid)
    obtain rfl : t' = t'' := Except.ok.inj (ht'.symm.trans ht'')
    obtain ⟨o, ho, hok⟩ := (hkeys t' _ hkeys' k).1 hk
    exact ⟨o, ⟨pid, ho⟩, hok⟩

/-- The stops of several processes, each an alternation of entries and exits, in any interleaving: no exception about
the states of the pids, every exit handler gets the state of its entry, a state is kept exactly between a handled entry
and its exit, and the files and symbolic links are those that the processes alone would record. -/
theorem run_interleaving (es : List Event) (halt : ∀ pid, Alternates (eventsOf Event.pid pid es)) :
    NoBookkeeping (run arch es) ∧ ExitsMatched arch es ∧
    ((∃ t, run arch es = .ok t) ↔ ∀ pid, ∃ t, run arch (eventsOf Event.pid pid es) = .ok t) ∧
    ∀ t, run arch es = .ok t →
      (∀ pid, (t.state pid).isSome = true ↔ InHandledCall arch (eventsOf Event.pid pid es)) ∧
      (∀ k, k ∈ t.files.keys ↔ ∃ pid t', run arch (eventsOf Event.pid pid es) = .ok t' ∧ k ∈ t'.files.keys) ∧
      ∀ k, k ∈ t.symlinks.keys ↔
        ∃ pid t', run arch (eventsOf Event.pid pid es) = .ok t' ∧ k ∈ t'.symlinks.keys := by
  refine ⟨?_, exitsMatched arch halt, run_ok_iff arch es, ?_⟩
  · intro x hx
    obtain ⟨pid, halone, -⟩ := run_eventsOf_error arch hx
    exact (runAlone_spec arch (halt pid)).1 x halone
  · intro t ht
    obtain ⟨f, halone, hkeys⟩ := run_ok_alone arch ht
    refine ⟨fun pid => isSome_runAlone_iff arch (halt pid) (halone pid), ?_, ?_⟩
    · exact exists_key_iff arch (fun t P h => h.files) halone hkeys
    · exact exists_key_iff arch (fun t P h => h.symlinks) halone hkeys

/-- A process opens a file while another one is in `getpid`. -/
def twoProcesses : List Event :=
  [⟨2, .entry 257 noArgs, oneFile⟩, ⟨3, .entry 39 noArgs, oneFile⟩, ⟨2, .exit 5 false, oneFile⟩,
    ⟨3, .exit 3 false, oneFile⟩]

theorem run_interleaving_two : NoBookkeeping (run .x86_64 twoProcesses) ∧ ExitsMatched .x86_64 twoProcesses ∧
    ((∃ t, run .x86_64 twoProcesses = .ok t) ↔
      ∀ pid, ∃ t, run .x86_64 (eventsOf Event.pid pid twoProcesses) = .ok t) := by
  have halt : ∀ pid, Alternates (eventsOf Event.pid pid twoProcesses) := by
    intro pid
    by_cases h2 : pid = 2
    · subst h2
      decide
    · by_cases h3 : pid = 3
      · subst h3
        decide
      · simp [Interleaving.eventsOf, twoProcesses, Ne.symm h2, Ne.symm h3, Alternates]
  have h := run_interleaving .x86_64 twoProcesses halt
  exact ⟨h.1, h.2.1, h.2.2.1⟩

example : (run .x86_64 twoProcesses).map (fun t => t.files.keys) = .ok [[['/'], "tmp".toList, "out".toList]] := by
  rfl

end R4R.FileTracer
