import R4R.ExistedBefore

/-!
# Files that existed before, over runs

A file that is there existed before, is recorded or ignored, or the call that created it has not come to its exit stop.
So a call takes a new file for an old one only if it finds the file in that interval, and the record of the tracer goes
wrong only if the exit stop of such a call is the first to register the file.
-/

namespace R4R.ExistedBefore

open FileTracer

variable (arch : Arch) (initial : Name → FileType) (ignored : Name → Bool)

/-! ### The handlers in this system -/

private theorem fileArg_eq_none_iff {args : SyscallArgs} {c : Syscall} :
    fileArg args c = none ↔ isFileCall c = false := by
  cases c <;> simp [fileArg, isFileCall]

/-- The state of a call about a file: none if the file is ignored. -/
def stateOfCall (path : Path) (existed : Bool) : SyscallState :=
  if ignored path.parts then .monostate else .fileInfo ⟨path, none, existed⟩

private theorem resolvePathAt_eq {a : Answers} {pid : Pid} {dirfd : Int32} {p path : Path} {b : Bool}
    (h : a.absolutePathAt pid dirfd p = .ok (some path)) (hb : a.ignore path = .ok b) :
    a.resolvePathAt pid dirfd p = .ok (if b then none else some path) := by
  unfold Answers.resolvePathAt
  rw [h, Except.ok_bind]
  dsimp only
  rw [hb]
  rfl

variable {ignored}

private theorem genericOpenEntry_eq {s : System} {a : Answers} {pid : Pid} {dirfd : Int32} {p path : Path}
    (h : (s.answers ignored a).absolutePathAt pid dirfd p = .ok (some path)) :
    genericOpenEntry (s.answers ignored a) pid dirfd p =
      .ok (stateOfCall ignored path (s.fileType path.parts != .notFound)) := by
  unfold genericOpenEntry stateOfCall
  rw [resolvePathAt_eq h rfl, Except.ok_bind]
  cases ignored path.parts <;> rfl

private theorem genericReadlinkEntry_eq {s : System} {a : Answers} {pid : Pid} {dirfd : Int32} {p path : Path}
    (h : (s.answers ignored a).absolutePathAt pid dirfd p = .ok (some path)) :
    genericReadlinkEntry (s.answers ignored a) pid dirfd p = .ok (stateOfCall ignored path false) := by
  unfold genericReadlinkEntry stateOfCall
  rw [resolvePathAt_eq h rfl, Except.ok_bind]
  cases ignored path.parts <;> rfl

/-- What the file of a call is. -/
private theorem targetOf_eq_some {a : Answers} {pid : Pid} {nr : UInt64} {args : SyscallArgs} {c : Syscall}
    {path : Path} (h : targetOf arch a pid nr args = some (some (c, path))) : syscallOf arch nr = some c ∧
      ∃ dirfd addr p, fileArg args c = some (dirfd, addr) ∧ orThrow (a.readString pid addr) = .ok p ∧
        a.absolutePathAt pid dirfd p = .ok (some path) ∧ path.isAbsolute = true := by
  unfold targetOf at h
  cases hc : syscallOf arch nr with
  | none => simp [hc] at h
  | some c' =>
    simp only [hc] at h
    cases harg : fileArg args c' with
    | none => simp [harg] at h
    | some arg =>
      obtain ⟨dirfd, addr⟩ := arg
      simp only [harg] at h
      split at h
      · rename_i q hq
        obtain ⟨p, hp, hq⟩ := Except.bind_eq_ok hq
        split at h
        · rename_i habs
          obtain ⟨rfl, rfl⟩ : c' = c ∧ q = path := by simpa using h
          exact ⟨rfl, dirfd, addr, p, harg, hp, hq, habs⟩
        · cases h
      · cases h

/-- The entry handler reads the path and takes it for one to open or, for `execve`, for one to run. -/
private theorem entry_of_fileArg {args : SyscallArgs} {c : Syscall} {dirfd : Int32} {addr : UInt64} {a : Answers}
    {pid : Pid}
    (h : fileArg args c = some (dirfd, addr)) : c.handler.entry a pid args = (orThrow (a.readString pid addr) >>=
      if c = .execve then genericReadlinkEntry a pid dirfd else genericOpenEntry a pid dirfd) := by
  cases c with
  | readlink => cases h
  | readlinkat => cases h
  | «open» => cases h; rfl
  | openat => cases h; rfl
  | newfstatat => cases h; rfl
  | execve => cases h; rfl

/-- The entry handler of a call about a file keeps the path and whether the file exists. -/
private theorem entry_of_target {s : System} {a : Answers} {pid : Pid} {nr : UInt64} {args : SyscallArgs} {c : Syscall}
    {path : Path} (h : targetOf arch (s.answers ignored a) pid nr args = some (some (c, path))) :
    syscallOf arch nr = some c ∧ isFileCall c = true ∧ path.isAbsolute = true ∧
      c.handler.entry (s.answers ignored a) pid args =
        .ok (stateOfCall ignored path (c != .execve && s.fileType path.parts != .notFound)) := by
  obtain ⟨hc, dirfd, addr, p, harg, hp, hpath, habs⟩ := targetOf_eq_some arch h
  have hfile : isFileCall c = true := by
    by_contra hf
    rw [fileArg_eq_none_iff.2 (by simpa using hf)] at harg
    cases harg
  refine ⟨hc, hfile, habs, ?_⟩
  rw [entry_of_fileArg harg, hp, Except.ok_bind]
  by_cases hexec : c = .execve
  · rw [if_pos hexec, genericReadlinkEntry_eq hpath]
    simp [hexec]
  · have hne : (c != .execve) = true := by simpa using hexec
    rw [if_neg hexec, genericOpenEntry_eq hpath, hne, Bool.true_and]

private theorem not_isFileCall_of_target {a : Answers} {pid : Pid} {nr : UInt64} {args : SyscallArgs} {c : Syscall}
    (h : targetOf arch a pid nr args = some none) (hc : syscallOf arch nr = some c) : isFileCall c = false := by
  unfold targetOf at h
  simp only [hc] at h
  cases harg : fileArg args c with
  | none => exact fileArg_eq_none_iff.1 harg
  | some arg =>
    simp only [harg] at h
    split at h
    · split at h
      · cases h
      · cases h
    · cases h

/-! ### The invariant -/

/-- The file existed before, or it is recorded. -/
def System.Known (s : System) (k : Name) : Prop := initial k ≠ .notFound ∨ k ∈ s.tracer.files.keys

variable (ignored)

/-- What the tracer holds for a call about a file.  If it has found the file, then the file is known, or it has found it
early. -/
structure FileCallInv (s : System) (pid : Pid) (c : Syscall) (path : Path) (early : Bool) : Prop where
  absolute : path.isAbsolute = true
  fileCall : isFileCall c = true
  state : ∃ n existed, syscallOf arch n.toInt64.toUInt64 = some c ∧
    s.tracer.state pid = some (n, stateOfCall ignored path existed) ∧
    (existed = true → ignored path.parts = true ∨ s.Known initial path.parts ∨ early = true) ∧
    (early = true → c = .execve ∨ existed = true)

structure CallInv (s : System) (pid : Pid) (call : Call) : Prop where
  file : ∀ c path, call.target = some (c, path) → FileCallInv arch initial ignored s pid c path call.early
  other : call.target = none → ∀ n state, s.tracer.state pid = some (n, state) →
    ∃ c, syscallOf arch n.toInt64.toUInt64 = some c ∧ isFileCall c = false
  made : ∀ c path ret, call.target = some (c, path) → call.phase = .done ret true →
    (c = .open ∨ c = .openat) ∧ 0 ≤ ret ∧ s.fileType path.parts = .regular
  executed : ∀ path ret made, call.target = some (.execve, path) → call.phase = .done ret made →
    ignored path.parts = true ∨ s.Known initial path.parts ∨ call.early = true

structure Inv (s : System) : Prop where
  /-- a file that is there is known, or its creating call is under way -/
  cover : ∀ k, s.fileType k ≠ .notFound → ignored k = true ∨ s.Known initial k ∨ s.fresh k = true
  fresh : ∀ k, s.fresh k = true → s.fileType k ≠ .notFound
  idle : ∀ pid, s.calls pid = none → s.tracer.state pid = none
  call : ∀ pid call, s.calls pid = some call → CallInv arch initial ignored s pid call

variable {arch initial ignored}

private theorem System.Known.mono {s s' : System} {k : Name} (h : s.Known initial k)
    (hkeys : ∀ k, k ∈ s.tracer.files.keys → k ∈ s'.tracer.files.keys) : s'.Known initial k := h.imp id (hkeys k)

/-- Steps of other processes keep what the tracer holds for a call. -/
private theorem FileCallInv.mono {s s' : System} {pid : Pid} {c : Syscall} {path : Path} {early : Bool}
    (h : FileCallInv arch initial ignored s pid c path early) (hstate : s'.tracer.state pid = s.tracer.state pid)
    (hkeys : ∀ k, k ∈ s.tracer.files.keys → k ∈ s'.tracer.files.keys) :
    FileCallInv arch initial ignored s' pid c path early := by
  obtain ⟨n, existed, hc, hst, hex, hearly⟩ := h.state
  refine ⟨h.absolute, h.fileCall, n, existed, hc, by rw [hstate, hst], ?_, hearly⟩
  intro he
  exact (hex he).imp id (Or.imp (·.mono hkeys) id)

private theorem CallInv.mono {s s' : System} {pid : Pid} {call : Call} (h : CallInv arch initial ignored s pid call)
    (hstate : s'.tracer.state pid = s.tracer.state pid)
    (hkeys : ∀ k, k ∈ s.tracer.files.keys → k ∈ s'.tracer.files.keys)
    (htype : ∀ k, s.fileType k = .regular → s'.fileType k = .regular) :
    CallInv arch initial ignored s' pid call := by
  constructor
  · intro c path ht
    exact (h.file c path ht).mono hstate hkeys
  · intro ht n state hst
    exact h.other ht n state (by rw [← hstate, hst])
  · intro c path ret ht hp
    obtain ⟨hc, hret, hreg⟩ := h.made c path ret ht hp
    exact ⟨hc, hret, htype _ hreg⟩
  · intro path ret made ht hp
    exact (h.executed path ret made ht hp).imp id (Or.imp (·.mono hkeys) id)

private theorem inv_start : Inv arch initial ignored (start initial) := by
  constructor
  · intro k hk
    exact .inr (.inl (.inl hk))
  · intro k hk
    cases hk
  · intro pid _
    rfl
  · intro pid call hcall
    cases hcall

/-! ### One lemma for each step -/

/-- A step of the kernel in the call of one process. -/
private theorem Inv.of_call {s s' : System} (hs : Inv arch initial ignored s) (pid : Pid) (call call' : Call)
    (hcall : s.calls pid = some call) (htracer : s'.tracer = s.tracer)
    (hcalls : s'.calls = Function.update s.calls pid (some call'))
    (htype : ∀ k, s.fileType k = .regular → s'.fileType k = .regular)
    (hcover : ∀ k, s'.fileType k ≠ .notFound → ignored k = true ∨ s'.Known initial k ∨ s'.fresh k = true)
    (hfresh : ∀ k, s'.fresh k = true → s'.fileType k ≠ .notFound)
    (hnew : CallInv arch initial ignored s' pid call') : Inv arch initial ignored s' := by
  constructor
  · exact hcover
  · exact hfresh
  · intro q hq
    rw [hcalls] at hq
    rw [htracer]
    by_cases hqp : q = pid
    · subst hqp
      simp at hq
    · rw [Function.update_of_ne hqp] at hq
      exact hs.idle q hq
  · intro q c hc
    rw [hcalls] at hc
    by_cases hqp : q = pid
    · subst hqp
      rw [Function.update_self] at hc
      cases hc
      exact hnew
    · rw [Function.update_of_ne hqp] at hc
      exact (hs.call q c hc).mono (by rw [htracer]) (by rw [htracer]; exact fun k hk => hk) htype

private theorem failStep_inv {s : System} (hs : Inv arch initial ignored s) {pid : Pid}
    {target : Option (Syscall × Path)}
    {early : Bool} (hcall : s.calls pid = some ⟨target, early, .entered⟩) (ret : SyscallRet) :
    Inv arch initial ignored
      { s with calls := Function.update s.calls pid (some ⟨target, early, .failed ret⟩) } := by
  have h := hs.call pid _ hcall
  refine hs.of_call pid _ _ hcall rfl rfl (fun k hk => hk) hs.cover hs.fresh ?_
  refine ⟨?_, h.other, ?_, ?_⟩
  · intro c path ht
    exact (h.file c path ht).mono rfl fun k hk => hk
  · intro c path r _ hp
    cases hp
  · intro path r made _ hp
    cases hp

private theorem succeedStep_inv {s s' : System} (hs : Inv arch initial ignored s) {pid : Pid}
    {target : Option (Syscall × Path)} {early : Bool} (hcall : s.calls pid = some ⟨target, early, .entered⟩)
    {ret : SyscallRet} (h : s.succeedStep pid target early ret = some s') : Inv arch initial ignored s' := by
  have hinv := hs.call pid _ hcall
  unfold System.succeedStep at h
  split at h
  · cases h
    refine hs.of_call pid _ _ hcall rfl rfl (fun k hk => hk) hs.cover hs.fresh ?_
    refine ⟨?_, hinv.other, ?_, ?_⟩
    · intro c path ht
      cases ht
    · intro c path r ht
      cases ht
    · intro path r made ht
      cases ht
  · rename_i c path
    split at h
    · cases h
    · rename_i hfound
      cases h
      refine hs.of_call pid _ _ hcall rfl rfl (fun k hk => hk) hs.cover hs.fresh ?_
      obtain ⟨habs, hfile, n, existed, hc, hst, hex, hearly⟩ := hinv.file c path rfl
      refine ⟨?_, ?_, ?_, ?_⟩
      · intro c' path' ht
        cases ht
        refine ⟨habs, hfile, n, existed, hc, hst, ?_, ?_⟩
        · intro he
          dsimp only
          split
          · exact hs.cover _ hfound
          · exact hex he
        · intro he
          dsimp only at he
          split at he
          · rename_i hexec
            exact .inl hexec
          · exact hearly he
      · intro ht
        cases ht
      · intro c' path' r _ hp
        cases hp
      · intro path' r made ht _
        cases ht
        exact hs.cover _ hfound

private theorem createStep_inv {s s' : System} (hs : Inv arch initial ignored s) {pid : Pid} {c : Syscall} {path : Path}
    {early : Bool} (hcall : s.calls pid = some ⟨some (c, path), early, .entered⟩) {ret : SyscallRet}
    (h : s.createStep pid c path early ret = some s') : Inv arch initial ignored s' := by
  have hinv := hs.call pid _ hcall
  unfold System.createStep at h
  split at h
  · rename_i hcond
    obtain ⟨hopen, habsent, hret⟩ := hcond
    cases h
    have htype : ∀ k, s.fileType k = .regular →
        Function.update s.fileType path.parts .regular k = .regular := by
      intro k hk
      by_cases hkp : k = path.parts
      · rw [hkp, Function.update_self]
      · rw [Function.update_of_ne hkp, hk]
    refine hs.of_call pid _ _ hcall rfl rfl htype ?_ ?_ ?_
    · intro k hk
      by_cases hkp : k = path.parts
      · -- the new file is fresh until the exit stop of this call
        rw [hkp]
        exact .inr (.inr (Function.update_self ..))
      · have hk : s.fileType k ≠ .notFound := by
          have hk' : Function.update s.fileType path.parts .regular k ≠ .notFound := hk
          rwa [Function.update_of_ne hkp] at hk'
        refine (hs.cover k hk).imp id (Or.imp id ?_)
        intro hfresh
        show Function.update s.fresh path.parts true k = true
        rwa [Function.update_of_ne hkp]
    · intro k hfresh
      by_cases hkp : k = path.parts
      · simp [hkp]
      · have hfresh : Function.update s.fresh path.parts true k = true := hfresh
        rw [Function.update_of_ne hkp] at hfresh
        show Function.update s.fileType path.parts .regular k ≠ .notFound
        rw [Function.update_of_ne hkp]
        exact hs.fresh k hfresh
    · refine ⟨?_, ?_, ?_, ?_⟩
      · intro c' path' ht
        cases ht
        exact (hinv.file c path rfl).mono rfl fun k hk => hk
      · intro ht
        cases ht
      · intro c' path' r ht hp
        cases ht
        cases hp
        exact ⟨hopen, hret, Function.update_self ..⟩
      · intro path' r made ht _
        cases ht
        rcases hopen with hopen | hopen <;> cases hopen
  · cases h

/-- A stop of one process. -/
private theorem Inv.of_stop {s s' : System} (hs : Inv arch initial ignored s) (pid : Pid) (call' : Option Call)
    (hcalls : s'.calls = Function.update s.calls pid call')
    (hstate : ∀ q ≠ pid, s'.tracer.state q = s.tracer.state q)
    (hkeys : ∀ k, k ∈ s.tracer.files.keys → k ∈ s'.tracer.files.keys) (htype : s'.fileType = s.fileType)
    (hfresh : ∀ k, s.fresh k = true → ignored k = true ∨ s'.Known initial k ∨ s'.fresh k = true)
    (hfresh' : ∀ k, s'.fresh k = true → s.fresh k = true)
    (hidle : call' = none → s'.tracer.state pid = none)
    (hnew : ∀ call, call' = some call → CallInv arch initial ignored s' pid call) : Inv arch initial ignored s' := by
  constructor
  · intro k hk
    rw [htype] at hk
    rcases hs.cover k hk with hi | hk | hf
    · exact .inl hi
    · exact .inr (.inl (hk.mono hkeys))
    · exact hfresh k hf
  · intro k hk
    rw [htype]
    exact hs.fresh k (hfresh' k hk)
  · intro q hq
    rw [hcalls] at hq
    by_cases hqp : q = pid
    · subst hqp
      rw [Function.update_self] at hq
      exact hidle hq
    · rw [Function.update_of_ne hqp] at hq
      exact (hstate q hqp).trans (hs.idle q hq)
  · intro q call hcall
    rw [hcalls] at hcall
    by_cases hqp : q = pid
    · subst hqp
      rw [Function.update_self] at hcall
      exact hnew call hcall
    · rw [Function.update_of_ne hqp] at hcall
      exact (hs.call q call hcall).mono (hstate q hqp) hkeys (by rw [htype]; exact fun k hk => hk)

/-- After the entry of a call about a file the tracer holds the path, and whether the file has been found. -/
private theorem fileCallInv_of_entry {s s' : System} (hs : Inv arch initial ignored s) {pid : Pid} {nr : UInt64}
    {args : SyscallArgs} {a : Answers} {c : Syscall} {path : Path}
    (htarget : targetOf arch (s.answers ignored a) pid nr args = some (some (c, path)))
    (h : onSyscallEntry arch s.tracer (s.answers ignored a) pid nr args = .ok s'.tracer) :
    FileCallInv arch initial ignored s' pid c path (s.earlyAtEntry (some (c, path))) := by
  obtain ⟨hc, hfile, habs, hentry⟩ := entry_of_target arch htarget
  obtain ⟨hfiles, ⟨hk, -⟩ | ⟨handler, state, hk, hst, -, hstate⟩⟩ := onSyscallEntry_ok h
  · simp [kHandlers, hc] at hk
  · simp only [kHandlers, hc, Option.map_some, Option.some.injEq] at hk
    rw [← hk, hentry] at hst
    refine ⟨habs, hfile, toInt nr, _, by rw [toInt_of_syscallOf hc, hc],
      by rw [hstate, Function.update_self, Except.ok.inj hst], ?_, ?_⟩
    · -- the call has found the file, so the file is covered now
      intro hex
      obtain ⟨hne, hthere⟩ := Bool.and_eq_true_iff.1 hex
      rcases hs.cover path.parts (by simpa using hthere) with hi | hk | hf
      · exact .inl hi
      · exact .inr (.inl (hk.mono (by rw [hfiles]; exact fun k hk => hk)))
      · refine .inr (.inr ?_)
        simp only [System.earlyAtEntry, hne, hf]
        rfl
    · intro he
      obtain ⟨hne, hfresh⟩ := Bool.and_eq_true_iff.1 he
      right
      simp only [hne, Bool.true_and, bne_iff_ne]
      exact hs.fresh _ hfresh

private theorem entryStep_inv {s s' : System} (hs : Inv arch initial ignored s) {pid : Pid} (hidle : s.calls pid = none)
    {nr : UInt64} {args : SyscallArgs} {a : Answers} (h : s.entryStep arch ignored pid nr args a = some s') :
    Inv arch initial ignored s' := by
  unfold System.entryStep at h
  split at h
  · cases h
  · rename_i target htarget
    split at h
    · cases h
    · rename_i t ht
      cases h
      obtain ⟨hfiles, hstate⟩ := onSyscallEntry_ok ht
      have hkeys : ∀ k, k ∈ s.tracer.files.keys → k ∈ t.files.keys := by
        intro k hk
        rwa [hfiles]
      refine hs.of_stop pid _ rfl ?_ hkeys rfl (fun k hf => .inr (.inr hf)) (fun k hf => hf) (by simp) ?_
      · intro q hq
        rcases hstate with ⟨-, hst⟩ | ⟨_, _, _, _, _, hst⟩
        · exact congrFun hst q
        · exact (congrFun hst q).trans (Function.update_of_ne hq ..)
      · intro call hcall
        obtain rfl := Option.some.inj hcall
        refine ⟨?_, ?_, ?_, ?_⟩
        · rintro c path rfl
          exact fileCallInv_of_entry hs htarget ht
        · rintro rfl n state hst
          have hst : t.state pid = some (n, state) := hst
          rcases hstate with ⟨-, hold⟩ | ⟨handler, st, hk, -, -, hnew⟩
          · rw [hold, hs.idle pid hidle] at hst
            cases hst
          · rw [hnew, Function.update_self] at hst
            cases hst
            obtain ⟨c, hc, -⟩ := exists_of_kHandlers hk
            exact ⟨c, by rw [toInt_of_syscallOf hc, hc], not_isFileCall_of_target arch htarget hc⟩
        · intro c path r _ hp
          cases hp
        · intro path r made _ hp
          cases hp

private theorem unlink_target (name : Name) (call : Call) : (call.unlink name).target = call.target := by
  unfold Call.unlink
  split <;> rfl

private theorem unlink_early (name : Name) (call : Call) : (call.unlink name).early = call.early := by
  unfold Call.unlink
  split <;> rfl

private theorem phase_of_unlink {name : Name} {call : Call} {c : Syscall} {path : Path} {ret : SyscallRet} {made : Bool}
    (ht : call.target = some (c, path)) (hp : (call.unlink name).phase = .done ret made) :
    ∃ made', call.phase = .done ret made' ∧ made = (made' && path.parts != name) := by
  obtain ⟨target, early, phase⟩ := call
  cases ht
  cases phase with
  | entered => cases hp
  | failed r => cases hp
  | done r made' =>
    cases hp
    exact ⟨made', rfl, rfl⟩

private theorem removeStep_inv {s : System} (hs : Inv arch initial ignored s) (name : Name) :
    Inv arch initial ignored (s.removeStep name) := by
  constructor
  · intro k hk
    have hk : Function.update s.fileType name .notFound k ≠ .notFound := hk
    by_cases hkn : k = name
    · subst hkn
      simp at hk
    · rw [Function.update_of_ne hkn] at hk
      refine (hs.cover k hk).imp id (Or.imp id ?_)
      intro hfresh
      show Function.update s.fresh name false k = true
      rwa [Function.update_of_ne hkn]
  · intro k hk
    have hk : Function.update s.fresh name false k = true := hk
    by_cases hkn : k = name
    · subst hkn
      simp at hk
    · rw [Function.update_of_ne hkn] at hk
      show Function.update s.fileType name .notFound k ≠ .notFound
      rw [Function.update_of_ne hkn]
      exact hs.fresh k hk
  · intro q hq
    exact hs.idle q (Option.map_eq_none_iff.1 hq)
  · intro q call' hcall'
    obtain ⟨call, hcall, rfl⟩ := Option.map_eq_some_iff.1 hcall'
    have h := hs.call q call hcall
    refine ⟨?_, ?_, ?_, ?_⟩
    · intro c path ht
      rw [unlink_target] at ht
      rw [unlink_early]
      exact (h.file c path ht).mono rfl fun k hk => hk
    · intro ht
      rw [unlink_target] at ht
      exact h.other ht
    · intro c path ret ht hp
      rw [unlink_target] at ht
      obtain ⟨made, hp, hmade⟩ := phase_of_unlink ht hp
      obtain ⟨rfl, hne⟩ := Bool.and_eq_true_iff.1 hmade.symm
      obtain ⟨hc, hret, hreg⟩ := h.made c path ret ht hp
      refine ⟨hc, hret, ?_⟩
      show Function.update s.fileType name .notFound path.parts = .regular
      rw [Function.update_of_ne (by simpa using hne), hreg]
    · intro path ret made ht hp
      rw [unlink_target] at ht
      rw [unlink_early]
      obtain ⟨made', hp, -⟩ := phase_of_unlink ht hp
      exact h.executed path ret made' ht hp

/-! ### What an exit records -/

/-- The exit of a call that has created its file comes to register it. -/
private theorem registersAtExit_of_made {s : System} {pid : Pid} {c : Syscall} {path : Path} {ret : SyscallRet}
    {a : Answers} (hopen : c = .open ∨ c = .openat) (hret : 0 ≤ ret) (hreg : s.fileType path.parts = .regular) :
    registersAtExit c (s.exitAnswers ignored pid (some (c, path)) ret true a) pid ret path = true := by
  have hsupported : (s.exitAnswers ignored pid (some (c, path)) ret true a).isSupported path = true := by
    simp [System.exitAnswers, System.answers, Answers.isSupported, hreg]
  have hleads : leadsTo (s.exitAnswers ignored pid (some (c, path)) ret true a) pid ret.toInt32 path = true := by
    simp [leadsTo, System.exitAnswers, System.answers, Answers.resolveFdFilename, Except.toOption]
  rcases hopen with rfl | rfl <;> simp [registersAtExit, hsupported, hret, hleads]

/-- The exit of a successful call about a file records it exactly when it is not ignored and the tests succeed: as one
that existed before if the call has found it early, and otherwise only if it is known. -/
private theorem files_of_exit {s : System} {t : FileTracer} {pid : Pid} {c : Syscall} {path : Path} {early made : Bool}
    {ret : SyscallRet} {a : Answers} (hinv : CallInv arch initial ignored s pid ⟨some (c, path), early, .done ret made⟩)
    (ht : onSyscallExit arch s.tracer a pid ret false = .ok t) :
    ((ignored path.parts = false ∧ registersAtExit c a pid ret path = true) ∧
        ∃ size old, t.files = s.tracer.files.emplace ⟨path, size, old⟩ ∧ (early = true → old = true) ∧
          (old = true → s.Known initial path.parts ∨ early = true)) ∨
      (¬ (ignored path.parts = false ∧ registersAtExit c a pid ret path = true) ∧ t.files = s.tracer.files) := by
  obtain ⟨habs, -, n, existed, hc, hst, hex, hearly⟩ := hinv.file c path rfl
  rw [onSyscallExit_of_some hst hc] at ht
  cases hi : ignored path.parts with
  | true =>
    have hnone : stateOfCall ignored path existed = .monostate := by simp [stateOfCall, hi]
    have h := exit_files_of_ignored (.inr (.inl hnone)) ht
    exact .inr ⟨by simp, h⟩
  | false =>
    have hinfo : stateOfCall ignored path existed = .fileInfo ⟨path, none, existed⟩ := by simp [stateOfCall, hi]
    rw [hinfo] at ht
    rcases exit_files_fileInfo (fun _ => habs) ht with ⟨hreg, size, h⟩ | ⟨hreg, h⟩
    · refine .inl ⟨⟨rfl, hreg⟩, size, _, h, ?_, ?_⟩
      · intro he
        rcases hearly he with rfl | rfl
        · rfl
        · exact Bool.or_true _
      · intro hold
        have hfound : ignored path.parts = true ∨ s.Known initial path.parts ∨ early = true := by
          rcases Bool.or_eq_true_iff.1 hold with hexec | hexisted
          · obtain rfl : c = .execve := by simpa using hexec
            exact hinv.executed path ret made rfl rfl
          · exact hex hexisted
        rcases hfound with hi' | hfound
        · rw [hi] at hi'
          cases hi'
        · exact hfound
    · exact .inr ⟨by simp [hreg], h⟩

/-- The exits of failed calls and of calls about no file record none. -/
private theorem files_of_exit_other {s : System} {t : FileTracer} {pid : Pid} {call : Call} {ret : SyscallRet}
    {isError : Bool} {a : Answers} (hinv : CallInv arch initial ignored s pid call)
    (hother : isError = true ∨ call.target = none) (ht : onSyscallExit arch s.tracer a pid ret isError = .ok t) :
    t.files = s.tracer.files := by
  cases htarget : call.target with
  | none =>
    cases hst : s.tracer.state pid with
    | none =>
      rw [onSyscallExit_of_none hst] at ht
      cases ht
      rfl
    | some st =>
      obtain ⟨c, hc, hfile⟩ := hinv.other htarget st.1 st.2 hst
      rw [onSyscallExit_of_some hst hc] at ht
      have h := exit_files_of_ignored (.inr (.inr hfile)) ht
      exact h
  | some target =>
    obtain ⟨c, path⟩ := target
    obtain ⟨-, -, n, existed, hc, hst, -⟩ := hinv.file c path htarget
    rw [onSyscallExit_of_some hst hc] at ht
    have he : isError = true := by
      rcases hother with he | hnone
      · exact he
      · rw [htarget] at hnone
        cases hnone
    have h := exit_files_of_ignored (.inl he) ht
    exact h

private theorem keys_of_exit {s : System} {t : FileTracer} {pid : Pid} {call : Call} {ret : SyscallRet}
    {isError made : Bool} {a : Answers} (hinv : CallInv arch initial ignored s pid call)
    (hphase : isError = true ∨ isError = false ∧ call.phase = .done ret made)
    (ht : onSyscallExit arch s.tracer a pid ret isError = .ok t) :
    ∀ k, k ∈ s.tracer.files.keys → k ∈ t.files.keys := by
  intro k hk
  obtain ⟨target, early, phase⟩ := call
  rcases hphase with rfl | ⟨rfl, rfl⟩
  · rwa [files_of_exit_other hinv (.inl rfl) ht]
  · cases target with
    | none => rwa [files_of_exit_other hinv (.inr rfl) ht]
    | some target =>
      obtain ⟨c, path⟩ := target
      rcases files_of_exit hinv ht with ⟨-, size, old, h, -⟩ | ⟨-, h⟩
      · rw [h]
        exact Emplace.Table.mem_keys_emplace.2 (.inl hk)
      · rwa [h]

private theorem exitStep_eq_some {s s' : System} {pid : Pid} {target : Option (Syscall × Path)} {ret : SyscallRet}
    {isError made : Bool} {a : Answers} : s.exitStep arch ignored pid target ret isError made a = some s' →
      ∃ t, onSyscallExit arch s.tracer (s.exitAnswers ignored pid target ret made a) pid ret isError = .ok t ∧
        s' = { s with
          tracer := t
          fresh := match target, made with
            | some (_, path), true => Function.update s.fresh path.parts false
            | _, _ => s.fresh
          calls := Function.update s.calls pid none } := by
  intro h
  unfold System.exitStep at h
  split at h
  · cases h
  · rename_i t ht
    exact ⟨t, ht, (Option.some.inj h).symm⟩

private theorem exitStep_inv {s s' : System} (hs : Inv arch initial ignored s) {pid : Pid}
    {target : Option (Syscall × Path)}
    {early : Bool} {phase : Phase} {ret : SyscallRet} {isError made : Bool} {a : Answers}
    (hcall : s.calls pid = some ⟨target, early, phase⟩)
    (hphase : isError = true ∧ made = false ∨ isError = false ∧ phase = .done ret made)
    (h : s.exitStep arch ignored pid target ret isError made a = some s') : Inv arch initial ignored s' := by
  have hinv := hs.call pid _ hcall
  obtain ⟨t, ht, rfl⟩ := exitStep_eq_some h
  have hstate := onSyscallExit_ok ht
  have hkeys := keys_of_exit hinv (hphase.imp And.left id) ht
  refine hs.of_stop pid none rfl ?_ hkeys rfl ?_ ?_ ?_ ?_
  · intro q hq
    exact (congrFun hstate q).trans (Function.update_of_ne hq ..)
  · intro k hfresh
    dsimp only
    split
    · -- the call has created the file and is done with it now
      rename_i c path
      by_cases hkp : k = path.parts
      · rw [hkp]
        obtain ⟨rfl, rfl⟩ : isError = false ∧ phase = .done ret true := by
          rcases hphase with ⟨-, hmade⟩ | hdone
          · cases hmade
          · exact hdone
        obtain ⟨hopen, hret, hreg⟩ := hinv.made c path ret rfl rfl
        rcases files_of_exit hinv ht with ⟨-, size, old, h, -⟩ | ⟨hnot, -⟩
        · exact .inr (.inl (.inr (by rw [h]; simp)))
        · left
          by_contra hi
          exact hnot ⟨by simpa using hi, registersAtExit_of_made hopen hret hreg⟩
      · exact .inr (.inr (by rwa [Function.update_of_ne hkp]))
    · exact .inr (.inr hfresh)
  · intro k hfresh
    dsimp only at hfresh
    split at hfresh
    · rename_i c path
      by_cases hkp : k = path.parts
      · rw [hkp, Function.update_self] at hfresh
        cases hfresh
      · rwa [Function.update_of_ne hkp] at hfresh
    · exact hfresh
  · intro _
    exact (congrFun hstate pid).trans (Function.update_self ..)
  · intro call hnone
    cases hnone

private theorem step_inv {s s' : System} {e : Label} (hs : Inv arch initial ignored s)
    (h : s.step arch ignored e = some s') :
    Inv arch initial ignored s' := by
  cases e with
  | entry pid nr args a =>
    simp only [System.step] at h
    split at h
    · rename_i hidle
      exact entryStep_inv hs hidle h
    · cases h
  | fail pid ret =>
    simp only [System.step] at h
    split at h
    · rename_i target early hcall
      cases h
      exact failStep_inv hs hcall ret
    · cases h
  | succeed pid ret =>
    simp only [System.step] at h
    split at h
    · rename_i target early hcall
      exact succeedStep_inv hs hcall h
    · cases h
  | create pid ret =>
    simp only [System.step] at h
    split at h
    · rename_i c path early hcall
      exact createStep_inv hs hcall h
    · cases h
  | exit pid a =>
    simp only [System.step] at h
    split at h
    · rename_i target early ret hcall
      exact exitStep_inv hs hcall (.inl ⟨rfl, rfl⟩) h
    · rename_i target early ret made hcall
      exact exitStep_inv hs hcall (.inr ⟨rfl, rfl⟩) h
    · cases h
  | remove name =>
    cases h
    exact removeStep_inv hs name

/-! ### Where the property is lost -/

private theorem mem_registersEarly {s : System} {pid : Pid} {c : Syscall} {path p : Path} {early made : Bool}
    {ret : SyscallRet} {a : Answers} (hcall : s.calls pid = some ⟨some (c, path), early, .done ret made⟩) :
    p ∈ s.registersEarly ignored pid a ↔ early = true ∧
      (ignored path.parts = false ∧
        registersAtExit c (s.exitAnswers ignored pid (some (c, path)) ret made a) pid ret path = true) ∧
      path = p := by
  unfold System.registersEarly
  rw [hcall]
  cases early with
  | false => simp
  | true => simp [and_assoc]

private theorem registersEarly_eq_none {s : System} {pid : Pid} {call : Call} {a : Answers}
    (hcall : s.calls pid = some call)
    (hother : (∃ ret, call.phase = .failed ret) ∨ call.target = none) : s.registersEarly ignored pid a = none := by
  obtain ⟨target, early, phase⟩ := call
  unfold System.registersEarly
  rw [hcall]
  rcases hother with ⟨ret, rfl⟩ | rfl
  · cases target <;> cases early <;> rfl
  · rfl

/-- A step that records no file and is no exit that comes to register a file found early. -/
private theorem oldFilesExisted_of_files {s s' : System} {e : Label} (hfiles : s'.tracer.files = s.tracer.files)
    (hok : InOrder initial ignored s e) :
    s'.OldFilesExisted initial ↔ s.OldFilesExisted initial ∧ InOrder initial ignored s e := by
  unfold System.OldFilesExisted
  rw [hfiles]
  exact (and_iff_left hok).symm

private theorem exitStep_oldFilesExisted_other {s s' : System} (hs : Inv arch initial ignored s) {pid : Pid}
    {call : Call} {ret : SyscallRet} {isError made : Bool} {a : Answers} (hcall : s.calls pid = some call)
    (hother : (isError = true ∧ ∃ ret, call.phase = .failed ret) ∨ call.target = none)
    (h : s.exitStep arch ignored pid call.target ret isError made a = some s') :
    s'.OldFilesExisted initial ↔ s.OldFilesExisted initial ∧ InOrder initial ignored s (.exit pid a) := by
  obtain ⟨t, ht, rfl⟩ := exitStep_eq_some h
  refine oldFilesExisted_of_files (files_of_exit_other (hs.call pid _ hcall) (hother.imp And.left id) ht) ?_
  intro path hpath
  rw [registersEarly_eq_none hcall (hother.imp And.right id)] at hpath
  cases hpath

private theorem exitStep_oldFilesExisted {s s' : System} (hs : Inv arch initial ignored s) {pid : Pid} {c : Syscall}
    {path : Path} {early made : Bool} {ret : SyscallRet} {a : Answers}
    (hcall : s.calls pid = some ⟨some (c, path), early, .done ret made⟩)
    (h : s.exitStep arch ignored pid (some (c, path)) ret false made a = some s') :
    s'.OldFilesExisted initial ↔ s.OldFilesExisted initial ∧ InOrder initial ignored s (.exit pid a) := by
  obtain ⟨t, ht, rfl⟩ := exitStep_eq_some h
  have hearly : ∀ p, p ∈ s.registersEarly ignored pid a ↔ _ := fun p => mem_registersEarly hcall
  rcases files_of_exit (hs.call pid _ hcall) ht with ⟨hreg, size, old, hfiles, hsome, hold⟩ | ⟨hnot, hfiles⟩
  · unfold System.OldFilesExisted
    simp only [hfiles, Emplace.Table.mem_emplace]
    constructor
    · intro hafter
      refine ⟨fun info hinfo => hafter info (.inl hinfo), ?_⟩
      intro p hp
      obtain ⟨he, -, rfl⟩ := (hearly p).1 hp
      -- a file that is not recorded yet is recorded now as one that existed
      by_cases hk : path.parts ∈ s.tracer.files.keys
      · exact .inr hk
      · exact .inl (hafter ⟨path, size, old⟩ (.inr ⟨rfl, hk⟩) (hsome he))
    · rintro ⟨hbefore, hok⟩ info (hinfo | ⟨rfl, hnew⟩) ho
      · exact hbefore info hinfo ho
      · rcases hold ho with (hinit | hrec) | he
        · exact hinit
        · exact absurd hrec hnew
        · rcases hok path ((hearly path).2 ⟨he, hreg, rfl⟩) with hinit | hrec
          · exact hinit
          · exact absurd hrec hnew
  · refine oldFilesExisted_of_files hfiles ?_
    intro p hp
    exact absurd ((hearly p).1 hp).2.1 hnot

/-- A step loses the property exactly when it is an exit that is not in order. -/
private theorem step_oldFilesExisted {s s' : System} {e : Label} (hs : Inv arch initial ignored s)
    (h : s.step arch ignored e = some s') :
    s'.OldFilesExisted initial ↔ s.OldFilesExisted initial ∧ InOrder initial ignored s e := by
  cases e with
  | entry pid nr args a =>
    simp only [System.step, System.entryStep] at h
    split at h
    · split at h
      · cases h
      · split at h
        · cases h
        · rename_i t ht
          cases h
          exact oldFilesExisted_of_files (onSyscallEntry_ok ht).1 trivial
    · cases h
  | fail pid ret =>
    simp only [System.step] at h
    split at h
    · cases h
      exact oldFilesExisted_of_files rfl trivial
    · cases h
  | succeed pid ret =>
    simp only [System.step, System.succeedStep] at h
    split at h
    · split at h
      · cases h
        exact oldFilesExisted_of_files rfl trivial
      · split at h
        · cases h
        · cases h
          exact oldFilesExisted_of_files rfl trivial
    · cases h
  | create pid ret =>
    simp only [System.step, System.createStep] at h
    split at h
    · split at h
      · cases h
        exact oldFilesExisted_of_files rfl trivial
      · cases h
    · cases h
  | exit pid a =>
    simp only [System.step] at h
    split at h
    · rename_i target early ret hcall
      exact exitStep_oldFilesExisted_other hs hcall (.inl ⟨rfl, ret, rfl⟩) h
    · rename_i target early ret made hcall
      cases target with
      | none => exact exitStep_oldFilesExisted_other hs hcall (.inr rfl) h
      | some target => exact exitStep_oldFilesExisted hs hcall h
    · cases h
  | remove name =>
    cases h
    exact oldFilesExisted_of_files rfl trivial

/-- In every run the files recorded as having existed before did so exactly when no exit stop is the first to register a
new file that its call has found before the exit stop of the call that created it. -/
theorem oldFilesExisted_iff {es : List Label} {s : System}
    (h : Runs.run (System.step arch ignored) (start initial) es = some s) : s.OldFilesExisted initial ↔
      Runs.AllSteps (System.step arch ignored) (InOrder initial ignored) (start initial) es := by
  have hstart : (start initial).OldFilesExisted initial := by
    intro info hinfo
    cases hinfo
  rw [Runs.iff_allSteps (I := Inv arch initial ignored) (fun _ _ _ => step_inv) (fun _ _ _ => step_oldFilesExisted)
    inv_start h]
  exact and_iff_right hstart

/-! ### Two processes open a new file -/

def noFiles : Name → FileType := fun _ => .notFound

def nothingIgnored : Name → Bool := fun _ => false

/-- Process 2 creates the file, and process 3 opens it when the file is recorded. -/
def createThenOpen : List Label :=
  [.entry 2 257 noArgs oneFile, .create 2 5, .exit 2 oneFile, .entry 3 257 noArgs oneFile, .succeed 3 5,
    .exit 3 oneFile]

theorem oldFilesExisted_createThenOpen :
    ∃ s, Runs.run (System.step .x86_64 nothingIgnored) (start noFiles) createThenOpen = some s ∧
      s.OldFilesExisted noFiles :=
  have hrun : Runs.run (System.step .x86_64 nothingIgnored) (start noFiles) createThenOpen = some _ := rfl
  ⟨_, hrun, (oldFilesExisted_iff hrun).2 (by decide)⟩

/-- Process 3 opens the file and comes to its exit stop before process 2, which has created it. -/
def openDuringCreate : List Label :=
  [.entry 2 257 noArgs oneFile, .create 2 5, .entry 3 257 noArgs oneFile, .succeed 3 5, .exit 3 oneFile,
    .exit 2 oneFile]

theorem not_oldFilesExisted_openDuringCreate :
    ∃ s, Runs.run (System.step .x86_64 nothingIgnored) (start noFiles) openDuringCreate = some s ∧
      ¬ s.OldFilesExisted noFiles ∧ s.tracer.files.elems = [⟨.ofString "/tmp/out", some 0, true⟩] := by
  refine ⟨_, rfl, ?_, by decide⟩
  intro hold
  exact hold ⟨.ofString "/tmp/out", some 0, true⟩ (by decide) rfl rfl

end R4R.ExistedBefore
