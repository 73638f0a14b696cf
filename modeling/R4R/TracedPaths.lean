import R4R.DefaultImageFiles
import R4R.FileTracerRuns
import R4R.IgnoreFileMap
import R4R.PathJoin
import R4R.PathLookup

/-!
# The paths that are recorded

The file tracer asks the ignore map at the entry stop of a call, and for the text of a symlink at the exit stop, and
what it records is in its maps for good.  So whatever the processes do, each recorded path is one that the map did not
ignore.  The wildcards that `Tracer::configure` puts into the map hide nothing from each other unless the home directory
is below one of them, and then nothing below a wildcard is recorded (`run_recorded`).
-/

namespace R4R

namespace FileTracer

/-! ### One stop -/

/-- A path that may be recorded: absolute, in lexical normal form, and with the property that the map's no implies. -/
structure IsTraced (P : Path → Prop) (p : Path) : Prop where
  isAbsolute : p.isAbsolute = true
  normal : ∃ path : Path, path.isAbsolute = true ∧ p = path.lexicallyNormal
  notIgnored : P p

/-- The current directory is absolute, and what is not ignored has the property. -/
structure KeepsOut (P : Path → Prop) (a : Answers) : Prop where
  currentPath : ∀ dir, a.currentPath = .ok dir → dir.isAbsolute = true
  ignore : ∀ p, a.ignore p = .ok false → P p

private theorem ok_of_orThrow {α : Type} {x : Answer α} {v : α} (h : orThrow x = .ok v) : x = .ok v := by
  cases x with
  | ok v' => exact congrArg Except.ok (Except.ok.inj h)
  | error e => cases h

section Stop

variable {P : Path → Prop} {a : Answers} {pid : Pid} {info : FileInfo}

private theorem isAbsolute_absolute (ha : KeepsOut P a) {p p' : Path} (h : a.absolute p = .ok p') :
    p'.isAbsolute = true := by
  unfold Answers.absolute at h
  by_cases hempty : p.native.isEmpty = true
  · rw [if_pos hempty] at h
    cases h
  · rw [if_neg hempty] at h
    by_cases habs : p.isAbsolute = true
    · rw [if_pos habs] at h
      obtain rfl := Except.ok.inj h
      exact habs
    · rw [if_neg habs] at h
      cases hcwd : a.currentPath with
      | error what =>
        rw [hcwd] at h
        cases h
      | ok dir =>
        rw [hcwd] at h
        obtain rfl := Except.ok.inj h
        exact Path.isAbsolute_join (ha.currentPath dir hcwd) p

private theorem absolutePathAt_normal (ha : KeepsOut P a) {dirfd : Int32} {path p : Path}
    (h : a.absolutePathAt pid dirfd path = .ok (some p)) :
    ∃ path : Path, path.isAbsolute = true ∧ p = path.lexicallyNormal := by
  unfold Answers.absolutePathAt at h
  by_cases habs : path.isAbsolute = true
  · rw [if_pos habs] at h
    obtain rfl := Option.some.inj (Except.ok.inj h)
    exact ⟨path, habs, rfl⟩
  · rw [if_neg habs] at h
    obtain ⟨dir, -, h⟩ := Except.bind_eq_ok h
    cases dir with
    | none => cases h
    | some d =>
      dsimp only at h
      cases hdir : a.absolute d with
      | error what =>
        rw [hdir] at h
        cases h
      | ok d' =>
        rw [hdir] at h
        obtain ⟨result, hresult, h⟩ := Except.bind_eq_ok h
        obtain rfl := Option.some.inj (Except.ok.inj h)
        exact ⟨result, isAbsolute_absolute ha (ok_of_orThrow hresult), rfl⟩

private theorem resolvePathAt_traced (ha : KeepsOut P a) {dirfd : Int32} {path p : Path}
    (h : a.resolvePathAt pid dirfd path = .ok (some p)) : IsTraced P p := by
  obtain ⟨result, hpath, h⟩ := Except.bind_eq_ok h
  cases result with
  | none => cases h
  | some result =>
    obtain ⟨ignored, hignored, h⟩ := Except.bind_eq_ok h
    cases ignored with
    | true => cases h
    | false =>
      obtain rfl := Option.some.inj (Except.ok.inj h)
      obtain ⟨path', habs, hnormal⟩ := absolutePathAt_normal ha hpath
      exact ⟨hnormal ▸ Path.isAbsolute_lexicallyNormal habs, ⟨path', habs, hnormal⟩,
        ha.ignore result (ok_of_orThrow hignored)⟩

private theorem genericOpenEntry_traced (ha : KeepsOut P a) {dirfd : Int32} {path : Path}
    (h : genericOpenEntry a pid dirfd path = .ok (.fileInfo info)) : IsTraced P info.path := by
  obtain ⟨result, hresult, h⟩ := Except.bind_eq_ok h
  cases result with
  | none => cases h
  | some p =>
    dsimp only at h
    cases hexists : a.fileExists p with
    | error what =>
      rw [hexists] at h
      cases h
    | ok e =>
      rw [hexists] at h
      obtain rfl := SyscallState.fileInfo.inj (Except.ok.inj h)
      exact resolvePathAt_traced ha hresult

private theorem genericReadlinkEntry_traced (ha : KeepsOut P a) {dirfd : Int32} {path : Path}
    (h : genericReadlinkEntry a pid dirfd path = .ok (.fileInfo info)) : IsTraced P info.path := by
  obtain ⟨result, hresult, h⟩ := Except.bind_eq_ok h
  cases result with
  | none => cases h
  | some p =>
    obtain rfl := SyscallState.fileInfo.inj (Except.ok.inj h)
    exact resolvePathAt_traced ha hresult

private theorem entry_traced (ha : KeepsOut P a) {c : Syscall} {args : SyscallArgs}
    (h : c.handler.entry a pid args = .ok (.fileInfo info)) : IsTraced P info.path := by
  cases c with
  | «open» | openat | newfstatat =>
    obtain ⟨path, -, h⟩ := Except.bind_eq_ok h
    exact genericOpenEntry_traced ha h
  | readlink | readlinkat | execve =>
    obtain ⟨path, -, h⟩ := Except.bind_eq_ok h
    exact genericReadlinkEntry_traced ha h

/-- What an exit handler can do to the tracer: nothing, or it records the file, or the symlink with a text that is not
ignored. -/
inductive ExitOutcome (a : Answers) (state : SyscallState) (t t' : FileTracer) : Prop
  | unchanged (h : t' = t)
  | file (info : FileInfo) (size : Option UInt64) (existed : Bool) (hstate : state = .fileInfo info)
      (h : t' = { t with files := t.files.emplace ⟨info.path, size, existed⟩ })
  | symlink (info : FileInfo) (target : Path) (hstate : state = .fileInfo info) (hignore : a.ignore target = .ok false)
      (h : t' = { t with symlinks := t.symlinks.emplace (info.path, target) })

variable {t t' : FileTracer} {rval : SyscallRet} {isError : Bool} {state : SyscallState}

private theorem exitOutcome_registerFile {info' : FileInfo} (habs : info.path.isAbsolute = true)
    (hpath : info'.path = info.path) (h : t.registerFile a info' = .ok t') : ExitOutcome a (.fileInfo info) t t' := by
  obtain ⟨size, hfiles⟩ := registerFile_ok (hpath ▸ habs) h
  obtain ⟨info₁, -, h⟩ := Except.bind_eq_ok h
  obtain rfl := Except.ok.inj h
  rw [hpath] at hfiles
  exact .file info size info'.existedBefore rfl (by rw [← hfiles])

private theorem exitOutcome_genericOpenExit (habs : ∀ info, state = .fileInfo info → info.path.isAbsolute = true)
    (h : t.genericOpenExit a pid rval isError state = .ok t') : ExitOutcome a state t t' := by
  unfold genericOpenExit at h
  by_cases herr : isError = true
  · rw [if_pos herr] at h
    exact .unchanged (Except.ok.inj h).symm
  · rw [if_neg herr] at h
    cases state with
    | monostate => exact .unchanged (Except.ok.inj h).symm
    | fileInfo info =>
      dsimp only at h
      split at h
      · exact .unchanged (Except.ok.inj h).symm
      · split at h
        · split at h
          · exact .unchanged (Except.ok.inj h).symm
          · split at h
            · exact exitOutcome_registerFile (habs info rfl) rfl h
            · exact .unchanged (Except.ok.inj h).symm
        · exact .unchanged (Except.ok.inj h).symm

private theorem exitOutcome_genericReadlinkExit (h : t.genericReadlinkExit a isError state = .ok t') :
    ExitOutcome a state t t' := by
  unfold genericReadlinkExit at h
  by_cases herr : isError = true
  · rw [if_pos herr] at h
    exact .unchanged (Except.ok.inj h).symm
  · rw [if_neg herr] at h
    cases state with
    | monostate => exact .unchanged (Except.ok.inj h).symm
    | fileInfo info =>
      dsimp only at h
      cases hread : a.readSymlink info.path with
      | error what =>
        rw [hread] at h
        exact .unchanged (Except.ok.inj h).symm
      | ok target =>
        rw [hread] at h
        obtain ⟨ignored, hignored, h⟩ := Except.bind_eq_ok h
        cases ignored with
        | true => exact .unchanged (Except.ok.inj h).symm
        | false => exact .symlink info target rfl (ok_of_orThrow hignored) (Except.ok.inj h).symm

private theorem exitOutcome {c : Syscall} (habs : ∀ info, state = .fileInfo info → info.path.isAbsolute = true)
    (h : c.handler.exit t a pid rval isError state = .ok t') : ExitOutcome a state t t' := by
  cases c with
  | «open» | openat => exact exitOutcome_genericOpenExit habs h
  | readlink | readlinkat => exact exitOutcome_genericReadlinkExit h
  | execve =>
    change t.syscallExecveExit a pid rval isError state = .ok t' at h
    unfold syscallExecveExit at h
    by_cases herr : isError = true
    · rw [if_pos herr] at h
      exact .unchanged (Except.ok.inj h).symm
    · rw [if_neg herr] at h
      cases state with
      | monostate => exact .unchanged (Except.ok.inj h).symm
      | fileInfo info =>
        have hpath : FileInfo.path { info with existedBefore := true } = info.path := rfl
        exact exitOutcome_registerFile (habs info rfl) hpath h
  | newfstatat =>
    change t.syscallNewfstatatExit a pid rval isError state = .ok t' at h
    unfold syscallNewfstatatExit at h
    by_cases herr : isError = true
    · rw [if_pos herr] at h
      exact .unchanged (Except.ok.inj h).symm
    · rw [if_neg herr] at h
      cases state with
      | monostate => exact .unchanged (Except.ok.inj h).symm
      | fileInfo info =>
        dsimp only at h
        split at h
        · exact .unchanged (Except.ok.inj h).symm
        · exact exitOutcome_registerFile (habs info rfl) rfl h

end Stop

/-! ### Runs -/

/-- What is recorded, and what a call has left for its exit stop, are such paths. -/
structure Traced (P : Path → Prop) (t : FileTracer) : Prop where
  state : ∀ pid syscall info, t.state pid = some (syscall, .fileInfo info) → IsTraced P info.path
  files : ∀ info ∈ t.files.elems, IsTraced P info.path
  symlinks : ∀ link ∈ t.symlinks.elems, IsTraced P link.1 ∧ P link.2

variable {P : Path → Prop} {arch : Arch}

private theorem traced_init : Traced P init := by
  constructor
  · intro pid syscall info h
    cases h
  · intro info h
    cases h
  · intro link h
    cases h

/-- What is left under a pid. -/
private theorem Traced.update {t : FileTracer} (ht : Traced P t) (n : UInt64) (pid : Pid) {s : Option PidState}
    (hs : ∀ syscall info, s = some (syscall, .fileInfo info) → IsTraced P info.path) :
    Traced P { t with syscallsCount := n, state := Function.update t.state pid s } := by
  refine ⟨fun pid' syscall info h => ?_, ht.files, ht.symlinks⟩
  change Function.update t.state pid s pid' = _ at h
  by_cases hpid : pid' = pid
  · subst hpid
    rw [Function.update_self] at h
    exact hs syscall info h
  · rw [Function.update_of_ne hpid] at h
    exact ht.state pid' syscall info h

private theorem traced_exitOutcome {a : Answers} (ha : KeepsOut P a) {t t' : FileTracer} {state : SyscallState}
    (hstate : ∀ info, state = .fileInfo info → IsTraced P info.path) (ht : Traced P t)
    (h : ExitOutcome a state t t') : Traced P t' := by
  cases h with
  | unchanged h => rwa [h]
  | file info size existed hinfo h =>
    subst h
    refine ⟨ht.state, fun info' hmem => ?_, ht.symlinks⟩
    rcases Emplace.Table.mem_emplace.1 hmem with hmem | ⟨rfl, -⟩
    · exact ht.files info' hmem
    · exact hstate info hinfo
  | symlink info target hinfo hignore h =>
    subst h
    refine ⟨ht.state, ht.files, fun link hmem => ?_⟩
    rcases Emplace.Table.mem_emplace.1 hmem with hmem | ⟨rfl, -⟩
    · exact ht.symlinks link hmem
    · exact ⟨hstate info hinfo, ha.ignore target hignore⟩

/-- One stop. -/
private theorem traced_onEvent {e : Event} (ha : KeepsOut P e.answers) {t t' : FileTracer} (ht : Traced P t)
    (h : onEvent arch t e = .ok t') : Traced P t' := by
  obtain ⟨pid, stop, a⟩ := e
  cases stop with
  | entry nr args =>
    change onSyscallEntry arch t a pid nr args = .ok t' at h
    unfold onSyscallEntry at h
    cases hk : kHandlers arch nr with
    | none =>
      rw [hk] at h
      obtain rfl := Except.ok.inj h
      exact ⟨ht.state, ht.files, ht.symlinks⟩
    | some handler =>
      obtain ⟨c, -, rfl⟩ := exists_of_kHandlers hk
      rw [hk] at h
      obtain ⟨state, hentry, h⟩ := Except.bind_eq_ok h
      dsimp only at h
      cases hs : t.state pid with
      | some s =>
        rw [hs] at h
        cases h
      | none =>
        rw [hs] at h
        obtain rfl := Except.ok.inj h
        refine ht.update _ pid fun syscall info hinfo => ?_
        obtain rfl := (Prod.mk.inj (Option.some.inj hinfo)).2
        exact entry_traced ha hentry
  | exit rval isError =>
    change onSyscallExit arch t a pid rval isError = .ok t' at h
    cases hs : t.state pid with
    | none =>
      rw [onSyscallExit_of_none hs] at h
      rwa [← Except.ok.inj h]
    | some s =>
      obtain ⟨syscall, state⟩ := s
      have hstate : ∀ info, state = .fileInfo info → IsTraced P info.path := by
        rintro info rfl
        exact ht.state pid syscall info hs
      cases hc : syscallOf arch syscall.toInt64.toUInt64 with
      | none =>
        rw [onSyscallExit_of_unhandled hs hc] at h
        cases h
      | some c =>
        rw [onSyscallExit_of_some hs hc] at h
        have ht' : Traced P { t with state := Function.update t.state pid none } :=
          ht.update t.syscallsCount pid fun _ _ hnone => by cases hnone
        exact traced_exitOutcome ha hstate ht' (exitOutcome (fun info hinfo => (hstate info hinfo).isAbsolute) h)

theorem traced_run {es : List Event} (ha : ∀ e ∈ es, KeepsOut P e.answers) {t : FileTracer}
    (h : run arch es = .ok t) : Traced P t :=
  Except.foldlM_invariant (fun _ _ e he ht hstep => traced_onEvent (ha e he) ht hstep) traced_init h

end FileTracer

/-! ### The map of the tracer -/

private theorem Path.components_append {dir name : Path} (hrel : name.isAbsolute = false) :
    (dir / name).components = dir.components ++ name.components := by
  have hroot : (dir / name).isAbsolute = dir.isAbsolute := by
    by_cases hdir : dir.native = []
    · obtain rfl : dir = ⟨[]⟩ := by
        cases dir
        exact congrArg Path.mk hdir
      rw [append_of_relative hrel]
      exact hrel
    · exact isAbsolute_append hrel hdir
  rw [components_eq, components_eq dir, components_eq name, hroot, filenames_append hrel, hrel]
  simp

namespace IgnoreFileMap

/-- The calls of `Tracer::load_image_default_files`. -/
def loadImageDefaultFiles (files : DefaultImageFiles) : List AddCall := files.paths.map fun path => .addFile ⟨path⟩

/-- The calls of `Tracer::configure`. -/
def configure (home : Option Path) (files : DefaultImageFiles) : List AddCall :=
  configureDefaultIgnorePattern home ++ loadImageDefaultFiles files

/-- What is so of a path that the map does not ignore. -/
structure Kept (q : FileQueries) (fuel : Nat) (r : SymlinkResolver) (calls : List AddCall) (p : Path) : Prop where
  wildcard : ¬ UnderWildcard calls p
  file : ∃ names, r.resolveSymlinks q fuel p = .ok names ∧
    ∀ name ∈ names, ∀ f, .addFile f ∈ calls → f.components ≠ name.components
  custom : ∀ f, .addCustom f ∈ calls → f p = false

variable {r : SymlinkResolver} {q : FileQueries} {fuel : Nat}

private theorem kept_of_ignore {calls : List AddCall} {p : Path} (hno : NoWildcardDetour calls p)
    (h : (ofCalls r calls).ignore q fuel p = .ok false) : Kept q fuel r calls p := by
  have hnot : ¬ (UnderWildcard calls p ∧ NoWildcardDetour calls p ∨ OtherwiseIgnored q fuel r calls p) := by
    rw [← ignore_iff, h]
    intro htrue
    cases htrue
  obtain ⟨hwild, hother⟩ := not_or.1 hnot
  have hnames : ∃ names, r.resolveSymlinks q fuel p = .ok names := by
    have hres : (ofCalls r calls).symlinkResolver = r := by rw [ofCalls_spec]
    unfold ignore at h
    split at h
    · cases h
    · rw [hres] at h
      obtain ⟨names, hnames, -⟩ := Except.bind_eq_ok h
      exact ⟨names, hnames⟩
  obtain ⟨names, hnames⟩ := hnames
  refine ⟨fun hunder => hwild ⟨hunder, hno⟩, ⟨names, hnames, fun name hname f hf hcomp => ?_⟩, fun f hf => ?_⟩
  · exact hother ⟨names, hnames, .inl ⟨name, hname, f, hf, hcomp⟩⟩
  · by_contra htrue
    exact hother ⟨names, hnames, .inr ⟨f, hf, by simpa using htrue⟩⟩

private theorem addWildcard_mem_configure {home : Option Path} {files : DefaultImageFiles} {w : Path} :
    .addWildcard w ∈ configure home files ↔ .addWildcard w ∈ configureDefaultIgnorePattern none ∨
      ∃ dir, home = some dir ∧ w = dir / Path.ofString ".cache/fontconfig" := by
  have hfiles : AddCall.addWildcard w ∉ loadImageDefaultFiles files := by simp [loadImageDefaultFiles]
  rw [configure, List.mem_append, or_iff_left hfiles]
  cases home with
  | none => simp
  | some dir => simp [configureDefaultIgnorePattern, or_comm, or_left_comm]

/-- The elements of the wildcards that do not depend on the home directory. -/
def fixedWildcards : List (List (List Char)) :=
  ((configureDefaultIgnorePattern none).filterMap AddCall.wildcard?).map Path.components

private theorem mem_fixedWildcards {w : Path} (h : .addWildcard w ∈ configureDefaultIgnorePattern none) :
    w.components ∈ fixedWildcards := List.mem_map_of_mem (List.mem_filterMap.2 ⟨_, h, rfl⟩)

private theorem fixedWildcards_antichain : ∀ a ∈ fixedWildcards, ∀ b ∈ fixedWildcards, a <+: b → b = a :=
    by decide +kernel

private theorem cache_notMem_fixedWildcards : ∀ a ∈ fixedWildcards, ".cache".toList ∉ a := by decide +kernel

private theorem cacheFontconfig_components : (Path.ofString ".cache/fontconfig").components =
    [".cache".toList, "fontconfig".toList] := by decide +kernel

/-- A home directory below none of the other wildcards does not bring in a detour. -/
private theorem noWildcardDetour_configure {home : Option Path} (files : DefaultImageFiles)
    (hhome : ∀ dir, home = some dir → ¬ UnderWildcard (configureDefaultIgnorePattern none) dir) (p : Path) :
    NoWildcardDetour (configure home files) p := by
  have hkey : ∀ a ∈ (FileSystemTrie.entriesOf (insertsOf AddCall.wildcard? (configure home files))).map Prod.fst,
      (∃ w, .addWildcard w ∈ configureDefaultIgnorePattern none ∧ a = w.components) ∨
        ∃ dir, home = some dir ∧ a = dir.components ++ [".cache".toList, "fontconfig".toList] := by
    intro a ha
    obtain ⟨e, he, rfl⟩ := List.mem_map.1 ha
    obtain ⟨⟨w, b⟩, hw, rfl⟩ := List.mem_map.1 he
    obtain rfl : b = true := (mem_insertsOf.1 hw).1
    rcases addWildcard_mem_configure.1 (mem_wildcards.1 hw) with hfixed | ⟨dir, hdir, rfl⟩
    · exact .inl ⟨w, hfixed, rfl⟩
    · refine .inr ⟨dir, hdir, ?_⟩
      rw [← cacheFontconfig_components]
      exact Path.components_append rfl
  refine PrefixMap.noDetour_of_antichain p.components fun a ha b hb hab => ?_
  rcases hkey a ha with ⟨w, hw, rfl⟩ | ⟨dir, hdir, rfl⟩
  · rcases hkey b hb with ⟨w', hw', rfl⟩ | ⟨dir, hdir, rfl⟩
    · exact fixedWildcards_antichain _ (mem_fixedWildcards hw) _ (mem_fixedWildcards hw') hab
    · -- a wildcard above the cache is above the home directory
      have hcache := cache_notMem_fixedWildcards _ (mem_fixedWildcards hw)
      have habove : w.components <+: dir.components := by
        rcases List.prefix_or_prefix_of_prefix hab (List.prefix_append dir.components _) with h | ⟨rest, hrest⟩
        · exact h
        · cases rest with
          | nil => exact ⟨[], by rw [List.append_nil] at hrest ⊢; exact hrest.symm⟩
          | cons s rest =>
            rw [← hrest] at hab hcache
            obtain ⟨tail, htail⟩ := hab
            rw [List.append_assoc, List.append_cancel_left_eq] at htail
            obtain rfl : s = ".cache".toList := (List.cons.inj htail).1
            exact absurd (List.mem_append_right _ (List.mem_cons_self ..)) hcache
      exact absurd ⟨w, hw, habove⟩ (hhome dir hdir)
  · rcases hkey b hb with ⟨w', hw', rfl⟩ | ⟨dir', hdir', rfl⟩
    · have hmem : ".cache".toList ∈ w'.components :=
        hab.subset (List.mem_append_right _ (List.mem_cons_self ..))
      exact absurd hmem (cache_notMem_fixedWildcards _ (mem_fixedWildcards hw'))
    · obtain rfl : dir = dir' := Option.some.inj (hdir.symm.trans hdir')
      rfl

end IgnoreFileMap

/-! ### What is recorded -/

namespace FileTracer

open IgnoreFileMap

/-- What the listener is told about ignored files is what the map says, in the file system that it finds. -/
def AsksMap (map : IgnoreFileMap) (q : FileQueries) (fuel : Nat) (a : Answers) : Prop :=
  ∀ p ignored, a.ignore p = .ok ignored → map.ignore q fuel p = .ok ignored

/-- When a stop was handled the map did not ignore the path. -/
def KeptAt (queries : Event → FileQueries) (fuel : Nat) (r : SymlinkResolver) (calls : List AddCall) (es : List Event)
    (p : Path) : Prop := ∃ e ∈ es, Kept (queries e) fuel r calls p

section Recorded

variable {arch : Arch} {es : List Event} {t : FileTracer} {queries : Event → FileQueries} {fuel : Nat}
  {r : SymlinkResolver} {home : Option Path} {files : DefaultImageFiles}

theorem keepsOut_of_asksMap (hhome : ∀ dir, home = some dir → ¬ UnderWildcard (configureDefaultIgnorePattern none) dir)
    {e : Event} (he : e ∈ es) (hcwd : ∀ dir, e.answers.currentPath = .ok dir → dir.isAbsolute = true)
    (hasks : AsksMap (ofCalls r (configure home files)) (queries e) fuel e.answers) :
    KeepsOut (KeptAt queries fuel r (configure home files) es) e.answers :=
  ⟨hcwd, fun p hp => ⟨e, he, kept_of_ignore (noWildcardDetour_configure files hhome p) (hasks p false hp)⟩⟩

/-- However the stops of the processes come, and whatever the file system is like at each of them: the files and the
symlinks that are recorded have absolute paths in normal form that the map of `Tracer::configure` covers neither by a
wildcard nor, under any of their names, by a file of the base image, and the texts of the symlinks are no such paths
either.  The home directory is not below a default wildcard: its own wildcard would make a detour from that one. -/
theorem run_recorded (hhome : ∀ dir, home = some dir → ¬ UnderWildcard (configureDefaultIgnorePattern none) dir)
    (hcwd : ∀ e ∈ es, ∀ dir, e.answers.currentPath = .ok dir → dir.isAbsolute = true)
    (hasks : ∀ e ∈ es, AsksMap (ofCalls r (configure home files)) (queries e) fuel e.answers)
    (h : run arch es = .ok t) :
    (∀ info ∈ t.files.elems, IsTraced (KeptAt queries fuel r (configure home files) es) info.path) ∧
      ∀ link ∈ t.symlinks.elems, IsTraced (KeptAt queries fuel r (configure home files) es) link.1 ∧
        KeptAt queries fuel r (configure home files) es link.2 := by
  have htraced := traced_run (fun e he => keepsOut_of_asksMap hhome he (hcwd e he) (hasks e he)) h
  exact ⟨htraced.files, htraced.symlinks⟩

end Recorded

/-- The calls for the home directory `/root` and a base image with one file. -/
def bashCalls : List AddCall :=
  configure (some (.ofString "/root")) ⟨[⟨"/bin/bash".toList, [], [], 0, 0, []⟩]⟩

/-- A call that opens the file, in a file system of which nothing is asked that is there. -/
def opening (path : String) : Answers :=
  { oneFile with
    readString := fun _ _ => .ok (.ofString path)
    ignore := fun p => ((ofCalls ⟨[]⟩ bashCalls).ignore noFiles 2 p).mapError fun _ => ⟨"Invalid argument"⟩ }

/-- Three processes that open a file each, one of them a file of the base image and one a device. -/
def openings : List Event :=
  [⟨7, .entry 257 noArgs, opening "/data.csv"⟩, ⟨8, .entry 257 noArgs, opening "/bin/bash"⟩,
    ⟨9, .entry 257 noArgs, opening "/dev/null"⟩, ⟨8, .exit 3 false, opening "/bin/bash"⟩,
    ⟨9, .exit 3 false, opening "/dev/null"⟩, ⟨7, .exit 3 false, opening "/data.csv"⟩]

private theorem answers_openings : ∀ e ∈ openings, ∃ path, e.answers = opening path := by
  intro e he
  simp only [openings, List.mem_cons, List.not_mem_nil, or_false] at he
  rcases he with rfl | rfl | rfl | rfl | rfl | rfl <;> exact ⟨_, rfl⟩

theorem asksMap_openings : ∀ e ∈ openings, AsksMap (ofCalls ⟨[]⟩ bashCalls) noFiles 2 e.answers := by
  intro e he p ignored hig
  obtain ⟨path, hpath⟩ := answers_openings e he
  rw [hpath] at hig
  exact Except.mapError_eq_ok hig

theorem currentPath_openings : ∀ e ∈ openings, ∀ dir, e.answers.currentPath = .ok dir → dir.isAbsolute = true := by
  intro e he dir hdir
  obtain ⟨path, hpath⟩ := answers_openings e he
  rw [hpath] at hdir
  obtain rfl := Except.ok.inj hdir
  rfl

theorem not_underWildcard_root : ∀ dir, some (Path.ofString "/root") = some dir →
    ¬ UnderWildcard (configureDefaultIgnorePattern none) dir := by
  rintro dir hdir ⟨w, hw, hprefix⟩
  obtain rfl := Option.some.inj hdir
  have hnot : ∀ a ∈ fixedWildcards, ¬ a <+: (Path.ofString "/root").components := by decide +kernel
  exact hnot _ (mem_fixedWildcards hw) hprefix

theorem run_recorded_openings : ∃ t, run .x86_64 openings = .ok t ∧
    t.files.elems.map (fun info => info.path) = [.ofString "/data.csv"] ∧
    ∀ info ∈ t.files.elems, IsTraced (KeptAt (fun _ => noFiles) 2 ⟨[]⟩ bashCalls openings) info.path := by
  obtain ⟨t, hrun, hpaths⟩ : ∃ t, run .x86_64 openings = .ok t ∧
      t.files.elems.map (fun info => info.path) = [.ofString "/data.csv"] := ⟨_, rfl, by decide⟩
  exact ⟨t, hrun, hpaths, (run_recorded not_underWildcard_root currentPath_openings asksMap_openings hrun).1⟩

end FileTracer

end R4R
