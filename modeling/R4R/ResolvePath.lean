import R4R.FileTracerHandlers
import R4R.PathLookup

/-!
# Resolved paths

`resolve_path_at` joins a path to the directory that `/proc` names and normalizes the text.  The kernel looks the path
up and follows the symbolic links on the way, and `..` leads to the directory above the one that a link leads to.  The
two agree on every path exactly when every name that leads to a directory leads to one right below it
(`followsKernel_iff`); on a path they agree when each `..` leads back.
-/

namespace R4R

open FileTree FileTracer

/-- Where the lookups of a process start: its current directory and what its descriptors lead to. -/
structure Directories where
  cwd : Location (List Char)
  fd : Int32 → Option (Location (List Char))

/-- The directory that `dirfd` stands for. -/
def Directories.find (t : Directories) (dirfd : Int32) : Option (Location (List Char)) :=
  if dirfd = atFdCwd then some t.cwd else t.fd dirfd

/-- The components of a path behind those of its directory. -/
def Directories.components (t : Directories) (dirfd : Int32) (path : Path) : List (Component (List Char)) :=
  if path.isAbsolute then path.lookupComponents
  else match t.find dirfd with
    | none => path.lookupComponents
    | some start => LinkTree.namesOf start ++ path.lookupComponents

namespace FileSystem

variable (fs : FileSystem)

/-- Where the kernel comes to for `dirfd` and a path. -/
def kernelLookup (t : Directories) (follow : Bool) (dirfd : Int32) (path : Path) : Option (Location (List Char)) :=
  if path.isAbsolute then (fs.lookup follow path).toOption
  else match t.find dirfd with
    | none => none
    | some start => (fs.lookupAt follow start path).toOption

/-- `fs::exists` -/
def existsAnswer (p : Path) : Answer Bool :=
  match fs.lookup true p with
  | .ok _ => .ok true
  | .error .missing => .ok false
  | .error .notDirectory => .ok false
  | .error .loop => .error ⟨"Too many levels of symbolic links"⟩

/-- `fs::status` -/
def fileType (p : Path) : FileType :=
  match fs.lookup true p with
  | .ok loc =>
    match fs.node loc with
    | some .directory => .directory
    | some (.regular _) => .regular
    | some (.symlink _ _) => .symlink
    | none => .notFound
  | .error .missing => .notFound
  | .error .notDirectory => .notFound
  | .error .loop => .none

/-- `fs::is_regular_file` -/
def isRegularAnswer (p : Path) : Answer Bool := (fs.existsAnswer p).map fun _ => fs.fileType p == .regular

/-- `fs::equivalent` -/
def equivalentAnswer (p q : Path) : Answer Bool :=
  match fs.lookup true p, fs.lookup true q with
  | .ok loc, .ok loc' => .ok (fs.sameFile loc loc')
  | .error _, .error _ => .error ⟨"No such file or directory"⟩
  | .ok _, .error .loop => .error ⟨"Too many levels of symbolic links"⟩
  | .error .loop, .ok _ => .error ⟨"Too many levels of symbolic links"⟩
  | .ok _, .error _ => .ok false
  | .error _, .ok _ => .ok false

/-- What the file system and `/proc` answer about a process. -/
structure Describes (t : Directories) (pid : Pid) (a : Answers) : Prop where
  pid_ne_zero : pid ≠ 0
  cwd : a.readSymlink (.ofString ("/proc/" ++ toString pid ++ "/cwd")) = .ok (pathOf t.cwd)
  fd : ∀ n loc, t.fd n = some loc → a.readSymlink (Answers.fdLink pid n) = .ok (pathOf loc)
  fileExists : ∀ p, p.isAbsolute = true → a.fileExists p = fs.existsAnswer p
  status : ∀ p, p.isAbsolute = true → a.status p = fs.fileType p
  isRegularFile : ∀ p, p.isAbsolute = true → a.isRegularFile p = fs.isRegularAnswer p
  equivalent : ∀ p q, p.isAbsolute = true → q.isAbsolute = true → a.equivalent p q = fs.equivalentAnswer p q

/-- The answers to a process without ignored files. -/
def answers (readString : Pid → UInt64 → Answer Path) (readSymlink : Path → Answer Path) : Answers where
  readString := readString
  readSymlink := readSymlink
  currentPath := .ok (pathOf [])
  fileExists := fs.existsAnswer
  status := fs.fileType
  isRegularFile := fs.isRegularAnswer
  fileSize := fun _ => .ok 0
  equivalent := fs.equivalentAnswer
  ignore := fun _ => .ok false

end FileSystem

/-- A call that opens the regular file at `loc`, which may be new: what the tracer learns at its two stops. -/
structure OpensFile (arch : Arch) (before fs : FileSystem) (t t' : Directories) (a a' : Answers) (pid : Pid)
    (nr : UInt64) (args : SyscallArgs) (rval : SyscallRet) (dirfd : Int32) (path : Path) (loc : Location (List Char)) :
    Prop where
  call : ∃ c addr, syscallOf arch nr = some c ∧ openArg args c = some (dirfd, addr) ∧ a.readString pid addr = .ok path
  others : ∀ l ≠ loc, before.node l = fs.node l
  made : before.node loc = none ∨ before.node loc = fs.node loc
  regular : ∃ inode, fs.node loc = some (.regular inode)
  atEntry : before.Describes t pid a
  atExit : fs.Describes t' pid a'
  reached : fs.kernelLookup t true dirfd path = some loc
  opened : 0 ≤ rval ∧ t'.fd rval.toInt32 = some loc
  notIgnored : ∀ p, a.absolutePathAt pid dirfd path = .ok (some p) → a.ignore p = .ok false

/-- For `dirfd` and a path the tracer comes to the file that the kernel comes to, and records it when it is opened. -/
structure FollowsKernel (fs : FileSystem) (t : Directories) (dirfd : Int32) (path : Path) : Prop where
  resolves : ∀ pid a follow loc p, fs.Describes t pid a → fs.kernelLookup t follow dirfd path = some loc →
    a.resolvePathAt pid dirfd path = .ok (some p) → ∃ loc', fs.lookup follow p = .ok loc' ∧ fs.sameFile loc' loc = true
  registers : ∀ arch before t' a a' pid nr args rval loc,
    OpensFile arch before fs t t' a a' pid nr args rval dirfd path loc →
      ∀ t₁ : FileTracer, t₁.state pid = none → ∃ t₂, onSyscallEntry arch t₁ a pid nr args = .ok t₂ ∧
        -- the stops of other processes leave the state of the process
        ∀ t₃ : FileTracer, t₃.state pid = t₂.state pid →
          ∃ t₄, onSyscallExit arch t₃ a' pid rval false = .ok t₄ ∧
            ∃ info ∈ t₄.files.elems, ∃ loc', fs.lookup true info.path = .ok loc' ∧ fs.sameFile loc' loc = true

namespace FileSystem

variable {fs before : FileSystem} {t : Directories} {pid : Pid} {a : Answers} {follow : Bool} {dirfd : Int32}
  {path p : Path} {loc : Location (List Char)}

private theorem absolute_of_isAbsolute (a : Answers) (habs : p.isAbsolute = true) : a.absolute p = .ok p := by
  have hne := Path.native_ne_nil_of_isAbsolute habs
  rw [Answers.absolute, if_neg (by simpa using hne), if_pos habs]

private theorem toOption_eq_some {x : Except LookupError (Location (List Char))} (h : x.toOption = some loc) :
    x = .ok loc := by
  cases x with
  | ok l => exact congrArg _ (Option.some.inj h)
  | error e => cases h

/-- The path that is normalized: the path itself or the one joined to that of its directory. -/
private theorem absolutePathAt_of_kernelLookup (hdesc : before.Describes t pid a)
    (h : fs.kernelLookup t follow dirfd path = some loc) : ∃ q : Path, q.isAbsolute = true ∧
      q.lookupComponents = t.components dirfd path ∧ fs.lookup follow q = .ok loc ∧
        a.absolutePathAt pid dirfd path = .ok (some q.lexicallyNormal) := by
  unfold kernelLookup at h
  split at h
  · rename_i habs
    refine ⟨path, habs, ?_, toOption_eq_some h, ?_⟩
    · rw [Directories.components, if_pos habs]
    · rw [Answers.absolutePathAt, if_pos habs]
  · rename_i hrel
    have hrel : path.isAbsolute = false := by simpa using hrel
    split at h
    · cases h
    · rename_i start hstart
      obtain ⟨habs, hcomponents, hlookup⟩ := lookup_append hrel (toOption_eq_some h)
      refine ⟨pathOf start / path, habs, ?_, hlookup, ?_⟩
      · rw [Directories.components, if_neg (by simp [hrel]), hstart, hcomponents]
      · have hdirectory : a.directoryAt pid dirfd = .ok (some (pathOf start)) := by
          unfold Directories.find at hstart
          unfold Answers.directoryAt
          split at hstart
          · rename_i hfd
            cases hstart
            rw [if_pos hfd, Answers.getProcessCwd, if_neg hdesc.pid_ne_zero, hdesc.cwd]
            rfl
          · rename_i hfd
            rw [if_neg hfd, Answers.resolveFdFilename, hdesc.fd dirfd start hstart]
            rfl
        have hroot := isAbsolute_pathOf_directory (directory_of_lookupAt hrel (toOption_eq_some h)).2.2
        unfold Answers.absolutePathAt
        rw [if_neg (by simp [hrel]), hdirectory, Except.ok_bind]
        simp only [absolute_of_isAbsolute a hroot, absolute_of_isAbsolute a habs]
        rfl

/-! ### What the stops learn about the opened file -/

private theorem existsAnswer_of_lookup (h : fs.lookup true p = .ok loc) : fs.existsAnswer p = .ok true := by
  unfold existsAnswer
  rw [h]

private theorem fileType_of_lookup {inode : Nat} (h : fs.lookup true p = .ok loc)
    (hreg : fs.node loc = some (.regular inode)) :
    fs.fileType p = .regular := by
  unfold fileType
  rw [h]
  simp only [hreg]

private theorem sameFile_self (loc : Location (List Char)) : fs.sameFile loc loc = true := by
  unfold sameFile
  cases fs.node loc with
  | none => simp
  | some nd => cases nd <;> simp

/-- Before the call the question whether the file exists has an answer. -/
private theorem existsAnswer_before {inode : Nat} (hothers : ∀ l ≠ loc, before.node l = fs.node l)
    (hmade : before.node loc = none ∨ before.node loc = fs.node loc) (hreg : fs.node loc = some (.regular inode))
    (habs : p.isAbsolute = true) (h : fs.lookup true p = .ok loc) : ∃ e, before.existsAnswer p = .ok e := by
  rcases hmade with hnone | hsome
  · refine ⟨false, ?_⟩
    rw [lookup_eq habs] at h
    obtain ⟨k, hk, hw⟩ := LinkTree.walk_eq_ok_iff.1 h
    have hcomponents : p.lookupComponents ≠ [] := by
      intro he
      rw [he] at hw
      cases hw
      rw [fs.root] at hreg
      cases hreg
    unfold existsAnswer
    rw [lookup_eq habs, LinkTree.walk_before_regular hothers hnone hreg hw hcomponents rfl _ hk]
  · have hnode : before.node = fs.node := by
      funext l
      by_cases hl : l = loc
      · rw [hl, hsome]
      · exact hothers l hl
    have heq : before = fs := by
      obtain ⟨⟨node, root, parent⟩, isName⟩ := before
      obtain ⟨⟨node', root', parent'⟩, isName'⟩ := fs
      obtain rfl : node = node' := hnode
      rfl
    exact ⟨true, heq ▸ existsAnswer_of_lookup h⟩

end FileSystem

namespace FileTracer

variable {fs : FileSystem} {t : Directories} {pid : Pid} {a : Answers} {dirfd : Int32} {path : Path}
  {args : SyscallArgs} {c : Syscall} {addr : UInt64}

private theorem entry_of_openArg (hc : openArg args c = some (dirfd, addr)) (hread : a.readString pid addr = .ok path) :
    c.handler.entry a pid args = genericOpenEntry a pid dirfd path := by
  cases c <;> cases hc <;> simp only [Syscall.handler, syscallOpenEntry, syscallOpenatEntry, hread] <;> rfl

private theorem onSyscallEntry_of_entry {arch : Arch} {t₁ : FileTracer} {nr : UInt64} {state : SyscallState}
    (hc : syscallOf arch nr = some c) (hentry : c.handler.entry a pid args = .ok state) (hstate : t₁.state pid = none) :
    onSyscallEntry arch t₁ a pid nr args = .ok { t₁ with
      syscallsCount := t₁.syscallsCount + 1
      state := Function.update t₁.state pid (some (toInt nr, state)) } := by
  unfold onSyscallEntry
  simp only [kHandlers, hc, Option.map_some, hentry, Except.ok_bind, hstate]

private theorem exit_of_openArg (hc : openArg args c = some (dirfd, addr)) : c.handler.exit = genericOpenExit := by
  cases c <;> cases hc <;> rfl

/-- The file of a path that the ignore map does not know is kept until the exit stop. -/
private theorem genericOpenEntry_eq {p : Path} {e : Bool} (hpath : a.absolutePathAt pid dirfd path = .ok (some p))
    (hignore : a.ignore p = .ok false) (hexists : a.fileExists p = .ok e) :
    genericOpenEntry a pid dirfd path = .ok (.fileInfo ⟨p, none, e⟩) := by
  have hresolve : a.resolvePathAt pid dirfd path = .ok (some p) := by
    unfold Answers.resolvePathAt
    rw [hpath, Except.ok_bind]
    simp only [hignore]
    rfl
  unfold genericOpenEntry
  rw [hresolve, Except.ok_bind]
  simp only [hexists]

/-- A file that its path leads to is recorded under it. -/
private theorem registerFile_leads {info : FileInfo} {loc : Location (List Char)} (hdesc : fs.Describes t pid a)
    (habs : info.path.isAbsolute = true) (h : fs.lookup true info.path = .ok loc) (t₁ : FileTracer) :
    ∃ t₂, t₁.registerFile a info = .ok t₂ ∧
      ∃ info' ∈ t₂.files.elems, ∃ loc', fs.lookup true info'.path = .ok loc' ∧ fs.sameFile loc' loc = true := by
  have hregular : a.isRegularFile info.path = .ok (fs.fileType info.path == .regular) := by
    rw [hdesc.isRegularFile info.path habs, FileSystem.isRegularAnswer, FileSystem.existsAnswer_of_lookup h]
    rfl
  obtain ⟨size, hregistered⟩ : ∃ size, registeredInfo a info = .ok ⟨info.path, size, info.existedBefore⟩ := by
    unfold registeredInfo
    simp only [if_pos habs, hregular]
    split
    · rename_i hex
      exact ⟨_, by rw [hex]; rfl⟩
    · rename_i hex
      have hex : info.existedBefore = false := by simpa using hex
      exact ⟨_, by rw [hex]⟩
  refine ⟨_, by rw [registerFile, hregistered]; rfl, ?_⟩
  have hkey : info.path.parts ∈ (t₁.files.emplace ⟨info.path, size, info.existedBefore⟩).keys :=
    Emplace.Table.mem_keys_emplace.2 (.inr rfl)
  obtain ⟨info', hmem, hparts⟩ := List.mem_map.1 hkey
  refine ⟨info', hmem, loc, ?_, FileSystem.sameFile_self loc⟩
  rw [(FileSystem.lookup_congr habs hparts.symm).2, h]

/-- An opened file that the kept path leads to is recorded. -/
private theorem genericOpenExit_leads {info : FileInfo} {loc : Location (List Char)} {inode : Nat} {rval : SyscallRet}
    (hdesc : fs.Describes t pid a) (habs : info.path.isAbsolute = true) (h : fs.lookup true info.path = .ok loc)
    (hreg : fs.node loc = some (.regular inode)) (hrval : 0 ≤ rval) (hfd : t.fd rval.toInt32 = some loc)
    (t₁ : FileTracer) :
    ∃ t₂, t₁.genericOpenExit a pid rval false (.fileInfo info) = .ok t₂ ∧
      ∃ info' ∈ t₂.files.elems, ∃ loc', fs.lookup true info'.path = .ok loc' ∧ fs.sameFile loc' loc = true := by
  have hsupported : a.isSupported info.path = true := by
    unfold Answers.isSupported
    rw [hdesc.fileExists _ habs, FileSystem.existsAnswer_of_lookup h, hdesc.status _ habs,
      FileSystem.fileType_of_lookup h hreg]
    rfl
  have hexit : a.resolveFdFilename pid rval.toInt32 = some (pathOf loc) := by
    rw [Answers.resolveFdFilename, hdesc.fd _ loc hfd]
    rfl
  have hroot : (pathOf loc).isAbsolute = true :=
    isAbsolute_pathOf (FileSystem.isName_of_isSome fs (by rw [hreg]; rfl))
  have hequivalent : a.equivalent (pathOf loc) info.path = .ok true := by
    rw [hdesc.equivalent _ _ hroot habs, FileSystem.equivalentAnswer, FileSystem.lookup_pathOf hreg, h]
    exact congrArg _ (FileSystem.sameFile_self loc)
  obtain ⟨t₂, hregister, hleads⟩ := registerFile_leads hdesc habs h t₁
  refine ⟨t₂, ?_, hleads⟩
  simp only [genericOpenExit, Bool.false_eq_true, if_false, hsupported, Bool.not_true, if_pos hrval, hexit, hequivalent,
    hregister]

end FileTracer

/-! ### When the tracer follows the kernel -/

section FollowsKernel

variable {fs : FileSystem} {t : Directories} {pid : Pid} {a : Answers} {dirfd : Int32} {path p : Path}

private theorem absolutePathAt_of_resolvePathAt (h : a.resolvePathAt pid dirfd path = .ok (some p)) :
    a.absolutePathAt pid dirfd path = .ok (some p) := by
  obtain ⟨result, hresult, h⟩ := Except.bind_eq_ok h
  cases result with
  | none => cases h
  | some q =>
    obtain ⟨ignored, -, h⟩ := Except.bind_eq_ok h
    cases ignored <;> cases h
    exact hresult

/-- Where each `..` leads back the tracer follows the kernel. -/
private theorem followsKernel_of_stepsBack (hback : fs.StepsBack maxSymlinks (t.components dirfd path)) :
    FollowsKernel fs t dirfd path := by
  constructor
  case resolves =>
    intro pid a follow loc p hdesc hreached hresolve
    obtain ⟨q, habs, hcomponents, hlookup, hpath⟩ := FileSystem.absolutePathAt_of_kernelLookup hdesc hreached
    have hp : some p = some q.lexicallyNormal :=
      Except.ok.inj ((absolutePathAt_of_resolvePathAt hresolve).symm.trans hpath)
    rw [Option.some.inj hp]
    exact ⟨loc, FileSystem.lookup_lexicallyNormal habs (hcomponents ▸ hback) hlookup, FileSystem.sameFile_self loc⟩
  case registers =>
    intro arch before t' a a' pid nr args rval loc h t₁ hstate
    obtain ⟨c, addr, hc, harg, hread⟩ := h.call
    obtain ⟨inode, hreg⟩ := h.regular
    obtain ⟨q, habs, hcomponents, hlookup, hpath⟩ := FileSystem.absolutePathAt_of_kernelLookup h.atEntry h.reached
    have hnormal := FileSystem.lookup_lexicallyNormal habs (hcomponents ▸ hback) hlookup
    have habs := Path.isAbsolute_lexicallyNormal habs
    obtain ⟨e, hexists⟩ := FileSystem.existsAnswer_before h.others h.made hreg habs hnormal
    have hentry : c.handler.entry a pid args = .ok (.fileInfo ⟨q.lexicallyNormal, none, e⟩) := by
      rw [entry_of_openArg harg hread]
      exact genericOpenEntry_eq hpath (h.notIgnored _ hpath) (by rw [h.atEntry.fileExists _ habs, hexists])
    refine ⟨_, onSyscallEntry_of_entry hc hentry hstate, fun t₃ ht₃ => ?_⟩
    have hstate₃ : t₃.state pid = some (toInt nr, .fileInfo ⟨q.lexicallyNormal, none, e⟩) := by
      rw [ht₃]
      exact Function.update_self ..
    rw [onSyscallExit_of_some hstate₃ (by rw [toInt_of_syscallOf hc, hc]), exit_of_openArg harg]
    exact genericOpenExit_leads h.atExit habs hnormal hreg h.opened.1 h.opened.2 _

/-- The answers of `/proc` to a process in the root directory without open descriptors. -/
private theorem describes_answers (fs : FileSystem) : fs.Describes ⟨[], fun _ => none⟩ 1
    (fs.answers (fun _ _ => .error ⟨"Input/output error"⟩) fun _ => .ok (pathOf [])) where
  pid_ne_zero := by decide
  cwd := rfl
  fd := by
    intro n loc h
    cases h
  fileExists := fun _ _ => rfl
  status := fun _ _ => rfl
  isRegularFile := fun _ _ => rfl
  equivalent := fun _ _ _ _ => rfl

private theorem sameFile_directory {loc loc' : Location (List Char)} (h : fs.node loc' = some .directory)
    (hsame : fs.sameFile loc loc' = true) : loc = loc' := by
  unfold FileSystem.sameFile at hsame
  rw [h] at hsame
  cases hnode : fs.node loc with
  | none =>
    rw [hnode] at hsame
    exact eq_of_beq hsame
  | some nd =>
    rw [hnode] at hsame
    cases nd <;> exact eq_of_beq hsame

/-- The path of a name in a directory and `..` behind it, to which the kernel and the tracer come differently. -/
private theorem leadsBack_of_followsKernel (h : ∀ t dirfd path, FollowsKernel fs t dirfd path) :
    fs.LeadsBack maxSymlinks := by
  intro d n k e hk hd hn he
  have hsome : (fs.node (n :: d)).isSome = true := by
    cases hn with
    | directory _ hnode _ => rw [hnode]; rfl
    | regular _ hnode _ => rw [hnode]; rfl
    | stop _ _ hfollow => cases hfollow
    | link _ hnode _ _ => rw [hnode]; rfl
  have hnames := FileSystem.isName_of_isSome fs hsome
  have hroot := isAbsolute_pathOf hnames
  let dots : Path := ⟨['.', '.']⟩
  have habs : (pathOf (n :: d) / dots).isAbsolute = true := Path.isAbsolute_join hroot dots
  have hcomponents : (pathOf (n :: d) / dots).lookupComponents = LinkTree.namesOf d ++ [.name n, .up] := by
    rw [Path.lookupComponents_append rfl (List.cons_ne_nil _ _), map_componentOf_filenames_pathOf hnames,
      LinkTree.namesOf_cons, List.append_assoc]
    rfl
  obtain ⟨hkernel, htracer⟩ := LinkTree.walks_up_of_not_leadsBack hd hn he
  have hreached : fs.kernelLookup ⟨[], fun _ => none⟩ true atFdCwd (pathOf (n :: d) / dots) = some e.tail := by
    unfold FileSystem.kernelLookup
    rw [if_pos habs, FileSystem.lookup_eq habs, hcomponents, LinkTree.walk_of_walks hkernel _ hk]
    rfl
  have hresolved : fs.lookup true (pathOf (n :: d) / dots).lexicallyNormal = .ok d := by
    rw [FileSystem.lookup_eq (Path.isAbsolute_lexicallyNormal habs), Path.lookupComponents_lexicallyNormal habs,
      hcomponents]
    exact LinkTree.walk_of_walks htracer _ (Nat.zero_le _)
  obtain ⟨loc', hlookup, hsame⟩ := (h ⟨[], fun _ => none⟩ atFdCwd (pathOf (n :: d) / dots)).resolves 1 _ true e.tail _
    (describes_answers fs) hreached (by rw [Answers.resolvePathAt, Answers.absolutePathAt, if_pos habs]; rfl)
  rw [hresolved] at hlookup
  obtain rfl := Except.ok.inj hlookup
  exact (sameFile_directory (LinkTree.directory_tail he) hsame).symm

end FollowsKernel

/-- The tracer follows the kernel on a path in which every `..` leads back; it follows the kernel on all paths exactly
when every name that leads to a directory leads to one right below the directory of the name. -/
theorem followsKernel_iff (fs : FileSystem) :
    (∀ t dirfd path, fs.StepsBack maxSymlinks (t.components dirfd path) → FollowsKernel fs t dirfd path) ∧
      ((∀ t dirfd path, FollowsKernel fs t dirfd path) ↔ fs.LeadsBack maxSymlinks) := by
  refine ⟨fun _ _ _ => followsKernel_of_stepsBack, leadsBack_of_followsKernel, ?_⟩
  exact fun h _ _ _ => followsKernel_of_stepsBack (h.stepsBack _)

/-- The directories `/a` and `/a/b`, the file `/a/f` and the link `/l`. -/
def withLink (target : List (Component (List Char))) : FileSystem where
  node
    | [] => some .directory
    | [['a']] => some .directory
    | [['b'], ['a']] => some .directory
    | [['f'], ['a']] => some (.regular 7)
    | [['l']] => some (.symlink true target)
    | _ => none
  root := rfl
  parent := by
    intro n d h
    split at h <;> simp_all
  isName := by
    intro n d h
    split at h <;> simp_all <;> constructor <;> simp_all

private theorem eq_of_node_symlink {target target' : List (Component (List Char))} {absolute : Bool}
    {loc : Location (List Char)} (h : (withLink target).node loc = some (.symlink absolute target')) :
    loc = [['l']] ∧ absolute = true ∧ target' = target := by
  unfold withLink at h
  dsimp only at h
  split at h <;> simp_all

/-- A link to a directory of the root leads back. -/
theorem followsKernel_linkToA : ∀ t dirfd path, FollowsKernel (withLink [.name ['a']]) t dirfd path := by
  refine (followsKernel_iff _).2.2 fun d n k e hk hd hn he => ?_
  cases hn with
  | directory _ _ hnil => cases hnil; rfl
  | regular _ _ hnil => cases hnil; rfl
  | stop _ _ hfollow => cases hfollow
  | link _ hnode _ hlink =>
    obtain ⟨hloc, rfl, rfl⟩ := eq_of_node_symlink hnode
    obtain ⟨rfl, rfl⟩ := List.cons.inj hloc
    cases hlink with
    | directory _ _ hnil => cases hnil; rfl
    | regular _ hnode' _ => cases hnode'
    | stop _ _ hfollow => cases hfollow
    | link _ hnode' _ _ => cases hnode'

/-- Behind a link to `/a/b` the kernel opens `/a/f`, and the tracer looks for `/f` and records nothing. -/
theorem open_behindLink_dropped :
    let fs := withLink [.name ['a'], .name ['b']]
    let path := Path.ofString "/l/../f"
    let a := fs.answers (fun _ _ => .ok path) fun p =>
      .ok (if p = Answers.fdLink 1 3 then Path.ofString "/a/f" else Path.ofString "/")
    (OpensFile .x86_64 fs fs ⟨[], fun _ => none⟩ ⟨[], fun n => if n = 3 then some [['f'], ['a']] else none⟩ a a 1 2
        #v[0, 0, 0, 0, 0, 0] 3 atFdCwd path [['f'], ['a']] ∧
      a.resolvePathAt 1 atFdCwd path = .ok (some (Path.ofString "/f")) ∧
      fs.lookup true (Path.ofString "/f") = .error .missing) ∧
    ∃ t₁ t₂, onSyscallEntry .x86_64 .init a 1 2 #v[0, 0, 0, 0, 0, 0] = .ok t₁ ∧
      onSyscallExit .x86_64 t₁ a 1 3 false = .ok t₂ ∧ t₂.files.elems = [] := by
  intro fs path a
  have hlink : ∀ p, a.readSymlink p =
      .ok (if p = Answers.fdLink 1 3 then Path.ofString "/a/f" else Path.ofString "/") := fun _ => rfl
  have hcwd : a.readSymlink (Path.ofString ("/proc/" ++ toString 1 ++ "/cwd")) = .ok (pathOf []) := by
    rw [hlink, if_neg (by decide +kernel)]
    rfl
  have hresolve : a.resolvePathAt 1 atFdCwd path = .ok (some (Path.ofString "/f")) := by decide +kernel
  have hmissing : fs.lookup true (Path.ofString "/f") = .error .missing := by decide +kernel
  refine ⟨⟨⟨?call, fun _ _ => rfl, .inr rfl, ⟨7, rfl⟩, ?entry, ?exit, ?reached, ?opened, fun _ _ => rfl⟩, hresolve,
    hmissing⟩, ?run⟩
  case call => exact ⟨.open, 0, rfl, rfl, rfl⟩
  case reached => decide +kernel
  case opened => exact ⟨by decide, rfl⟩
  case entry =>
    refine ⟨by decide, hcwd, ?_, fun _ _ => rfl, fun _ _ => rfl, fun _ _ => rfl,
      fun _ _ _ _ => rfl⟩
    intro n loc h
    cases h
  case exit =>
    refine ⟨by decide, hcwd, ?_, fun _ _ => rfl, fun _ _ => rfl, fun _ _ => rfl,
      fun _ _ _ _ => rfl⟩
    intro n loc h
    dsimp only at h
    split at h
    · rename_i hn
      cases h
      rw [hn, hlink, if_pos rfl]
      rfl
    · cases h
  case run =>
    have hexists : a.fileExists (Path.ofString "/f") = .ok false := by decide +kernel
    have hsupported : a.isSupported (Path.ofString "/f") = false := by decide +kernel
    have hentry : Syscall.open.handler.entry a 1 #v[0, 0, 0, 0, 0, 0] =
        .ok (.fileInfo ⟨Path.ofString "/f", none, false⟩) := by
      have harg : openArg #v[0, 0, 0, 0, 0, 0] .open = some (atFdCwd, 0) := rfl
      have hread : a.readString 1 0 = .ok path := rfl
      rw [entry_of_openArg harg hread]
      unfold genericOpenEntry
      rw [hresolve, Except.ok_bind]
      simp only [hexists]
    have hexit : ∀ t : FileTracer, t.state 1 = some (toInt 2, .fileInfo ⟨Path.ofString "/f", none, false⟩) →
        onSyscallExit .x86_64 t a 1 3 false = .ok { t with state := Function.update t.state 1 none } := by
      intro t h
      rw [onSyscallExit_of_some h rfl]
      simp only [Syscall.handler, syscallOpenExit, genericOpenExit, Bool.false_eq_true, if_false, hsupported,
        Bool.not_false, if_true]
    exact ⟨_, _, onSyscallEntry_of_entry rfl hentry rfl, hexit _ (by simp only [Function.update_self]), rfl⟩

end R4R
