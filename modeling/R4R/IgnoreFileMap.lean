import R4R.FileSystemTrie
import R4R.SymlinkResolver

/-!
# The ignore map

`IgnoreFileMap` and the calls that fill it.  Its wildcards are looked up by `find_last_matching`, so a wildcard below
another one takes away from the paths between the two what the other one covers.  A path under a wildcard is ignored,
and stays ignored whatever is added, exactly when after every call no wildcard makes such a detour along the path or
the path is ignored for another reason (`ignore_monotone_iff`).
-/

namespace R4R

/-- `IgnoreFileMap`. -/
structure IgnoreFileMap where
  wildcards : FileSystemTrie Bool := {}
  files : FileSystemTrie Bool := {}
  custom : List (Path → Bool) := []
  symlinkResolver : SymlinkResolver

/-- The calls that fill the map. -/
inductive AddCall where
  | addWildcard (path : Path)
  | addFile (path : Path)
  | addCustom (fun_ : Path → Bool)

/-- The path of a wildcard. -/
def AddCall.wildcard? : AddCall → Option Path
  | addWildcard path => some path
  | addFile _ => none
  | addCustom _ => none

/-- The path of a file. -/
def AddCall.file? : AddCall → Option Path
  | addWildcard _ => none
  | addFile path => some path
  | addCustom _ => none

/-- The function of a custom pattern. -/
def AddCall.custom? : AddCall → Option (Path → Bool)
  | addWildcard _ => none
  | addFile _ => none
  | addCustom f => some f

/-- `ignore_font_uuid_files`. -/
def ignoreFontUuidFiles (path : Path) : Bool :=
  ["/usr/share/fonts", "/usr/share/poppler", "/usr/share/texmf/fonts"].any fun d =>
    isSubPath path (Path.ofString d) && path.filename == ".uuid".toList

/-- `Tracer::configure_default_ignore_pattern`, with the value of `HOME`. -/
def configureDefaultIgnorePattern (home : Option Path) : List AddCall :=
  ["/dev", "/etc/ld.so.cache", "/etc/nsswitch.conf", "/etc/passwd", "/proc", "/sys",
      "/usr/lib/locale/locale-archive", "/usr/local/share/fonts", "/var/cache"].map
    (fun s => AddCall.addWildcard (Path.ofString s)) ++
  [.addFile (Path.ofString "/")] ++
  home.toList.map (fun dir => .addWildcard (dir / Path.ofString ".cache/fontconfig")) ++
  [.addCustom ignoreFontUuidFiles]

namespace IgnoreFileMap

/-- `add_wildcard`, `add_file` and `add_custom`. -/
def add (map : IgnoreFileMap) : AddCall → IgnoreFileMap
  | .addWildcard path => { map with wildcards := map.wildcards.insert path true }
  | .addFile path => { map with files := map.files.insert path true }
  | .addCustom f => { map with custom := map.custom ++ [f] }

/-- The map after a sequence of calls. -/
def ofCalls (r : SymlinkResolver) (calls : List AddCall) : IgnoreFileMap :=
  calls.foldl add { symlinkResolver := r }

/-- `IgnoreFileMap::ignore`; the loop over the names ends with the first hit, in whatever order it takes them. -/
def ignore (q : FileQueries) (fuel : Nat) (map : IgnoreFileMap) (path : Path) :
    Except (WorkList.Failure String) Bool := do
  if map.wildcards.findLastMatching path = some true then return true
  let names ← map.symlinkResolver.resolveSymlinks q fuel path
  if names.any fun p => map.files.find p = some true then return true
  return map.custom.any fun p => p path

/-! ### What the calls leave -/

variable {r : SymlinkResolver} {q : FileQueries} {fuel : Nat}

/-- The insertions that calls make into a trie of patterns. -/
def insertsOf (path? : AddCall → Option Path) (calls : List AddCall) : List (Path × Bool) :=
  (calls.filterMap path?).map (·, true)

theorem mem_insertsOf {path? : AddCall → Option Path} {calls : List AddCall} {e : Path × Bool} :
    e ∈ insertsOf path? calls ↔ e.2 = true ∧ ∃ call ∈ calls, path? call = some e.1 := by
  obtain ⟨path, b⟩ := e
  simp only [insertsOf, List.mem_map, List.mem_filterMap, Prod.mk.injEq]
  constructor
  · rintro ⟨path', ⟨call, hcall, hpath⟩, rfl, rfl⟩
    exact ⟨rfl, call, hcall, hpath⟩
  · rintro ⟨rfl, call, hcall, hpath⟩
    exact ⟨path, ⟨call, hcall, hpath⟩, rfl, rfl⟩

private theorem filterMap_concat {α : Type*} (f : AddCall → Option α) (calls : List AddCall) (call : AddCall) :
    (calls ++ [call]).filterMap f = calls.filterMap f ++ (f call).toList := by
  rw [List.filterMap_append]
  cases hf : f call <;> simp [hf]

/-- The map after the calls: its tries hold the wildcards and the files, its list the custom patterns. -/
theorem ofCalls_spec (r : SymlinkResolver) (calls : List AddCall) :
    ofCalls r calls = {
      wildcards := FileSystemTrie.ofInserts (insertsOf AddCall.wildcard? calls)
      files := FileSystemTrie.ofInserts (insertsOf AddCall.file? calls)
      custom := calls.filterMap AddCall.custom?
      symlinkResolver := r } := by
  induction calls using List.reverseRecOn with
  | nil => rfl
  | append_singleton calls call ih =>
    rw [ofCalls, List.foldl_append, ← ofCalls, ih]
    simp only [insertsOf, FileSystemTrie.ofInserts, filterMap_concat, List.map_append, List.foldl_append]
    cases call <;> simp [add, AddCall.wildcard?, AddCall.file?, AddCall.custom?]

/-- The path equals or lies under a path given to `add_wildcard`. -/
def UnderWildcard (calls : List AddCall) (p : Path) : Prop :=
  ∃ w, .addWildcard w ∈ calls ∧ w.components <+: p.components

/-- The path is ignored for another reason than a wildcard: one of its names is an added file, or a custom pattern
accepts it. -/
def OtherwiseIgnored (q : FileQueries) (fuel : Nat) (r : SymlinkResolver) (calls : List AddCall) (p : Path) : Prop :=
  ∃ names, r.resolveSymlinks q fuel p = .ok names ∧
    ((∃ a ∈ names, ∃ f, .addFile f ∈ calls ∧ f.components = a.components) ∨ ∃ f, .addCustom f ∈ calls ∧ f p = true)

/-- No wildcard goes along with the path further than the longest wildcard above it. -/
def NoWildcardDetour (calls : List AddCall) (p : Path) : Prop :=
  PrefixMap.NoDetour (FileSystemTrie.entriesOf (insertsOf AddCall.wildcard? calls)) p.components

theorem mem_wildcards {calls : List AddCall} {w : Path} :
    (w, true) ∈ insertsOf AddCall.wildcard? calls ↔ .addWildcard w ∈ calls := by
  rw [mem_insertsOf]
  constructor
  · rintro ⟨-, call, hcall, hw⟩
    cases call with
    | addWildcard path =>
      obtain rfl : path = w := Option.some.inj hw
      exact hcall
    | addFile path => cases hw
    | addCustom f => cases hw
  · intro h
    exact ⟨rfl, _, h, rfl⟩

private theorem mem_files {calls : List AddCall} {f : Path} :
    (f, true) ∈ insertsOf AddCall.file? calls ↔ .addFile f ∈ calls := by
  rw [mem_insertsOf]
  constructor
  · rintro ⟨-, call, hcall, hf⟩
    cases call with
    | addFile path =>
      obtain rfl : path = f := Option.some.inj hf
      exact hcall
    | addWildcard path => cases hf
    | addCustom f => cases hf
  · intro h
    exact ⟨rfl, _, h, rfl⟩

private theorem mem_custom {calls : List AddCall} {f : Path → Bool} :
    f ∈ calls.filterMap AddCall.custom? ↔ .addCustom f ∈ calls := by
  rw [List.mem_filterMap]
  constructor
  · rintro ⟨call, hcall, hf⟩
    cases call with
    | addCustom f' =>
      obtain rfl : f' = f := Option.some.inj hf
      exact hcall
    | addWildcard path => cases hf
    | addFile path => cases hf
  · intro h
    exact ⟨_, h, rfl⟩

/-- The wildcards cover a path that lies under one of them, unless one of them makes a detour along it. -/
private theorem findLastMatching_wildcards {calls : List AddCall} {p : Path} :
    (ofCalls r calls).wildcards.findLastMatching p = some true ↔
      UnderWildcard calls p ∧ NoWildcardDetour calls p := by
  rw [ofCalls_spec]
  constructor
  · intro h
    obtain ⟨hno, w, hw, hp⟩ := FileSystemTrie.findLastMatching_eq_some h
    exact ⟨⟨w, mem_wildcards.1 hw, hp⟩, hno⟩
  · rintro ⟨⟨w, hw, hp⟩, hno⟩
    obtain ⟨v, hv⟩ := Option.isSome_iff_exists.1
      (FileSystemTrie.findLastMatching_isSome (mem_wildcards.2 hw) hp hno)
    obtain ⟨-, path, hpath, -⟩ := FileSystemTrie.findLastMatching_eq_some hv
    obtain rfl : v = true := (mem_insertsOf.1 hpath).1
    exact hv

/-- A file is found under its own components. -/
private theorem find_files {calls : List AddCall} {a : Path} :
    (ofCalls r calls).files.find a = some true ↔ ∃ f, .addFile f ∈ calls ∧ f.components = a.components := by
  rw [ofCalls_spec]
  have hfind : ∀ inserts : List (Path × Bool), (FileSystemTrie.ofInserts inserts).find a =
      PrefixMap.lastAt (FileSystemTrie.entriesOf inserts) a.components :=
    fun inserts => FileSystemTrie.find_ofInserts inserts a.components
  constructor
  · intro h
    rw [hfind] at h
    obtain ⟨e, he, heq⟩ := List.mem_map.1 (PrefixMap.mem_of_lastAt h)
    obtain ⟨path, b⟩ := e
    obtain ⟨hcomp, rfl⟩ := Prod.mk.inj heq
    exact ⟨path, mem_files.1 he, hcomp⟩
  · rintro ⟨f, hf, hcomp⟩
    have hmem : a.components ∈ (FileSystemTrie.entriesOf (insertsOf AddCall.file? calls)).map Prod.fst := by
      rw [← hcomp]
      exact List.mem_map.2 ⟨_, List.mem_map_of_mem (mem_files.2 hf), rfl⟩
    change (FileSystemTrie.ofInserts _).find a = some true
    rw [hfind]
    cases hlast : PrefixMap.lastAt (FileSystemTrie.entriesOf (insertsOf AddCall.file? calls)) a.components with
    | none => exact absurd hmem (PrefixMap.lastAt_eq_none.1 hlast)
    | some v =>
      obtain ⟨e, he, heq⟩ := List.mem_map.1 (PrefixMap.mem_of_lastAt hlast)
      obtain ⟨-, rfl⟩ := Prod.mk.inj heq
      rw [(mem_insertsOf.1 he).1]

/-- A path is ignored because of a wildcard, or for another reason. -/
theorem ignore_iff {calls : List AddCall} {p : Path} :
    (ofCalls r calls).ignore q fuel p = .ok true ↔
      UnderWildcard calls p ∧ NoWildcardDetour calls p ∨ OtherwiseIgnored q fuel r calls p := by
  rw [← findLastMatching_wildcards (r := r), ignore]
  by_cases hw : (ofCalls r calls).wildcards.findLastMatching p = some true
  · rw [if_pos hw]
    exact iff_of_true rfl (.inl hw)
  · rw [if_neg hw]
    have hres : (ofCalls r calls).symlinkResolver = r := by rw [ofCalls_spec]
    have hcustom : (ofCalls r calls).custom = calls.filterMap AddCall.custom? := by rw [ofCalls_spec]
    rw [hres]
    unfold OtherwiseIgnored
    cases hnames : r.resolveSymlinks q fuel p with
    | error e => exact iff_of_false nofun fun h => h.elim hw fun ⟨names, hn, _⟩ => by cases hn
    | ok names =>
      have hany : (names.any fun a => (ofCalls r calls).files.find a = some true) = true ↔
          ∃ a ∈ names, ∃ f, .addFile f ∈ calls ∧ f.components = a.components := by
        simp only [List.any_eq_true, decide_eq_true_eq, find_files]
      have hcall : ((ofCalls r calls).custom.any fun f => f p) = true ↔ ∃ f, .addCustom f ∈ calls ∧ f p = true := by
        simp only [hcustom, List.any_eq_true, mem_custom]
      simp only [hw, false_or, Except.ok.injEq, exists_eq_left']
      rw [← hany, ← hcall]
      change (if _ then (Except.ok true : Except (WorkList.Failure String) Bool) else _) = _ ↔ _
      split
      · rename_i h
        exact iff_of_true rfl (.inl h)
      · rename_i h
        simp only [h, Bool.false_eq_true, false_or]
        exact ⟨fun he => Except.ok.inj he, fun he => congrArg Except.ok he⟩

private theorem OtherwiseIgnored.mono {calls calls' : List AddCall} (hsub : calls ⊆ calls') {p : Path}
    (h : OtherwiseIgnored q fuel r calls p) : OtherwiseIgnored q fuel r calls' p := by
  obtain ⟨names, hnames, hor⟩ := h
  refine ⟨names, hnames, ?_⟩
  rcases hor with ⟨a, ha, f, hf, hcomp⟩ | ⟨f, hf, hp⟩
  · exact .inl ⟨a, ha, f, hsub hf, hcomp⟩
  · exact .inr ⟨f, hsub hf, hp⟩

/-- Without a wildcard above the path there is no detour. -/
private theorem noWildcardDetour_of_not_under {calls : List AddCall} {p : Path} (h : ¬ UnderWildcard calls p) :
    NoWildcardDetour calls p := by
  refine .inl fun d hd hp => h ?_
  obtain ⟨e, he, rfl⟩ := List.mem_map.1 hd
  obtain ⟨⟨w, b⟩, hw, rfl⟩ := List.mem_map.1 he
  obtain rfl : b = true := (mem_insertsOf.1 hw).1
  exact ⟨w, mem_wildcards.1 hw, hp⟩

/-- Along a sequence of calls a path under a wildcard is ignored, and an ignored path stays ignored, exactly when after
every call no wildcard makes a detour along the path or the path is ignored for another reason. -/
theorem ignore_monotone_iff (q : FileQueries) (fuel : Nat) (r : SymlinkResolver) (calls : List AddCall) (p : Path) :
    (∀ before, before <+: calls →
      (UnderWildcard before p → (ofCalls r before).ignore q fuel p = .ok true) ∧
      ∀ further, before <+: further → further <+: calls →
        (ofCalls r before).ignore q fuel p = .ok true → (ofCalls r further).ignore q fuel p = .ok true) ↔
      ∀ before, before <+: calls → NoWildcardDetour before p ∨ OtherwiseIgnored q fuel r before p := by
  constructor
  · intro h before hbefore
    by_cases hunder : UnderWildcard before p
    · exact (ignore_iff.1 ((h before hbefore).1 hunder)).imp_left And.right
    · exact .inl (noWildcardDetour_of_not_under hunder)
  · intro h
    -- a path under a wildcard is ignored after every call
    have hignored : ∀ before, before <+: calls → UnderWildcard before p →
        (ofCalls r before).ignore q fuel p = .ok true := by
      intro before hbefore hunder
      exact ignore_iff.2 ((h before hbefore).imp_left fun hno => ⟨hunder, hno⟩)
    refine fun before hbefore => ⟨hignored before hbefore, fun further hsub hfurther hig => ?_⟩
    rcases ignore_iff.1 hig with ⟨⟨w, hw, hp⟩, -⟩ | hother
    · exact hignored further hfurther ⟨w, hsub.subset hw, hp⟩
    · exact ignore_iff.2 (.inr (hother.mono hsub.subset))

/-- A file system of which nothing is asked that is there. -/
def noFiles : FileQueries where
  existsAt := fun _ => .ok false
  equivalent := fun _ _ => .ok false
  isSymlink := fun _ => .ok false
  readSymlink := fun _ => .error "Invalid argument"
  isRegularFile := fun _ => .ok false
  isDirectory := fun _ => .ok false
  canIterate := fun _ => false
  canOpen := fun _ => false
  absolute := .ok

/-- With the default patterns and a home directory below `/var/cache`, the wildcard for its font cache takes its other
files out of the wildcard `/var/cache`. -/
theorem ignore_wildcard_below_wildcard :
    (ofCalls ⟨[]⟩ [.addWildcard (Path.ofString "/var/cache")]).ignore noFiles 2 (Path.ofString "/var/cache/ci/job") =
      .ok true ∧
    (ofCalls ⟨[]⟩ (configureDefaultIgnorePattern (some (Path.ofString "/var/cache/ci")))).ignore noFiles 2
      (Path.ofString "/var/cache/ci/job") = .ok false ∧
    UnderWildcard (configureDefaultIgnorePattern (some (Path.ofString "/var/cache/ci")))
      (Path.ofString "/var/cache/ci/job") := by
  refine ⟨by decide, by decide, Path.ofString "/var/cache", ?_, by decide⟩
  simp [configureDefaultIgnorePattern]

end IgnoreFileMap

end R4R
