import R4R.Lib.Lines
import R4R.ResolverRuns

/-!
# The package lists

`DpkgDatabase::from_path` inserts the paths in the list files of the packages into its trie, one package after another
in the iteration order of a hash table, so a path in several lists belongs to the package that is loaded last.
`DebPackageResolver` looks up every name of a traced path, also one that is no regular file.  So it adds only owners of
regular files, and takes nothing from a directory, exactly when no other name decides (`addsOwners_iff`).
-/

namespace R4R

/-- The iteration order that passes through the elements with a property last. -/
def HashOrder.moveLast {α : Type} (p : α → Bool) (order : HashOrder α) : HashOrder α where
  iterate := fun l => (order.iterate l).filter (fun a => !p a) ++ (order.iterate l).filter p
  perm := fun l => (List.perm_append_comm.trans (List.filter_append_perm p _)).trans (order.perm l)

/-- What `from_path` finds of the list files: `fs::is_regular_file`, and the text of a file that can be opened. -/
structure ListFiles where
  isRegularFile : Path → Except String Bool
  contents : Path → Option (List Char)

namespace DpkgDatabase

/-- The non-empty lines of a list file. -/
def listedPaths (text : List Char) : List Path := ((Lines.getLines text).filter fun line => !line.isEmpty).map Path.mk

/-- `DpkgDatabase::process_package_list_file`. -/
def processPackageListFile (d : ListFiles) (trie : FileSystemTrie DebPackage) (file : Path) (pkg : DebPackage) :
    Except String (FileSystemTrie DebPackage) :=
  match d.contents file with
  | none => .error ("Error opening file: " ++ String.ofList file.native)
  | some text => .ok ((listedPaths text).foldl (fun trie line => trie.insert line pkg) trie)

def listFile (dir : Path) (pkg : DebPackage) : Path := dir / Path.ofString (pkg.name ++ ".list")

/-- One package in the loop of `from_path`. -/
def loadStep (d : ListFiles) (dir : Path) (trie : FileSystemTrie DebPackage) (pkg : DebPackage) :
    Except String (FileSystemTrie DebPackage) := do
  if ← d.isRegularFile (listFile dir pkg) then processPackageListFile d trie (listFile dir pkg) pkg else return trie

/-- `DpkgDatabase::from_path`, from the installed packages on. -/
def fromPath (d : ListFiles) (order : HashOrder DebPackage) (packages : List DebPackage)
    (nodup : (packages.map DebPackage.name).Nodup) (dir : Path) : Except String DpkgDatabase := do
  let files ← (order.iterate packages).foldlM (loadStep d dir) {}
  return { packages, nodup, files }

/-- The path is in the list of the package. -/
def Lists (d : ListFiles) (dir : Path) (pkg : DebPackage) (p : Path) : Prop :=
  d.isRegularFile (listFile dir pkg) = .ok true ∧ ∃ text, d.contents (listFile dir pkg) = some text ∧
    ∃ line ∈ listedPaths text, line.components = p.components

/-! ### The package that is loaded last -/

/-- The paths that the list of a package adds to the trie. -/
def listing (d : ListFiles) (dir : Path) (pkg : DebPackage) : List (Path × DebPackage) :=
  match d.isRegularFile (listFile dir pkg), d.contents (listFile dir pkg) with
  | .ok true, some text => (listedPaths text).map (·, pkg)
  | _, _ => []

/-- The package that lists the path and is loaded last of those. -/
def lastOwner (d : ListFiles) (dir : Path) (pkgs : List DebPackage) (p : Path) : Option DebPackage :=
  PrefixMap.lastAt (FileSystemTrie.entriesOf (pkgs.flatMap (listing d dir))) p.components

section Load

variable {d : ListFiles} {dir : Path} {pkg : DebPackage} {p : Path}

private theorem mem_listing {path : Path} {pkg' : DebPackage} : (path, pkg') ∈ listing d dir pkg ↔ pkg' = pkg ∧
    d.isRegularFile (listFile dir pkg) = .ok true ∧
      ∃ text, d.contents (listFile dir pkg) = some text ∧ path ∈ listedPaths text := by
  unfold listing
  split
  · rename_i text hregular htext
    simp [hregular, htext, and_comm, eq_comm]
  · rename_i hno
    constructor
    · intro h
      cases h
    · rintro ⟨-, hregular, text, htext, -⟩
      exact absurd htext (hno text hregular)

private theorem loadStep_eq {trie trie' : FileSystemTrie DebPackage} (h : loadStep d dir trie pkg = .ok trie') :
    trie' = (listing d dir pkg).foldl (fun t e => t.insert e.1 e.2) trie := by
  obtain ⟨b, hb, h⟩ := Except.bind_eq_ok h
  unfold listing
  cases b with
  | false =>
    rw [hb]
    exact (Except.ok.inj h).symm
  | true =>
    change processPackageListFile d trie (listFile dir pkg) pkg = _ at h
    unfold processPackageListFile at h
    cases htext : d.contents (listFile dir pkg) with
    | none =>
      rw [htext] at h
      cases h
    | some text =>
      rw [htext] at h
      rw [hb, ← Except.ok.inj h, List.foldl_map]

private theorem foldlM_loadStep (pkgs : List DebPackage) : ∀ {trie trie' : FileSystemTrie DebPackage},
    pkgs.foldlM (loadStep d dir) trie = .ok trie' →
      trie' = (pkgs.flatMap (listing d dir)).foldl (fun t e => t.insert e.1 e.2) trie := by
  induction pkgs with
  | nil =>
    intro trie trie' h
    exact (Except.ok.inj h).symm
  | cons pkg pkgs ih =>
    intro trie trie' h
    rw [List.foldlM_cons] at h
    obtain ⟨trie₁, hstep, h⟩ := Except.bind_eq_ok h
    rw [ih h, loadStep_eq hstep, List.flatMap_cons, List.foldl_append]

/-- A lookup finds the package that was loaded last. -/
private theorem lookupByPath_fromPath {order : HashOrder DebPackage} {packages : List DebPackage}
    {nodup : (packages.map DebPackage.name).Nodup} {db : DpkgDatabase}
    (h : fromPath d order packages nodup dir = .ok db) (p : Path) :
    db.lookupByPath p = lastOwner d dir (order.iterate packages) p := by
  obtain ⟨files, hfiles, h⟩ := Except.bind_eq_ok h
  obtain rfl := Except.ok.inj h
  rw [lookupByPath, foldlM_loadStep _ hfiles]
  exact FileSystemTrie.find_ofInserts _ _

private theorem lists_of_lastOwner {pkgs : List DebPackage} (h : lastOwner d dir pkgs p = some pkg) :
    pkg ∈ pkgs ∧ Lists d dir pkg p := by
  obtain ⟨⟨path, pkg'⟩, he, heq⟩ := List.mem_map.1 (PrefixMap.mem_of_lastAt h)
  obtain ⟨hpath, rfl⟩ := Prod.mk.inj heq
  obtain ⟨pkg'', hmem, he⟩ := List.mem_flatMap.1 he
  obtain ⟨rfl, hregular, text, htext, hline⟩ := mem_listing.1 he
  exact ⟨hmem, hregular, text, htext, path, hline, hpath⟩

private theorem lastOwner_isSome {pkgs : List DebPackage} (hmem : pkg ∈ pkgs) (h : Lists d dir pkg p) :
    ∃ x, lastOwner d dir pkgs p = some x := by
  obtain ⟨hregular, text, htext, line, hline, hp⟩ := h
  rw [← Option.ne_none_iff_exists', lastOwner, ne_eq, PrefixMap.lastAt_eq_none, not_not]
  have he : (line, pkg) ∈ pkgs.flatMap (listing d dir) :=
    List.mem_flatMap.2 ⟨pkg, hmem, mem_listing.2 ⟨rfl, hregular, text, htext, hline⟩⟩
  exact List.mem_map.2 ⟨_, List.mem_map_of_mem he, hp⟩

private theorem lastOwner_append (pkgs later : List DebPackage) (p : Path) :
    lastOwner d dir (pkgs ++ later) p = (lastOwner d dir later p).or (lastOwner d dir pkgs p) := by
  unfold lastOwner FileSystemTrie.entriesOf
  rw [List.flatMap_append, List.map_append, PrefixMap.lastAt_append]

/-- A path in a list that is loaded later belongs to one of the later packages. -/
private theorem lastOwner_append_of_lists (pkgs : List DebPackage) {later : List DebPackage} (hmem : pkg ∈ later)
    (h : Lists d dir pkg p) : ∃ x ∈ later, lastOwner d dir (pkgs ++ later) p = some x := by
  obtain ⟨x, hx⟩ := lastOwner_isSome hmem h
  refine ⟨x, (lists_of_lastOwner hx).1, ?_⟩
  rw [lastOwner_append, hx]
  rfl

/-- Lists without the path change nothing. -/
private theorem lastOwner_append_of_not {pkgs later : List DebPackage} (h : ∀ x ∈ later, ¬ Lists d dir x p) :
    lastOwner d dir (pkgs ++ later) p = lastOwner d dir pkgs p := by
  rw [lastOwner_append]
  cases hx : lastOwner d dir later p with
  | none => rfl
  | some x =>
    obtain ⟨hmem, hlists⟩ := lists_of_lastOwner hx
    exact absurd hlists (h x hmem)

end Load

end DpkgDatabase

/-! ### What the resolver finds -/

/-- What a loop that erases what is found resolves. -/
private theorem mem_eraseIf_eraseFound {α P : Type} [DecidableEq P] {find : α → Resolving (Option P)} (as : List α) :
    ∀ {resolved resolved' : List P} {kept : List α},
      Except.eraseIf (eraseFound find) resolved as = .ok (resolved', kept) →
      (∀ a ∈ as, ∃ r, find a = .ok r) ∧ ∀ p, p ∈ resolved' ↔ p ∈ resolved ∨ ∃ a ∈ as, find a = .ok (some p) := by
  induction as with
  | nil =>
    intro resolved resolved' kept h
    obtain ⟨rfl, rfl⟩ := Prod.mk.inj (Except.ok.inj h)
    simp
  | cons a as ih =>
    intro resolved resolved' kept h
    rw [Except.eraseIf] at h
    cases hfind : find a with
    | error what =>
      rw [eraseFound, hfind] at h
      cases h
    | ok r =>
      obtain ⟨resolved₁, erased, hstep, hresolved₁⟩ : ∃ resolved₁ erased,
          eraseFound find resolved a = .ok (resolved₁, erased) ∧ ∀ p, p ∈ resolved₁ ↔ p ∈ resolved ∨ r = some p := by
        cases r with
        | none => exact ⟨resolved, false, by rw [eraseFound, hfind]; rfl, by simp⟩
        | some pkg =>
          refine ⟨Emplace.emplace id resolved pkg, true, by rw [eraseFound, hfind]; rfl, fun p => ?_⟩
          rw [Emplace.mem_emplace_id, Option.some.injEq, eq_comm (a := p)]
      rw [hstep] at h
      cases hrest : Except.eraseIf (eraseFound find) resolved₁ as with
      | error what => simp [hrest] at h
      | ok res =>
        obtain ⟨hall, hmem⟩ := ih hrest
        simp only [hrest, Except.ok.injEq, Prod.mk.injEq] at h
        obtain ⟨rfl, -⟩ := h
        refine ⟨List.forall_mem_cons.2 ⟨⟨r, hfind⟩, hall⟩, fun p => ?_⟩
        rw [hmem, hresolved₁, or_assoc, List.exists_mem_cons_iff, hfind, Except.ok.injEq]

namespace DebPackageResolver

/-- The paths that were traced. -/
def tracedPaths (s : TracerState) : List Path := s.tracedFiles.map FileInfo.path ++ s.tracedSymlinks.map Prod.fst

/-- The packages of the manifest are those from before and those found for a traced path. -/
private theorem mem_debPackages_resolve {e : ResolveEnv} {fuel : Nat} {s s' : TracerState}
    (h : resolve e fuel s = .ok s') :
    (∀ t ∈ tracedPaths s, ∃ r, packageOf e fuel t = .ok r) ∧
      ∀ x, x ∈ s'.manifest.debPackages ↔
        x ∈ s.manifest.debPackages ∨ ∃ t ∈ tracedPaths s, packageOf e fuel t = .ok (some x) := by
  obtain ⟨⟨resolved, files⟩, hfiles, h⟩ := Except.bind_eq_ok h
  obtain ⟨⟨resolved', links⟩, hlinks, h⟩ := Except.bind_eq_ok h
  obtain rfl := Except.ok.inj h
  obtain ⟨hallFiles, hmemFiles⟩ := mem_eraseIf_eraseFound _ hfiles
  obtain ⟨hallLinks, hmemLinks⟩ := mem_eraseIf_eraseFound _ hlinks
  constructor
  · intro t ht
    rcases List.mem_append.1 ht with ht | ht
    · obtain ⟨info, hinfo, rfl⟩ := List.mem_map.1 ht
      exact hallFiles info hinfo
    · obtain ⟨entry, hentry, rfl⟩ := List.mem_map.1 ht
      exact hallLinks entry hentry
  · intro x
    rw [TraceManifest.foldl_insertDebPackage]
    show x ∈ resolved'.foldl (Emplace.emplace id) s.manifest.debPackages ↔ _
    rw [Emplace.mem_foldl_emplace_id, hmemLinks, hmemFiles]
    simp [tracedPaths, or_and_right, exists_or]

/-- The package that is found for a list of names: every name before is in no list or belongs to a package that is
passed over. -/
private theorem findPackage_eq_some {e : ResolveEnv} {x : DebPackage} (names : List Path)
    (h : findPackage e names = .ok (some x)) : ∃ before n after, names = before ++ n :: after ∧
      e.dpkg.lookupByPath n = some x ∧ passedOver x = false ∧
      ∀ m ∈ before, ∀ y, e.dpkg.lookupByPath m = some y → passedOver y = true := by
  induction names with
  | nil => cases Except.ok.inj h
  | cons p ps ih =>
    rw [findPackage] at h
    cases hregular : e.queries.isRegularFile p with
    | error what =>
      rw [hregular] at h
      cases h
    | ok b =>
      rw [hregular] at h
      have hskip : findPackage e ps = .ok (some x) →
          (∀ y, e.dpkg.lookupByPath p = some y → passedOver y = true) →
          ∃ before n after, p :: ps = before ++ n :: after ∧ e.dpkg.lookupByPath n = some x ∧ passedOver x = false ∧
            ∀ m ∈ before, ∀ y, e.dpkg.lookupByPath m = some y → passedOver y = true := by
        intro hrest hp
        obtain ⟨before, n, after, rfl, hn, hx, hbefore⟩ := ih hrest
        exact ⟨p :: before, n, after, rfl, hn, hx, List.forall_mem_cons.2 ⟨hp, hbefore⟩⟩
      cases hl : e.dpkg.lookupByPath p with
      | none =>
        simp only [hl] at h
        refine hskip h fun y hy => ?_
        rw [hl] at hy
        cases hy
      | some pkg =>
        simp only [hl] at h
        split at h
        · rename_i hpass
          exact hskip h fun y hy => Option.some.inj (hl.symm.trans hy) ▸ hpass
        · rename_i hpass
          obtain rfl := Option.some.inj (Except.ok.inj h)
          exact ⟨[], p, ps, rfl, hl, by simpa using hpass, by simp⟩

/-- A package is found when its name is looked up and every name before it belongs to it, to a package that is passed
over, or to none. -/
private theorem findPackage_of_split {e : ResolveEnv} {x : DebPackage} (hx : passedOver x = false) {n : Path}
    (hn : e.dpkg.lookupByPath n = some x) (after before : List Path)
    (hbefore : ∀ m ∈ before, ∀ y, e.dpkg.lookupByPath m = some y → y = x ∨ passedOver y = true) {r : Option DebPackage}
    (h : findPackage e (before ++ n :: after) = .ok r) : r = some x := by
  induction before with
  | nil =>
    rw [List.nil_append, findPackage] at h
    cases hregular : e.queries.isRegularFile n with
    | error what =>
      rw [hregular] at h
      cases h
    | ok b =>
      rw [hregular] at h
      simp only [hn, hx] at h
      exact (Except.ok.inj h).symm
  | cons m before ih =>
    obtain ⟨hm, hbefore⟩ := List.forall_mem_cons.1 hbefore
    rw [List.cons_append, findPackage] at h
    cases hregular : e.queries.isRegularFile m with
    | error what =>
      rw [hregular] at h
      cases h
    | ok b =>
      rw [hregular] at h
      cases hl : e.dpkg.lookupByPath m with
      | none =>
        simp only [hl] at h
        exact ih hbefore h
      | some y =>
        simp only [hl] at h
        split at h
        · exact ih hbefore h
        · rename_i hpass
          obtain rfl | hy := hm y hl
          · exact (Except.ok.inj h).symm
          · exact absurd hy hpass

end DebPackageResolver

/-! ### The owners of regular files -/

/-- What the resolver is run on: the file system with its symlinks, the installed packages and their lists, and what
was traced. -/
structure DebSetting where
  env : ResolveEnv
  lists : ListFiles
  dir : Path
  packages : List DebPackage
  nodup : (packages.map DebPackage.name).Nodup
  fuel : Nat
  state : TracerState

namespace DebSetting

open DpkgDatabase DebPackageResolver

variable (c : DebSetting)

/-- The database when the lists are loaded in the given order. -/
def loaded (order : HashOrder DebPackage) : Except String ResolveEnv := do
  let db ← fromPath c.lists order c.packages c.nodup c.dir
  return { c.env with dpkg := db }

/-- In this load order the resolver returns. -/
def Returns (order : HashOrder DebPackage) (e : ResolveEnv) (s' : TracerState) : Prop :=
  c.loaded order = .ok e ∧ resolve e c.fuel c.state = .ok s'

def Alias (t n : Path) : Prop := c.env.debSymlinks.Alias c.env.queries t n

def Owns (x : DebPackage) (n : Path) : Prop := x ∈ c.packages ∧ Lists c.lists c.dir x n

def IsRegular (n : Path) : Prop := c.env.queries.isRegularFile n = .ok true

/-- The package owns an alias of a traced path that is a regular file. -/
def OwnsRegular (x : DebPackage) : Prop := ∃ t ∈ tracedPaths c.state, ∃ n, c.Alias t n ∧ c.IsRegular n ∧ c.Owns x n

/-- Each traced regular file belongs to one package, under whichever of its names. -/
def OneOwner : Prop := ∀ t ∈ tracedPaths c.state, (∃ n, c.Alias t n ∧ c.IsRegular n) →
  ∀ m m' x y, c.Alias t m → c.Alias t m' → c.Owns x m → c.Owns y m' → x = y

/-- In every load order the added packages own a traced regular file, and a traced directory adds none; when each
regular file belongs to one package the packages are the same in every order. -/
structure AddsOwners : Prop where
  owned : ∀ order e s', c.Returns order e s' → ∀ x ∈ s'.manifest.debPackages,
    x ∉ c.state.manifest.debPackages → c.OwnsRegular x
  directory : ∀ order e s', c.Returns order e s' → ∀ t ∈ tracedPaths c.state,
    c.env.queries.isDirectory t = .ok true → ∀ x, x ∉ c.state.manifest.debPackages →
      packageOf e c.fuel t ≠ .ok (some x)
  sameInEveryOrder : c.OneOwner → ∀ order e s' order' e' s'', c.Returns order e s' → c.Returns order' e' s'' →
    ∀ x, x ∈ s'.manifest.debPackages ↔ x ∈ s''.manifest.debPackages

/-- The package lists the name of the path, and every name that is looked up before is in no list or in that of a
package that is passed over. -/
def ReachedAt (t n : Path) (x : DebPackage) : Prop :=
  ∃ names before after, c.env.debSymlinks.resolveSymlinks c.env.queries c.fuel t = .ok names ∧
    c.env.names.iterate names = before ++ n :: after ∧ c.Owns x n ∧ passedOver x = false ∧
      ∀ m ∈ before, (∀ y, ¬ c.Owns y m) ∨ ∃ y, passedOver y = true ∧ c.Owns y m

/-- No name that is no regular file decides: a package that is reached at one owns a traced regular file, too, and
nothing is reached at the names of a directory. -/
def RegularDecides : Prop := ∀ t ∈ tracedPaths c.state, ∀ n x, c.ReachedAt t n x → x ∉ c.state.manifest.debPackages →
  c.env.queries.isDirectory t ≠ .ok true ∧ (¬ c.IsRegular n → c.OwnsRegular x)

/-- The load order that ends with the packages that are passed over and the given one. -/
def lastOf (x : DebPackage) : HashOrder DebPackage := (HashOrder.id.moveLast passedOver).moveLast (· = x)

variable {c} {order : HashOrder DebPackage} {e : ResolveEnv} {s' : TracerState} {t n : Path} {x : DebPackage}

private theorem lookupByPath_loaded (h : c.loaded order = .ok e) (p : Path) :
    e.dpkg.lookupByPath p = lastOwner c.lists c.dir (order.iterate c.packages) p := by
  obtain ⟨db, hdb, h⟩ := Except.bind_eq_ok h
  obtain rfl := Except.ok.inj h
  exact lookupByPath_fromPath hdb p

private theorem owns_of_lookup (h : c.loaded order = .ok e) (hl : e.dpkg.lookupByPath n = some x) : c.Owns x n := by
  rw [lookupByPath_loaded h] at hl
  obtain ⟨hmem, hlists⟩ := lists_of_lastOwner hl
  exact ⟨(order.perm _).mem_iff.1 hmem, hlists⟩

private theorem lookup_of_owns (h : c.loaded order = .ok e) (hx : c.Owns x n) :
    ∃ y, e.dpkg.lookupByPath n = some y := by
  rw [lookupByPath_loaded h]
  exact lastOwner_isSome ((order.perm _).mem_iff.2 hx.1) hx.2

/-- The database does not change the names of a path. -/
private theorem packageOf_loaded (h : c.loaded order = .ok e) {r : Option DebPackage} :
    packageOf e c.fuel t = .ok r ↔ ∃ names,
      c.env.debSymlinks.resolveSymlinks c.env.queries c.fuel t = .ok names ∧
        findPackage e (c.env.names.iterate names) = .ok r := by
  obtain ⟨db, -, h⟩ := Except.bind_eq_ok h
  obtain rfl := Except.ok.inj h
  unfold packageOf
  constructor
  · exact Except.bind_eq_ok
  · rintro ⟨names, hnames, hr⟩
    rw [show c.env.debSymlinks.resolveSymlinks c.env.queries c.fuel t = .ok names from hnames]
    exact hr

/-- What is found for a path is reached at one of its names. -/
private theorem reachedAt_of_packageOf (h : c.loaded order = .ok e) (hx : packageOf e c.fuel t = .ok (some x)) :
    ∃ n, c.ReachedAt t n x := by
  obtain ⟨names, hnames, hfind⟩ := (packageOf_loaded h).1 hx
  obtain ⟨before, n, after, hsplit, hn, hpass, hbefore⟩ := findPackage_eq_some _ hfind
  refine ⟨n, names, before, after, hnames, hsplit, owns_of_lookup h hn, hpass, fun m hm => ?_⟩
  cases hl : e.dpkg.lookupByPath m with
  | none =>
    refine .inl fun y hy => ?_
    obtain ⟨z, hz⟩ := lookup_of_owns h hy
    rw [hl] at hz
    cases hz
  | some y => exact .inr ⟨y, hbefore m hm y hl, owns_of_lookup h hl⟩

private theorem ReachedAt.isAlias (h : c.ReachedAt t n x) : c.Alias t n := by
  obtain ⟨names, before, after, hnames, hsplit, -⟩ := h
  refine ⟨c.fuel, names, hnames, (c.env.names.perm names).mem_iff.1 ?_⟩
  rw [hsplit]
  simp

/-- With the package loaded last, its names are looked up as it and those of a package passed over as such a one. -/
private theorem lookup_lastOf (h : c.loaded (lastOf x) = .ok e) (hmem : x ∈ c.packages) (hpass : passedOver x = false)
    (m : Path) :
    (c.Owns x m → e.dpkg.lookupByPath m = some x) ∧
      (¬ c.Owns x m → (∃ y, passedOver y = true ∧ c.Owns y m) →
        ∃ z, e.dpkg.lookupByPath m = some z ∧ passedOver z = true) := by
  rw [lookupByPath_loaded h]
  constructor
  · rintro ⟨-, hlists⟩
    have hlast : x ∈ ((HashOrder.id.moveLast passedOver).iterate c.packages).filter (decide <| · = x) :=
      List.mem_filter.2 ⟨((HashOrder.id.moveLast passedOver).perm _).mem_iff.2 hmem, by simp⟩
    obtain ⟨y, hy, hfound⟩ := lastOwner_append_of_lists
      (((HashOrder.id.moveLast passedOver).iterate c.packages).filter fun a => !decide (a = x)) hlast hlists
    obtain rfl : y = x := by simpa using (List.mem_filter.1 hy).2
    exact hfound
  · rintro hnot ⟨y, hy, hymem, hlists⟩
    have hne : y ≠ x := by
      rintro rfl
      rw [hpass] at hy
      cases hy
    rw [lastOf, HashOrder.moveLast, lastOwner_append_of_not]
    · rw [HashOrder.moveLast, List.filter_append]
      have hpassed : y ∈ (c.packages.filter passedOver).filter fun a => !decide (a = x) :=
        List.mem_filter.2 ⟨List.mem_filter.2 ⟨hymem, hy⟩, by simpa using hne⟩
      obtain ⟨z, hz, hfound⟩ := lastOwner_append_of_lists
        ((c.packages.filter fun a => !passedOver a).filter fun a => !decide (a = x)) hpassed hlists
      exact ⟨z, hfound, (List.mem_filter.1 (List.mem_filter.1 hz).1).2⟩
    · intro z hz hlists'
      obtain rfl : z = x := by simpa using (List.mem_filter.1 hz).2
      exact hnot ⟨hmem, hlists'⟩

/-- A package that is reached at a name is found when it is loaded last. -/
private theorem packageOf_lastOf (h : c.loaded (lastOf x) = .ok e) (hx : c.ReachedAt t n x) {r : Option DebPackage}
    (hr : packageOf e c.fuel t = .ok r) : r = some x := by
  obtain ⟨names, before, after, hnames, hsplit, hn, hpass, hbefore⟩ := hx
  obtain ⟨names', hnames', hfind⟩ := (packageOf_loaded h).1 hr
  obtain rfl : names = names' := Except.ok.inj (hnames.symm.trans hnames')
  rw [hsplit] at hfind
  have hlookup := lookup_lastOf h hn.1 hpass
  refine findPackage_of_split hpass ((hlookup n).1 hn) after before (fun m hm y hy => ?_) hfind
  by_cases hxm : c.Owns x m
  · rw [(hlookup m).1 hxm] at hy
    exact .inl (Option.some.inj hy).symm
  · rcases hbefore m hm with hno | hpassed
    · exact absurd (owns_of_lookup h hy) (hno y)
    · obtain ⟨z, hz, hzpass⟩ := (hlookup m).2 hxm hpassed
      rw [hz] at hy
      exact .inr (Option.some.inj hy ▸ hzpass)

private theorem Alias.mem_names (h : c.Alias t n) {names : List Path}
    (hnames : c.env.debSymlinks.resolveSymlinks c.env.queries c.fuel t = .ok names) :
    n ∈ c.env.names.iterate names := by
  obtain ⟨fuel, names', hnames', hn⟩ := h
  obtain rfl := WorkList.loop_unique hnames hnames'
  exact (c.env.names.perm names).mem_iff.2 hn

/-- What owns a traced regular file is found in every load order when each regular file belongs to one package. -/
private theorem mem_debPackages_of_ownsRegular (hone : c.OneOwner) (h : c.Returns order e s') (hx : c.OwnsRegular x)
    (hpass : passedOver x = false) : x ∈ s'.manifest.debPackages := by
  obtain ⟨t, ht, n, hn, hregular, howns⟩ := hx
  obtain ⟨hall, hmem⟩ := mem_debPackages_resolve h.2
  obtain ⟨r, hr⟩ := hall t ht
  obtain ⟨names, hnames, hfind⟩ := (packageOf_loaded h.1).1 hr
  have honly : ∀ m ∈ c.env.names.iterate names, ∀ y, e.dpkg.lookupByPath m = some y → y = x := by
    intro m hm y hy
    have hm' : c.Alias t m := ⟨c.fuel, names, hnames, (c.env.names.perm names).mem_iff.1 hm⟩
    exact hone t ht ⟨n, hn, hregular⟩ m n y x hm' hn (owns_of_lookup h.1 hy) howns
  obtain ⟨before, after, hsplit⟩ := List.append_of_mem (hn.mem_names hnames)
  rw [hsplit] at hfind honly
  obtain ⟨y, hy⟩ := lookup_of_owns h.1 howns
  obtain rfl := honly n (by simp) y hy
  obtain rfl := findPackage_of_split hpass hy after before
    (fun m hm z hz => .inl (honly m (List.mem_append_left _ hm) z hz)) hfind
  exact (hmem y).2 (.inr ⟨t, ht, hr⟩)

/-- The packages that are added own traced regular files, and none is added for a directory, when only regular files
decide.  The converse holds when the resolver returns in every load order. -/
theorem addsOwners_iff (c : DebSetting) : (c.RegularDecides → c.AddsOwners) ∧
    ((∀ order, ∃ e s', c.Returns order e s') → c.AddsOwners → c.RegularDecides) := by
  constructor
  · intro hcond
    have howned : ∀ order e s', c.Returns order e s' → ∀ x ∈ s'.manifest.debPackages,
        x ∉ c.state.manifest.debPackages → c.OwnsRegular x ∧ passedOver x = false := by
      intro order e s' h x hx hnew
      rcases ((mem_debPackages_resolve h.2).2 x).1 hx with hold | ⟨t, ht, hfound⟩
      · exact absurd hold hnew
      · obtain ⟨n, hn⟩ := reachedAt_of_packageOf h.1 hfound
        have hpass := hn
        obtain ⟨_, _, _, -, -, howns, hpass, -⟩ := hpass
        refine ⟨?_, hpass⟩
        by_cases hregular : c.IsRegular n
        · exact ⟨t, ht, n, hn.isAlias, hregular, howns⟩
        · exact (hcond t ht n x hn hnew).2 hregular
    refine ⟨fun order e s' h x hx hnew => (howned order e s' h x hx hnew).1, ?_, ?_⟩
    · intro order e s' h t ht hdir x hnew hfound
      obtain ⟨n, hn⟩ := reachedAt_of_packageOf h.1 hfound
      exact (hcond t ht n x hn hnew).1 hdir
    · have hsub : c.OneOwner → ∀ order e s' order' e' s'', c.Returns order e s' → c.Returns order' e' s'' →
          ∀ x ∈ s'.manifest.debPackages, x ∈ s''.manifest.debPackages := by
        intro hone order e s' order' e' s'' h h' x hx
        by_cases hold : x ∈ c.state.manifest.debPackages
        · exact ((mem_debPackages_resolve h'.2).2 x).2 (.inl hold)
        · obtain ⟨hregular, hpass⟩ := howned order e s' h x hx hold
          exact mem_debPackages_of_ownsRegular hone h' hregular hpass
      intro hone order e s' order' e' s'' h h' x
      exact ⟨hsub hone order e s' order' e' s'' h h' x, hsub hone order' e' s'' order e s' h' h x⟩
  · intro hreturns hadds t ht n x hx hnew
    obtain ⟨e, s', h⟩ := hreturns (lastOf x)
    obtain ⟨hall, hmem⟩ := mem_debPackages_resolve h.2
    obtain ⟨r, hr⟩ := hall t ht
    obtain rfl := packageOf_lastOf h.1 hx hr
    refine ⟨fun hdir => hadds.directory _ e s' h t ht hdir x hnew hr, fun _ => ?_⟩
    exact hadds.owned _ e s' h x ((hmem x).2 (.inr ⟨t, ht, hr⟩)) hnew

/-- The machine with the directory `/usr` and the file `/usr/bin/ls`. -/
def usrMachine : PosixFiles where
  existsAt := fun p => .ok (p.native == "/usr".toList || p.native == "/usr/bin/ls".toList)
  equivalent := fun p p' => .ok (p.native == p'.native)
  isSymlink := fun _ => .ok false
  readSymlink := fun _ => .error "Invalid argument"
  isRegularFile := fun p => .ok (p.native == "/usr/bin/ls".toList)
  isDirectory := fun p => .ok (p.native == "/usr".toList)
  canIterate := fun p => p.native == "/usr".toList
  canOpen := fun p => p.native == "/usr/bin/ls".toList
  absolute := .ok
  pathMax := 11
  length_le := by
    rintro p (h | h)
    · simp only [Except.ok.injEq, Bool.or_eq_true, beq_iff_eq] at h
      rcases h with h | h <;> rw [h] <;> decide
    · cases h

/-- Two packages, both with `/usr` in their lists, and the traced path. -/
def usrSetting (traced : Path) : DebSetting where
  env := { oneFileEnv with files := usrMachine }
  lists := ⟨fun _ => .ok true, fun p => some (if p.native == "/var/lib/dpkg/info/base-files.list".toList
    then "/.\n/usr\n".toList else "/usr\n/usr/bin\n/usr/bin/ls\n".toList)⟩
  dir := .ofString "/var/lib/dpkg/info/"
  packages := [⟨"base-files", "12ubuntu4"⟩, ⟨"coreutils", "9.1"⟩]
  nodup := by decide
  fuel := 2
  state := { tracedFiles := [⟨traced, none, true⟩], tracedSymlinks := [], manifest := { copyFiles := .empty } }

private theorem resolveSymlinks_usr (traced p : Path) : (usrSetting traced).env.debSymlinks.resolveSymlinks
    (usrSetting traced).env.queries (usrSetting traced).fuel p = .ok [p] := WorkList.loop_of_nil rfl 1

theorem addsOwners_ls : (usrSetting (.ofString "/usr/bin/ls")).AddsOwners := by
  refine (addsOwners_iff _).1 fun t ht n x hx _ => ?_
  obtain rfl : t = .ofString "/usr/bin/ls" := List.mem_singleton.1 ht
  obtain ⟨names, before, after, hnames, hsplit, -⟩ := hx
  obtain rfl := Except.ok.inj (hnames.symm.trans (resolveSymlinks_usr _ _))
  have hn : n ∈ before ++ n :: after := by simp
  rw [← hsplit] at hn
  obtain rfl := List.mem_singleton.1 hn
  exact ⟨nofun, fun h => absurd rfl h⟩

/-- The traced directory `/usr` adds the package whose list is loaded last. -/
theorem not_addsOwners_usr :
    (∃ e s', (usrSetting (.ofString "/usr")).Returns .id e s' ∧ s'.manifest.debPackages = [⟨"coreutils", "9.1"⟩]) ∧
    (∃ e s', (usrSetting (.ofString "/usr")).Returns ⟨List.reverse, List.reverse_perm⟩ e s' ∧
      s'.manifest.debPackages = [⟨"base-files", "12ubuntu4"⟩]) ∧
    ¬ (usrSetting (.ofString "/usr")).AddsOwners := by
  have hid : ∃ e s', (usrSetting (.ofString "/usr")).Returns .id e s' ∧
      s'.manifest.debPackages = [⟨"coreutils", "9.1"⟩] := ⟨_, _, ⟨rfl, rfl⟩, rfl⟩
  refine ⟨hid, ⟨_, _, ⟨rfl, rfl⟩, rfl⟩, fun hadds => ?_⟩
  obtain ⟨e, s', hreturns, hpkgs⟩ := hid
  have hmem : ⟨"coreutils", "9.1"⟩ ∈ s'.manifest.debPackages := hpkgs ▸ List.mem_singleton_self _
  obtain ⟨t, ht, n, hn, hregular, -⟩ := hadds.owned _ e s' hreturns _ hmem List.not_mem_nil
  obtain rfl : t = .ofString "/usr" := List.mem_singleton.1 ht
  obtain rfl := List.mem_singleton.1 (hn.mem_names (resolveSymlinks_usr _ _))
  cases Except.ok.inj hregular

end DebSetting

end R4R
