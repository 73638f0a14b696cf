import R4R.Lib.Emplace
import R4R.PathLookup
import R4R.SymlinkResolver

/-!
# What the file system answers about names

The answers of `std::filesystem` in a file system whose symlinks have texts, for a process in a current directory:
those of a kernel with its limits on links and on the length of names, and those without any limit.
-/

namespace R4R

open FileTree

/-- A file system with the texts of its symlinks.  The text of a symlink is itself a name that can be looked up. -/
structure LinkedFiles extends FileSystem where
  finite : {loc | (node loc).isSome = true}.Finite
  text : Location (List Char) → Path
  /-- `PATH_MAX`, which counts the null character at the end -/
  pathMax : Nat
  isAbsolute_text : ∀ {link absolute target}, node link = some (.symlink absolute target) →
    (text link).isAbsolute = absolute
  components_text : ∀ {link absolute target}, node link = some (.symlink absolute target) →
    (text link).lookupComponents = target
  text_ne_nil : ∀ {link absolute target}, node link = some (.symlink absolute target) → (text link).native ≠ []
  text_lt : ∀ {link absolute target}, node link = some (.symlink absolute target) →
    (text link).native.length < pathMax

/-- The answer of `stat` or `lstat`: where a name leads, if it leads somewhere. -/
abbrev StatAnswer := Except String (Option (Location (List Char)))

/-- A text for `errno` when there are too many links. -/
def loopError : String := "Too many levels of symbolic links"

namespace LinkedFiles

variable (fs : LinkedFiles)

/-- `stat`, or `lstat` unless links at the end are followed. -/
def stat (cwd : Location (List Char)) (follow : Bool) (p : Path) : StatAnswer :=
  if fs.pathMax ≤ p.native.length then .error "File name too long"
  else match fs.lookupAt follow cwd p with
    | .ok loc => .ok (some loc)
    | .error .missing => .ok none
    | .error .notDirectory => .ok none
    | .error .loop => .error loopError

/-- The name leads to the location, through any number of links. -/
def Leads (cwd : Location (List Char)) (follow : Bool) (p : Path) (loc : Location (List Char)) : Prop :=
  p.native ≠ [] ∧ ∃ k, fs.Walks follow (if p.isAbsolute then [] else cwd) p.lookupComponents k loc

/-- The lookup comes to a name that is missing, or to a file where there should be a directory. -/
def Missing (cwd : Location (List Char)) (follow : Bool) (p : Path) : Prop :=
  p.native = [] ∨ ∃ links e, e ≠ LookupError.loop ∧
    fs.walk follow links (if p.isAbsolute then [] else cwd) p.lookupComponents = .error e

open Classical in
/-- `stat` and `lstat` without limits: only a name that leads in a circle has too many links. -/
noncomputable def unlimitedStat (cwd : Location (List Char)) (follow : Bool) (p : Path) : StatAnswer :=
  if h : ∃ loc, fs.Leads cwd follow p loc then .ok (some h.choose)
  else if fs.Missing cwd follow p then .ok none
  else .error loopError

variable (stat : Bool → Path → StatAnswer)

def isSymlinkAt (loc : Location (List Char)) : Bool :=
  match fs.node loc with
  | some (.symlink _ _) => true
  | some .directory => false
  | some (.regular _) => false
  | none => false

def isRegularAt (loc : Location (List Char)) : Bool :=
  match fs.node loc with
  | some (.regular _) => true
  | some .directory => false
  | some (.symlink _ _) => false
  | none => false

/-- `fs::equivalent` -/
def equivalentOf (p q : Path) : Except String Bool :=
  match stat true p, stat true q with
  | .ok (some loc), .ok (some loc') => .ok (fs.sameFile loc loc')
  | .ok (some _), .ok none => .ok false
  | .ok none, .ok (some _) => .ok false
  | .ok (some _), .error e => .error e
  | .error e, .ok (some _) => .error e
  | .ok none, _ => .error "No such file or directory"
  | .error _, _ => .error "No such file or directory"

/-- `fs::read_symlink` -/
def readSymlinkOf (p : Path) : Except String Path := do
  match ← stat false p with
  | none => throw "No such file or directory"
  | some loc => if fs.isSymlinkAt loc then pure (fs.text loc) else throw "Invalid argument"

/-- The answers for a process in the directory `cwd`, read off `stat`. -/
def queries (cwd : Location (List Char)) : FileQueries where
  existsAt := fun p => (stat true p).map Option.isSome
  equivalent := fs.equivalentOf stat
  isSymlink := fun p => (stat false p).map fun loc => loc.any fs.isSymlinkAt
  readSymlink := fs.readSymlinkOf stat
  isRegularFile := fun p => (stat true p).map fun loc => loc.any fs.isRegularAt
  isDirectory := fun p => (stat true p).map fun loc => loc.any fs.isDirectory
  canIterate := fun p => orFalse ((stat true p).map fun loc => loc.any fs.isDirectory)
  canOpen := fun p => orFalse ((stat true p).map Option.isSome)
  absolute := fun p =>
    if p.native.isEmpty then .error "Invalid argument" else .ok (if p.isAbsolute then p else pathOf cwd / p)

/-- `fs::canonical` -/
def canonical (p : Path) : Except String Path := do
  match ← stat true p with
  | none => throw "No such file or directory"
  | some loc => pure (pathOf loc)

/-! ### Where names lead -/

section Lookup

variable {fs : LinkedFiles} {cwd loc loc' link : Location (List Char)} {follow : Bool} {p q : Path}

private theorem Leads.unique (h : fs.Leads cwd follow p loc) (h' : fs.Leads cwd follow p loc') : loc = loc' := by
  obtain ⟨-, k, hw⟩ := h
  obtain ⟨-, k', hw'⟩ := h'
  exact (hw.unique hw').2

theorem stat_eq_some : fs.stat cwd follow p = .ok (some loc) ↔ p.native.length < fs.pathMax ∧ p.native ≠ [] ∧
    ∃ k ≤ maxSymlinks, fs.Walks follow (if p.isAbsolute then [] else cwd) p.lookupComponents k loc := by
  unfold stat FileSystem.lookupAt
  rw [← LinkTree.walk_eq_ok_iff]
  by_cases hlen : fs.pathMax ≤ p.native.length
  · simp [hlen]
  · by_cases hne : p.native = []
    · rw [if_neg hlen, if_pos (by simpa using hne)]
      simp [hne]
    · rw [if_neg hlen, if_neg (by simpa using hne)]
      split
      · rename_i loc₁ h
        simp [h, hne, Nat.lt_of_not_le hlen]
      all_goals (rename_i h; simp [h])

theorem unlimitedStat_eq_some : fs.unlimitedStat cwd follow p = .ok (some loc) ↔ fs.Leads cwd follow p loc := by
  unfold unlimitedStat
  split
  · rename_i h
    constructor
    · intro heq
      cases heq
      exact h.choose_spec
    · intro hleads
      rw [hleads.unique h.choose_spec]
  · rename_i h
    have hnot : ¬ fs.Leads cwd follow p loc := fun hleads => h ⟨loc, hleads⟩
    refine iff_of_false ?_ hnot
    by_cases hmissing : fs.Missing cwd follow p
    · simp [hmissing]
    · simp [hmissing]

theorem leads_of_stat (h : fs.stat cwd follow p = .ok (some loc)) : fs.Leads cwd follow p loc := by
  obtain ⟨-, hne, k, -, hw⟩ := stat_eq_some.1 h
  exact ⟨hne, k, hw⟩

/-- Without limits a name leads where the kernel finds that it leads. -/
theorem unlimitedStat_of_stat (h : fs.stat cwd follow p = .ok (some loc)) :
    fs.unlimitedStat cwd follow p = .ok (some loc) :=
  unlimitedStat_eq_some.2 (leads_of_stat h)

theorem isSymlinkAt_iff : fs.isSymlinkAt loc = true ↔
    ∃ absolute target, fs.node loc = some (.symlink absolute target) := by
  unfold isSymlinkAt
  split <;> simp_all

/-- A name that leads to a file is the name of something itself. -/
theorem stat_false (h : fs.stat cwd true p = .ok (some loc)) : ∃ loc', fs.stat cwd false p = .ok (some loc') := by
  obtain ⟨hlen, hne, k, hk, hw⟩ := stat_eq_some.1 h
  rcases hw.stop_or_link with hw | ⟨k₁, k₂, link, absolute, target, rfl, hw, -, -⟩
  · exact ⟨loc, stat_eq_some.2 ⟨hlen, hne, k, hk, hw⟩⟩
  · exact ⟨link, stat_eq_some.2 ⟨hlen, hne, k₁, by omega, hw⟩⟩

/-- An absolute text of a symlink leads where the symlink leads, on a part of its way. -/
private theorem walks_text {k : Nat} (habs : p.isAbsolute = true)
    (h : fs.Walks true (if p.isAbsolute then [] else cwd) p.lookupComponents k loc) (hlink : fs.Leads cwd false p link)
    (hsymlink : fs.isSymlinkAt link = true) (htext : (fs.text link).isAbsolute = true) :
    (fs.text link).native ≠ [] ∧ (fs.text link).native.length < fs.pathMax ∧
      ∃ k' ≤ k,
        fs.Walks true (if (fs.text link).isAbsolute then [] else cwd) (fs.text link).lookupComponents k' loc := by
  obtain ⟨-, k₁, hstop⟩ := hlink
  obtain ⟨absolute, target, hnode⟩ := isSymlinkAt_iff.1 hsymlink
  rw [if_pos habs] at h hstop
  obtain ⟨k₂, rfl, hrest⟩ := h.target_of_link hstop hnode
  refine ⟨fs.text_ne_nil hnode, fs.text_lt hnode, k₂, by omega, ?_⟩
  rw [fs.isAbsolute_text hnode] at htext
  rw [fs.isAbsolute_text hnode, fs.components_text hnode, if_pos htext]
  rwa [if_pos htext] at hrest

/-- An absolute text of a symlink leads where the symlink leads. -/
theorem leads_text (habs : p.isAbsolute = true) (h : fs.Leads cwd true p loc) (hlink : fs.Leads cwd false p link)
    (hsymlink : fs.isSymlinkAt link = true) (htext : (fs.text link).isAbsolute = true) :
    fs.Leads cwd true (fs.text link) loc := by
  obtain ⟨-, k, hw⟩ := h
  obtain ⟨hne, -, k', -, hw'⟩ := walks_text habs hw hlink hsymlink htext
  exact ⟨hne, k', hw'⟩

/-- The kernel finds an absolute text of a symlink where it finds the symlink. -/
theorem stat_text (habs : p.isAbsolute = true) (h : fs.stat cwd true p = .ok (some loc))
    (hlink : fs.stat cwd false p = .ok (some link)) (hsymlink : fs.isSymlinkAt link = true)
    (htext : (fs.text link).isAbsolute = true) : fs.stat cwd true (fs.text link) = .ok (some loc) := by
  obtain ⟨-, -, k, hk, hw⟩ := stat_eq_some.1 h
  obtain ⟨hne, hlt, k', hk', hw'⟩ := walks_text habs hw (leads_of_stat hlink) hsymlink htext
  exact stat_eq_some.2 ⟨hlt, hne, k', by omega, hw'⟩

/-! ### What the answers say -/

section Queries

variable {stat : Bool → Path → StatAnswer} {text : Path}

theorem existsAt_queries_iff :
    (fs.queries stat cwd).existsAt p = .ok true ↔ ∃ loc, stat true p = .ok (some loc) := by
  cases h : stat true p with
  | error e => simp [queries, h, Except.map]
  | ok loc => cases loc <;> simp [queries, h, Except.map]

theorem isDirectory_queries_iff : (fs.queries stat cwd).isDirectory p = .ok true ↔
    ∃ loc, stat true p = .ok (some loc) ∧ fs.node loc = some .directory := by
  cases h : stat true p with
  | error e => simp [queries, h, Except.map]
  | ok loc => cases loc <;> simp [queries, h, Except.map, LinkTree.isDirectory_iff]

theorem isSymlink_queries_iff : (fs.queries stat cwd).isSymlink p = .ok true ↔
    ∃ loc, stat false p = .ok (some loc) ∧ fs.isSymlinkAt loc = true := by
  cases h : stat false p with
  | error e => simp [queries, h, Except.map]
  | ok loc => cases loc <;> simp [queries, h, Except.map]

/-- A name of a symlink has a text. -/
theorem readSymlink_queries_iff : (fs.queries stat cwd).readSymlink p = .ok text ↔
    ∃ loc, stat false p = .ok (some loc) ∧ fs.isSymlinkAt loc = true ∧ fs.text loc = text := by
  change fs.readSymlinkOf stat p = .ok text ↔ _
  unfold readSymlinkOf
  cases h : stat false p with
  | error e => simp [bind, Except.bind]
  | ok loc =>
    cases loc with
    | none => simp [bind, Except.bind, throw, throwThe, MonadExceptOf.throw]
    | some loc =>
      cases hsymlink : fs.isSymlinkAt loc <;>
        simp [hsymlink, bind, Except.bind, throw, throwThe, MonadExceptOf.throw, pure, Except.pure]

theorem isSymlink_queries_iff_readSymlink : (fs.queries stat cwd).isSymlink p = .ok true ↔
    ∃ text, (fs.queries stat cwd).readSymlink p = .ok text := by
  simp only [isSymlink_queries_iff, readSymlink_queries_iff]
  constructor
  · rintro ⟨loc, hloc, hsymlink⟩
    exact ⟨fs.text loc, loc, hloc, hsymlink, rfl⟩
  · rintro ⟨text, loc, hloc, hsymlink, -⟩
    exact ⟨loc, hloc, hsymlink⟩

end Queries

theorem sameFile_self (loc : Location (List Char)) : fs.sameFile loc loc = true := by
  unfold FileSystem.sameFile
  split <;> simp_all

theorem sameFile_symm (h : fs.sameFile loc loc' = true) : fs.sameFile loc' loc = true := by
  unfold FileSystem.sameFile at h ⊢
  split at h <;> simp_all

theorem sameFile_trans {loc'' : Location (List Char)} (h : fs.sameFile loc loc' = true)
    (h' : fs.sameFile loc' loc'' = true) : fs.sameFile loc loc'' = true := by
  unfold FileSystem.sameFile at h h' ⊢
  split at h <;> split at h' <;> simp_all

end Lookup

end LinkedFiles

/-! ### Listed file systems -/

/-- What stands at a location, a symlink with its text. -/
inductive FileEntry where
  | directory
  | regular (inode : Nat)
  | symlink (text : Path)
deriving DecidableEq

namespace FileEntry

def node : FileEntry → FileTree.Node (List Char)
  | directory => .directory
  | regular inode => .regular inode
  | symlink text => .symlink text.isAbsolute text.lookupComponents

/-- A name in a listed directory, and a text that a symlink can have. -/
def Valid (pathMax : Nat) (entries : List (Location (List Char) × FileEntry)) : Location (List Char) × FileEntry → Prop
  | ([], _) => False
  | (n :: d, e) => (n ≠ [] ∧ '/' ∉ n ∧ n ≠ ['.'] ∧ n ≠ ['.', '.']) ∧ (d = [] ∨ entries.lookup d = some .directory) ∧
      ∀ text, e = .symlink text → text.native ≠ [] ∧ text.native.length < pathMax

instance (pathMax : Nat) (entries : List (Location (List Char) × FileEntry)) : DecidablePred (Valid pathMax entries)
  | ([], _) => isFalse id
  | (_ :: _, .directory) => decidable_of_iff _ (and_congr_right' (and_iff_left nofun)).symm
  | (_ :: _, .regular _) => decidable_of_iff _ (and_congr_right' (and_iff_left nofun)).symm
  | (n :: d, .symlink text) =>
    decidable_of_iff ((n ≠ [] ∧ '/' ∉ n ∧ n ≠ ['.'] ∧ n ≠ ['.', '.']) ∧
      (d = [] ∨ entries.lookup d = some .directory) ∧ text.native ≠ [] ∧ text.native.length < pathMax)
      (by simp [Valid])

variable {pathMax : Nat} {entries : List (Location (List Char) × FileEntry)} {loc : Location (List Char)}

/-- What stands at a location of a listed file system. -/
def nodeAt (entries : List (Location (List Char) × FileEntry)) (loc : Location (List Char)) :
    Option (FileTree.Node (List Char)) :=
  if loc = [] then some .directory else (entries.lookup loc).map node

/-- The text of the symlink at a location. -/
def textAt (entries : List (Location (List Char) × FileEntry)) (loc : Location (List Char)) : Path :=
  match entries.lookup loc with
  | some (.symlink text) => text
  | some .directory => ⟨[]⟩
  | some (.regular _) => ⟨[]⟩
  | none => ⟨[]⟩

private theorem valid_of_lookup (h : ∀ e ∈ entries, Valid pathMax entries e) {e : FileEntry}
    (he : entries.lookup loc = some e) : Valid pathMax entries (loc, e) := h _ (Emplace.mem_of_lookup he)

private theorem lookup_of_nodeAt {n : List Char} {d : Location (List Char)}
    (h : (nodeAt entries (n :: d)).isSome = true) :
    ∃ e, entries.lookup (n :: d) = some e := by
  rw [nodeAt, if_neg (List.cons_ne_nil n d), Option.isSome_map] at h
  exact Option.isSome_iff_exists.1 h

private theorem mem_of_nodeAt (h : (nodeAt entries loc).isSome = true) : loc ∈ [] :: entries.map Prod.fst := by
  cases loc with
  | nil => exact List.mem_cons_self ..
  | cons n d =>
    obtain ⟨e, he⟩ := lookup_of_nodeAt h
    exact List.mem_cons_of_mem _ (List.mem_map_of_mem (Emplace.mem_of_lookup he))

private theorem text_of_nodeAt {absolute : Bool} {target : List (Component (List Char))}
    (h : nodeAt entries loc = some (.symlink absolute target)) :
    entries.lookup loc = some (.symlink (textAt entries loc)) ∧
      (textAt entries loc).isAbsolute = absolute ∧ (textAt entries loc).lookupComponents = target := by
  unfold nodeAt at h
  split at h
  · cases h
  · obtain ⟨e, he, hnode⟩ := Option.map_eq_some_iff.1 h
    cases e with
    | directory => cases hnode
    | regular inode => cases hnode
    | symlink text =>
      have htext : textAt entries loc = text := by simp only [textAt, he]
      rw [htext]
      cases hnode
      exact ⟨he, rfl, rfl⟩

end FileEntry

namespace LinkedFiles

open FileEntry

/-- A file system from a list of all that it has besides the root directory. -/
def ofEntries (pathMax : Nat) (entries : List (Location (List Char) × FileEntry))
    (h : ∀ e ∈ entries, Valid pathMax entries e) : LinkedFiles where
  node := nodeAt entries
  root := rfl
  parent := by
    intro n d hsome
    obtain ⟨e, he⟩ := lookup_of_nodeAt hsome
    obtain ⟨-, hd | hd, -⟩ := valid_of_lookup h he
    · rw [hd]
      rfl
    · unfold nodeAt
      split
      · rfl
      · rw [hd]
        rfl
  isName := by
    intro n d hsome
    obtain ⟨e, he⟩ := lookup_of_nodeAt hsome
    obtain ⟨⟨hne, hslash, hdot, hdots⟩, -, -⟩ := valid_of_lookup h he
    exact ⟨hne, hslash, hdot, hdots⟩
  finite := (List.finite_toSet ([] :: entries.map Prod.fst)).subset fun _ => mem_of_nodeAt
  text := textAt entries
  pathMax := pathMax
  isAbsolute_text := fun hnode => (text_of_nodeAt hnode).2.1
  components_text := fun hnode => (text_of_nodeAt hnode).2.2
  text_ne_nil := by
    intro link absolute target hnode
    have hvalid := valid_of_lookup h (text_of_nodeAt hnode).1
    cases link with
    | nil => exact hvalid.elim
    | cons n d => exact (hvalid.2.2 _ rfl).1
  text_lt := by
    intro link absolute target hnode
    have hvalid := valid_of_lookup h (text_of_nodeAt hnode).1
    cases link with
    | nil => exact hvalid.elim
    | cons n d => exact (hvalid.2.2 _ rfl).2

/-- The names in a directory of a listed file system. -/
def namesIn (entries : List (Location (List Char) × FileEntry)) (loc : Location (List Char)) : List (List Char) :=
  entries.filterMap fun e => match e.1 with
    | [] => none
    | n :: d => if d = loc then some n else none

theorem mem_namesIn {entries : List (Location (List Char) × FileEntry)} {loc : Location (List Char)} {n : List Char} :
    n ∈ namesIn entries loc ↔ (nodeAt entries (n :: loc)).isSome = true := by
  rw [nodeAt, if_neg (List.cons_ne_nil n loc), Option.isSome_map, List.lookup_isSome_iff, namesIn, List.mem_filterMap]
  constructor
  · rintro ⟨⟨_ | ⟨m, d⟩, e⟩, he, hname⟩
    · cases hname
    · simp only [Option.ite_none_right_eq_some, Option.some.injEq] at hname
      obtain ⟨rfl, rfl⟩ := hname
      exact ⟨_, he, by simp⟩
  · rintro ⟨⟨_ | ⟨m, d⟩, e⟩, he, hname⟩
    · cases hname
    · obtain ⟨rfl, rfl⟩ : n = m ∧ loc = d := by simpa using hname
      exact ⟨_, he, by simp⟩

end LinkedFiles

end R4R
