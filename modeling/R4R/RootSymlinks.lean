import R4R.Lib.Except
import R4R.LinkedFiles

/-!
# The symlinks of the root directory

`SymlinkResolver::populate_symlinks` collects the symlinks of a directory that lead to directories, with their targets:
an absolute text as it stands, and for a relative text the canonical path.
-/

namespace R4R

open FileTree

/-- `symlinks[entry.path()] = target` -/
def assignSymlink (symlinks : List (Path × Path)) (entry target : Path) : List (Path × Path) :=
  (symlinks.filter fun e => e.1.parts != entry.parts) ++ [(entry, target)]

/-- The target of a symlink of the directory `root`. -/
def rootTarget (canonical : Path → Except String Path) (root text : Path) : Except String Path :=
  if text.isAbsolute then .ok text else canonical (root / text)

/-- One entry of the directory in the loop of `populate_symlinks`. -/
def populateStep (q : FileQueries) (canonical : Path → Except String Path) (root : Path)
    (symlinks : List (Path × Path)) (name : List Char) : Except String (List (Path × Path)) := do
  let entry := root / (⟨name⟩ : Path)
  if ← q.isSymlink entry then
    match q.readSymlink entry with
    | .ok text =>
      let target ← rootTarget canonical root text
      if ← q.isDirectory target then return assignSymlink symlinks entry target else return symlinks
    | .error _ =>
      -- the target is empty, and so is not absolute
      let _ ← canonical (root / (⟨[]⟩ : Path))
      return symlinks
  else return symlinks

/-- `SymlinkResolver::populate_symlinks`, for a directory with the entries `names`. -/
def populateSymlinks (q : FileQueries) (canonical : Path → Except String Path) (root : Path)
    (names : List (List Char)) : Except String (List (Path × Path)) :=
  names.foldlM (populateStep q canonical root) []

/-- An entry of the map: a symlink of the directory and the directory that it leads to. -/
structure RootSymlink (q : FileQueries) (canonical : Path → Except String Path) (root : Path) (names : List (List Char))
    (e : Path × Path) : Prop where
  entry : ∃ name ∈ names, e.1 = root / (⟨name⟩ : Path)
  isSymlink : q.isSymlink e.1 = .ok true
  target : ∃ text, q.readSymlink e.1 = .ok text ∧ rootTarget canonical root text = .ok e.2
  isDirectory : q.isDirectory e.2 = .ok true

variable {q : FileQueries} {canonical : Path → Except String Path} {root : Path} {names : List (List Char)}
  {symlinks symlinks' : List (Path × Path)} {name : List Char}

/-- One step assigns at most one symlink. -/
private theorem populateStep_eq_ok (hname : name ∈ names)
    (h : populateStep q canonical root symlinks name = .ok symlinks') :
    symlinks' = symlinks ∨ ∃ target, symlinks' = assignSymlink symlinks (root / (⟨name⟩ : Path)) target ∧
      RootSymlink q canonical root names (root / (⟨name⟩ : Path), target) := by
  unfold populateStep at h
  obtain ⟨b, hb, h⟩ := Except.bind_eq_ok h
  cases b with
  | false => exact .inl (Except.ok.inj h).symm
  | true =>
    cases htext : q.readSymlink (root / (⟨name⟩ : Path)) with
    | error e =>
      simp only [htext, if_true] at h
      obtain ⟨_, -, h⟩ := Except.bind_eq_ok h
      exact .inl (Except.ok.inj h).symm
    | ok text =>
      simp only [htext, if_true] at h
      obtain ⟨target, htarget, h⟩ := Except.bind_eq_ok h
      obtain ⟨d, hd, h⟩ := Except.bind_eq_ok h
      cases d with
      | false => exact .inl (Except.ok.inj h).symm
      | true =>
        exact .inr ⟨target, (Except.ok.inj h).symm, ⟨name, hname, rfl⟩, hb, ⟨text, htext, htarget⟩, hd⟩

private theorem populateSymlinks_spec (h : populateSymlinks q canonical root names = .ok symlinks) :
    (symlinks.map fun e => e.1.parts).Nodup ∧ ∀ e ∈ symlinks, RootSymlink q canonical root names e := by
  refine Except.foldlM_invariant (P := fun symlinks => (symlinks.map fun e => e.1.parts).Nodup ∧
    ∀ e ∈ symlinks, RootSymlink q canonical root names e) ?_ (by simp) h
  rintro symlinks symlinks' name hname ⟨hnodup, hspec⟩ hstep
  rcases populateStep_eq_ok hname hstep with rfl | ⟨target, rfl, hentry⟩
  · exact ⟨hnodup, hspec⟩
  · constructor
    · unfold assignSymlink
      rw [List.map_append, List.nodup_append]
      refine ⟨hnodup.sublist (List.Sublist.map _ List.filter_sublist), by simp, ?_⟩
      intro k hk k' hk'
      obtain ⟨e, he, rfl⟩ := List.mem_map.1 hk
      obtain rfl : k' = _ := by simpa using hk'
      simpa using (List.mem_filter.1 he).2
    · intro e he
      rcases List.mem_append.1 he with he | he
      · exact hspec e (List.mem_filter.1 he).1
      · exact List.mem_singleton.1 he ▸ hentry

/-- The constructor made the resolver: its map has the symlinks of the directory, in some order. -/
def SymlinkResolver.Constructed (q : FileQueries) (canonical : Path → Except String Path) (root : Path)
    (names : List (List Char)) (r : SymlinkResolver) : Prop :=
  ∃ symlinks, populateSymlinks q canonical root names = .ok symlinks ∧ r.symlinks.Perm symlinks

namespace LinkedFiles

variable {fs : LinkedFiles} {cwd loc : Location (List Char)} {stat : Bool → Path → StatAnswer} {follow : Bool}
  {p : Path} {r : SymlinkResolver}

/-- The entries that a `directory_iterator` of the directory yields. -/
structure Lists (fs : LinkedFiles) (stat : Bool → Path → StatAnswer) (root : Path) (names : List (List Char)) :
    Prop where
  nodup : names.Nodup
  mem_iff : ∃ loc, stat true root = .ok (some loc) ∧ ∀ n, n ∈ names ↔ (fs.node (n :: loc)).isSome = true

/-- A resolver for the symlinks of the directory `root`, with its map in some order. -/
def Resolves (fs : LinkedFiles) (stat : Bool → Path → StatAnswer) (cwd : Location (List Char)) (root : Path)
    (r : SymlinkResolver) : Prop :=
  ∃ names, fs.Lists stat root names ∧ r.Constructed (fs.queries stat cwd) (LinkedFiles.canonical stat) root names

private theorem isName_of_leads (h : fs.Leads cwd follow p loc) (habs : p.isAbsolute = true) : ∀ n ∈ loc, IsName n := by
  obtain ⟨-, k, hw⟩ := h
  rw [if_pos habs] at hw
  exact FileSystem.isName_of_isSome fs.toFileSystem (hw.node_isSome (by rw [fs.root]; rfl))

theorem rootSymlink_of_mem (hr : fs.Resolves stat cwd root r) : ∃ names, fs.Lists stat root names ∧
    (r.symlinks.map fun e => e.1.parts).Nodup ∧
      ∀ e ∈ r.symlinks, RootSymlink (fs.queries stat cwd) (LinkedFiles.canonical stat) root names e := by
  obtain ⟨names, hnames, symlinks, hpopulate, hperm⟩ := hr
  obtain ⟨hnodup, hspec⟩ := populateSymlinks_spec hpopulate
  exact ⟨names, hnames, (hperm.map _).nodup_iff.2 hnodup, fun e he => hspec e (hperm.subset he)⟩

/-- Below an absolute root the symlinks and their targets are absolute. -/
theorem isAbsolute_of_mem (hstat : ∀ follow p loc, stat follow p = .ok (some loc) → fs.Leads cwd follow p loc)
    (hroot : root.isAbsolute = true) (hr : fs.Resolves stat cwd root r) {e : Path × Path} (he : e ∈ r.symlinks) :
    e.1.isAbsolute = true ∧ e.2.isAbsolute = true := by
  obtain ⟨names, ⟨-, loc, -, hmem⟩, -, hspec⟩ := rootSymlink_of_mem hr
  obtain ⟨⟨n, hn, hentry⟩, -, ⟨text, -, htarget⟩, -⟩ := hspec e he
  constructor
  · exact hentry ▸ Path.isAbsolute_join hroot _
  · unfold rootTarget at htarget
    split at htarget
    · rename_i habs
      rwa [← Except.ok.inj htarget]
    · rename_i hrel
      rw [Bool.not_eq_true] at hrel
      obtain ⟨answer, hanswer, htarget⟩ := Except.bind_eq_ok htarget
      cases answer with
      | none => cases htarget
      | some dir =>
        have habs : (root / text).isAbsolute = true := Path.isAbsolute_join hroot text
        rw [← Except.ok.inj htarget]
        exact isAbsolute_pathOf (isName_of_leads (hstat _ _ _ hanswer) habs)

/-! ### The steps for what stands in a directory -/

section Entries

variable {root : Path} {symlinks : List (Path × Path)} {name : List Char} {link dir : Location (List Char)}

/-- An entry that is no symlink. -/
theorem populateStep_of_file (hentry : stat false (root / (⟨name⟩ : Path)) = .ok (some loc))
    (hloc : fs.isSymlinkAt loc = false) :
    populateStep (fs.queries stat cwd) (LinkedFiles.canonical stat) root symlinks name = .ok symlinks := by
  have hsymlink : (fs.queries stat cwd).isSymlink (root / (⟨name⟩ : Path)) = .ok false := by
    simp [queries, hentry, Except.map, hloc]
  unfold populateStep
  simp only [hsymlink, Except.ok_bind]
  rfl

/-- A symlink with the absolute path of a directory as its text. -/
theorem populateStep_of_symlink (hentry : stat false (root / (⟨name⟩ : Path)) = .ok (some link))
    (hlink : fs.isSymlinkAt link = true) (habs : (fs.text link).isAbsolute = true)
    (htarget : stat true (fs.text link) = .ok (some dir)) (hdir : fs.node dir = some .directory) :
    populateStep (fs.queries stat cwd) (LinkedFiles.canonical stat) root symlinks name =
      .ok (assignSymlink symlinks (root / (⟨name⟩ : Path)) (fs.text link)) := by
  have hsymlink : (fs.queries stat cwd).isSymlink (root / (⟨name⟩ : Path)) = .ok true :=
    isSymlink_queries_iff.2 ⟨link, hentry, hlink⟩
  have htext : (fs.queries stat cwd).readSymlink (root / (⟨name⟩ : Path)) = .ok (fs.text link) :=
    readSymlink_queries_iff.2 ⟨link, hentry, hlink, rfl⟩
  have hdirectory : (fs.queries stat cwd).isDirectory (fs.text link) = .ok true :=
    isDirectory_queries_iff.2 ⟨dir, htarget, hdir⟩
  unfold populateStep rootTarget
  simp only [hsymlink, htext, habs, hdirectory, Except.ok_bind, if_true]
  rfl

end Entries

end LinkedFiles

end R4R
