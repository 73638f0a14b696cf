import R4R.PathJoin
import R4R.RootSymlinks

/-!
# Links to directories

How names below a root symlink are looked up: like the names below its target, with fewer links on the way
(`RootLink.toTarget`).  So the target of a root symlink does not lie below the symlink itself, and no chain of such
targets comes back (`depth_lt`).
-/

namespace R4R

open FileTree

namespace Path

variable {p q dir : Path}

/-- The components that lead to a directory before something in it is looked up. -/
def directoryComponents (p : Path) : List (Component (List Char)) := p.filenames.map componentOf

theorem components_of_isAbsolute (habs : p.isAbsolute = true) : p.components = ['/'] :: p.filenames := by
  rw [components_eq, if_pos habs, List.singleton_append]

/-- The components of a name below a directory. -/
theorem lookupComponents_of_parts (hdir : dir.isAbsolute = true) {elems : List (List Char)}
    (h : p.parts = dir.components ++ elems) :
    p.isAbsolute = true ∧ p.lookupComponents = dir.directoryComponents ++ elems.map componentOf := by
  rw [components_of_isAbsolute hdir] at h
  have habs : p.isAbsolute = true := isAbsolute_iff_mem_parts.2 (by rw [h]; exact List.mem_cons_self ..)
  obtain ⟨elems', hparts, -, hcomponents⟩ := parts_of_isAbsolute habs
  rw [hparts, List.cons_append] at h
  rw [← hcomponents, (List.cons.inj h).2, List.map_append]
  exact ⟨habs, rfl⟩

theorem directoryComponents_of_components (hp : p.isAbsolute = true) (hdir : dir.isAbsolute = true)
    {elems : List (List Char)} (h : p.components = dir.components ++ elems) :
    p.directoryComponents = dir.directoryComponents ++ elems.map componentOf := by
  rw [components_of_isAbsolute hp, components_of_isAbsolute hdir, List.cons_append] at h
  rw [directoryComponents, (List.cons.inj h).2, List.map_append]
  rfl

/-- A separator at the end of a directory makes no difference to the names below it. -/
private theorem walks_directoryComponents {t : LinkTree (List Char)} {follow : Bool} {cur loc : Location (List Char)}
    {k : Nat} {cs : List (Component (List Char))} (hcs : cs ≠ []) :
    t.Walks follow cur (p.lookupComponents ++ cs) k loc ↔ t.Walks follow cur (p.directoryComponents ++ cs) k loc := by
  rw [lookupComponents_eq, directoryComponents]
  split
  · rw [List.append_assoc]
    exact LinkTree.walks_insert_here hcs
  · rw [List.append_nil]

end Path

namespace LinkedFiles

variable {fs : LinkedFiles} {cwd : Location (List Char)} {r : SymlinkResolver} {e e' : Path × Path}

/-- A symlink of the root directory, and the directory that it leads to: the names below the symlink lead where the
names below the directory lead. -/
structure RootLink (fs : LinkedFiles) (e : Path × Path) : Prop where
  isAbsolute : e.2.isAbsolute = true
  name : ∃ n, IsName n ∧ e.1.parts = [['/'], n]
  toTarget : ∀ {follow cs k loc}, cs ≠ [] → fs.Walks follow [] (e.1.directoryComponents ++ cs) k loc →
    ∃ k' < k, fs.Walks follow [] (e.2.directoryComponents ++ cs) k' loc
  toLink : ∀ {follow cs k loc}, cs ≠ [] → fs.Walks follow [] (e.2.directoryComponents ++ cs) k loc →
    ∃ k', fs.Walks follow [] (e.1.directoryComponents ++ cs) k' loc
  isDirectory : ∃ k loc, fs.Walks true [] (e.2.directoryComponents ++ [.here]) k loc

/-- The walk over the name of a symlink at the root. -/
private theorem walks_name_of_symlink {t : LinkTree (List Char)} {n : List Char} {absolute : Bool}
    {target cs : List (Component (List Char))} {follow : Bool} {loc : Location (List Char)} {k : Nat}
    (hn : t.node [n] = some (.symlink absolute target)) (hcs : cs ≠ []) :
    t.Walks follow [] (.name n :: cs) k loc ↔ ∃ k', k = k' + 1 ∧ t.Walks follow [] (target ++ cs) k' loc := by
  constructor
  · intro h
    cases h with
    | directory _ hn' _ => rw [hn] at hn'; cases hn'
    | regular _ hn' _ => rw [hn] at hn'; cases hn'
    | stop _ _ _ => exact absurd rfl hcs
    | link _ hn' _ h =>
      rw [hn] at hn'
      cases hn'
      rw [ite_self] at h
      exact ⟨_, rfl, h⟩
  · rintro ⟨k', rfl, h⟩
    refine .link t.root hn (.inl hcs) ?_
    rwa [ite_self]

/-- The symlink that a walk over one name stops at. -/
private theorem node_of_walks_name {t : LinkTree (List Char)} {n : List Char} {loc : Location (List Char)} {k : Nat}
    {absolute : Bool} {target : List (Component (List Char))} (h : t.Walks false [] [.name n] k loc)
    (hloc : t.node loc = some (.symlink absolute target)) : loc = [n] := by
  cases h with
  | directory _ _ h => cases h; rfl
  | regular _ _ h => cases h; rfl
  | stop _ _ _ => rfl
  | link _ _ hfollow _ => simp at hfollow

/-- What names lead to, without symlinks on the way, when the names are those of something that a walk ends at. -/
private theorem walks_namesOf {t : LinkTree (List Char)} {cs : List (Component (List Char))}
    {loc : Location (List Char)}
    {k : Nat} (h : t.Walks true [] cs k loc) : t.Walks true [] (LinkTree.namesOf loc) 0 loc := by
  have hroot : ∀ absolute target, t.node [] ≠ some (.symlink absolute target) := by
    rintro _ _ he
    rw [t.root] at he
    cases he
  have hfile := h.ends_at_file hroot
  obtain ⟨node, hnode⟩ := Option.isSome_iff_exists.1 (h.node_isSome (by rw [t.root]; rfl))
  cases node with
  | directory => exact LinkTree.walks_namesOf_directory hnode
  | regular inode => exact LinkTree.walks_namesOf_regular hnode
  | symlink absolute target => exact absurd hnode (hfile absolute target)

/-- The target in the map is looked up like the text of the symlink. -/
private theorem walks_rootTarget {text target : Path} (hne : text.native ≠ [])
    (h : rootTarget (LinkedFiles.canonical (fs.unlimitedStat cwd)) (.ofString "/") text = .ok target)
    {follow : Bool} {cs : List (Component (List Char))} (hcs : cs ≠ []) {k : Nat} {loc : Location (List Char)} :
    (fs.Walks follow [] (text.lookupComponents ++ cs) k loc →
      ∃ k' ≤ k, fs.Walks follow [] (target.directoryComponents ++ cs) k' loc) ∧
    (fs.Walks follow [] (target.directoryComponents ++ cs) k loc →
      ∃ k', fs.Walks follow [] (text.lookupComponents ++ cs) k' loc) := by
  unfold rootTarget at h
  split at h
  · obtain rfl := Except.ok.inj h
    exact ⟨fun hw => ⟨k, le_rfl, (Path.walks_directoryComponents hcs).1 hw⟩,
      fun hw => ⟨k, (Path.walks_directoryComponents hcs).2 hw⟩⟩
  · rename_i hrel
    rw [Bool.not_eq_true] at hrel
    obtain ⟨answer, hanswer, htarget⟩ := Except.bind_eq_ok h
    cases answer with
    | none => cases htarget
    | some dir =>
      obtain rfl := Except.ok.inj htarget
      have hjoined : (Path.ofString "/" / text).isAbsolute = true := Path.isAbsolute_join rfl text
      obtain ⟨-, j, hdir⟩ := unlimitedStat_eq_some.1 hanswer
      rw [if_pos hjoined, Path.lookupComponents_append hrel hne] at hdir
      have hnames : (pathOf dir).directoryComponents = LinkTree.namesOf dir :=
        map_componentOf_filenames_pathOf (FileSystem.isName_of_isSome _ (hdir.node_isSome (by rw [fs.root]; rfl)))
      have hnamesOf := walks_namesOf hdir
      rw [hnames]
      constructor
      · intro hw
        obtain ⟨k₁, k₂, mid, rfl, hmid, hrest⟩ := hw.split rfl (.inl hcs)
        obtain ⟨-, rfl⟩ := hmid.unique hdir
        exact ⟨0 + k₂, by omega, hnamesOf.append (.inl hcs) hrest⟩
      · intro hw
        obtain ⟨k₁, k₂, mid, rfl, hmid, hrest⟩ := hw.split rfl (.inl hcs)
        obtain ⟨-, rfl⟩ := hmid.unique hnamesOf
        exact ⟨j + k₂, hdir.append (.inl hcs) hrest⟩

/-- The symlinks in the map of a resolver for the root directory. -/
theorem rootLink_of_mem (hr : fs.Resolves (fs.unlimitedStat cwd) cwd (.ofString "/") r) (he : e ∈ r.symlinks) :
    fs.RootLink e := by
  have habs := (isAbsolute_of_mem (fun _ _ _ => unlimitedStat_eq_some.1) (by decide) hr he).2
  obtain ⟨names, ⟨-, loc, hroot, hnames⟩, -, hspec⟩ := rootSymlink_of_mem hr
  obtain ⟨⟨n, hn, hentry⟩, hsymlink, ⟨text, htext, htarget⟩, hdirectory⟩ := hspec e he
  -- the entry is the name of a symlink in the root directory
  have hloc : loc = [] := by
    obtain ⟨-, k, hw⟩ := unlimitedStat_eq_some.1 hroot
    have hcomponents : (Path.ofString "/").lookupComponents = [] := by decide
    rw [hcomponents] at hw
    cases hw
    rfl
  subst hloc
  have hname : IsName n := fs.isName n [] ((hnames n).1 hn)
  have hparts : e.1.parts = (Path.ofString "/").components ++ [n] := by
    rw [hentry, Path.parts_append_name hname.ne_nil hname.no_slash (by decide)]
    rfl
  have hfilenames : e.1.filenames = [n] := by
    rw [hentry, Path.filenames_append hname.isAbsolute, hname.filenames]
    rfl
  have hlink : e.1.directoryComponents = [.name n] := by
    rw [Path.directoryComponents, hfilenames, List.map_singleton, componentOf_of_isName hname]
  obtain ⟨link, hstat, hissymlink, rfl⟩ := readSymlink_queries_iff.1 htext
  obtain ⟨absolute, target, hnode⟩ := isSymlinkAt_iff.1 hissymlink
  have hstop : link = [n] := by
    obtain ⟨-, k, hw⟩ := unlimitedStat_eq_some.1 hstat
    obtain ⟨hentryabs, hcomponents⟩ := Path.lookupComponents_of_parts (by decide) hparts
    have hcomponents : e.1.lookupComponents = [.name n] := by
      rw [hcomponents, List.map_singleton, componentOf_of_isName hname]
      rfl
    rw [if_pos hentryabs, hcomponents] at hw
    exact node_of_walks_name hw hnode
  subst hstop
  have hne := fs.text_ne_nil hnode
  refine ⟨habs, ⟨n, hname, hparts⟩, ?_, ?_, ?_⟩
  · intro follow cs k loc hcs hw
    rw [hlink] at hw
    obtain ⟨k₁, hk₁, hw₁⟩ := (walks_name_of_symlink hnode hcs).1 hw
    rw [← fs.components_text hnode] at hw₁
    obtain ⟨k₂, hk₂, hw₂⟩ := (walks_rootTarget hne htarget hcs).1 hw₁
    exact ⟨k₂, by omega, hw₂⟩
  · intro follow cs k loc hcs hw
    rw [hlink]
    obtain ⟨k', hw'⟩ := (walks_rootTarget hne htarget hcs).2 hw
    rw [fs.components_text hnode] at hw'
    exact ⟨k' + 1, (walks_name_of_symlink hnode hcs).2 ⟨k', rfl, hw'⟩⟩
  · obtain ⟨loc, hloc, hnode⟩ := isDirectory_queries_iff.1 hdirectory
    obtain ⟨-, k, hw⟩ := unlimitedStat_eq_some.1 hloc
    rw [if_pos habs] at hw
    have hhere := hw.append (.inr rfl) (.here hnode (.nil loc))
    exact ⟨k + 0, loc, (Path.walks_directoryComponents (List.cons_ne_nil _ _)).1 hhere⟩

namespace RootLink

theorem isAbsolute_link (h : fs.RootLink e) : e.1.isAbsolute = true := by
  obtain ⟨n, -, hparts⟩ := h.name
  exact Path.isAbsolute_iff_mem_parts.2 (by rw [hparts]; exact List.mem_cons_self ..)

theorem components_link (h : fs.RootLink e) : e.1.components = e.1.parts := by
  obtain ⟨n, hn, hparts⟩ := h.name
  rw [Path.components, hparts]
  simp [hn.ne_nil]

/-- The number of links on the way to the target. -/
def Depth (fs : LinkedFiles) (e : Path × Path) (k : Nat) : Prop :=
  ∃ loc, fs.Walks true [] (e.2.directoryComponents ++ [.here]) k loc

theorem exists_depth (h : fs.RootLink e) : ∃ k, Depth fs e k := h.isDirectory

/-- There are fewer links on the way to the target of a link that is on the way. -/
theorem depth_lt (h : fs.RootLink e) (h' : fs.RootLink e') {k k' : Nat} (hk : Depth fs e k) (hk' : Depth fs e' k')
    (hbelow : e'.1.parts <+: e.2.components) : k' < k := by
  obtain ⟨elems, helems⟩ := hbelow
  obtain ⟨loc, hw⟩ := hk
  obtain ⟨loc', hw'⟩ := hk'
  rw [← h'.components_link] at helems
  rw [Path.directoryComponents_of_components h.isAbsolute h'.isAbsolute_link helems.symm, List.append_assoc] at hw
  have hne : elems.map componentOf ++ [.here] ≠ [] := by simp
  obtain ⟨j, hj, hw⟩ := h'.toTarget hne hw
  -- the target is a directory, since there is something below it on the way
  obtain ⟨k₁, k₂, mid, rfl, hmid, hrest⟩ := hw.split rfl (.inl hne)
  have hdirectory : fs.node mid = some .directory := by
    obtain ⟨c, cs, hcs⟩ := List.exists_cons_of_ne_nil hne
    rw [hcs] at hrest
    exact hrest.directory_cons
  have hhere : fs.Walks true [] (_ ++ [.here]) (k₁ + 0) mid := hmid.append (.inr rfl) (.here hdirectory (.nil mid))
  obtain ⟨rfl, -⟩ := hw'.unique hhere
  omega

/-- The target of a link does not lie below the link. -/
theorem not_below (h : fs.RootLink e) : ¬ e.1.parts <+: e.2.components := by
  intro hbelow
  obtain ⟨k, hk⟩ := h.exists_depth
  exact Nat.lt_irrefl k (h.depth_lt h hk hk hbelow)

/-- No two targets lie below the links of each other. -/
theorem not_mutual (h : fs.RootLink e) (h' : fs.RootLink e') (hbelow : e'.1.parts <+: e.2.components) :
    ¬ e.1.parts <+: e'.2.components := by
  intro hbelow'
  obtain ⟨k, hk⟩ := h.exists_depth
  obtain ⟨k', hk'⟩ := h'.exists_depth
  exact Nat.lt_asymm (h.depth_lt h' hk hk' hbelow) (h'.depth_lt h hk' hk hbelow')

end RootLink

end LinkedFiles

end R4R
