import R4R.FileSystemTrieCopy

/-!
# The size of a file system trie

`size_` counts the insertions that create a node, but the entries are values on nodes.  An insertion of the empty path,
or of a path above one that was inserted before, creates no node, so the size is the number of the entries exactly when
there is no such insertion (`countsEntries_iff`).  A copy is made parents first.
-/

namespace R4R

open PrefixMap (BranchesOff Enumerates created lastAt)

universe u

namespace Node

variable {T : Type u}

/-- An insertion creates a node when there is none at the end of its path. -/
private theorem insert_snd (v : T) (p : List (List Char)) : ∀ n : Node T, (n.insert v p).2 = (n.walk p).isNone := by
  induction p with
  | nil => exact fun n => rfl
  | cons part parts ih =>
    intro n
    unfold insert walk
    cases hc : n.child? part with
    | none => rfl
    | some c => exact ih c

private theorem children_eq_nil_iff {n : Node T} : n.children = [] ↔ ∀ d, (n.walk d).isSome → d = [] := by
  constructor
  · intro h d hd
    cases d with
    | nil => rfl
    | cons k d => simp [walk, child?, h] at hd
  · intro h
    by_contra hne
    obtain ⟨⟨k, c⟩, rest, hc⟩ := List.exists_cons_of_ne_nil hne
    have hwalk : (n.walk [k]).isSome := by simp [walk, child?, hc]
    cases h [k] hwalk

end Node

namespace FileSystemTrie

/-- `FileSystemTrie::is_empty`. -/
def isEmpty {T : Type u} (t : FileSystemTrie T) : Bool := t.root.children.isEmpty

/-- The paths of the insertions; a separator at the end makes no difference. -/
def keysOf {T : Type u} (inserts : List (Path × T)) : List (List (List Char)) := inserts.map fun e => e.1.components

end FileSystemTrie

namespace TrieStorage

open FileSystemTrie (keysOf entriesOf)

variable {T : Type u}

/-- The size is the number of the entries that iterating yields, which is that of the distinct paths inserted, and the
trie is empty when there are none. -/
def CountsEntries (t : FileSystemTrie Address) (inserts : List (Path × T)) : Prop :=
  ∀ order, ∃ infos, ConstIterator.iterate order t.root = some infos ∧ t.size = infos.length ∧
    infos.length = (keysOf inserts).toFinset.card ∧ (t.isEmpty = true ↔ infos = [])

theorem map_fst_entriesOf (inserts : List (Path × T)) : (entriesOf inserts).map Prod.fst = keysOf inserts := by
  simp [entriesOf, keysOf]

/-- The entries have the paths that were inserted. -/
theorem mem_keysOf_iff {inserts entries : List (Path × T)}
    (h : Enumerates (entriesOf entries) (lastAt (entriesOf inserts))) (q : List (List Char)) :
    q ∈ keysOf entries ↔ q ∈ keysOf inserts := by
  rw [← map_fst_entriesOf, ← map_fst_entriesOf, h.mem_keys_iff]

theorem toFinset_keysOf {inserts entries : List (Path × T)}
    (h : Enumerates (entriesOf entries) (lastAt (entriesOf inserts))) :
    (keysOf entries).toFinset = (keysOf inserts).toFinset := by
  ext q
  rw [List.mem_toFinset, List.mem_toFinset, mem_keysOf_iff h]

variable [LinearOrder T] {storage : List T} {t : FileSystemTrie Address} {inserts : List (Path × T)}

/-- The nodes are at the prefixes of the keys. -/
def NodesAt (t : FileSystemTrie Address) (keys : List (List (List Char))) : Prop :=
  ∀ d, (t.root.walk d).isSome ↔ d = [] ∨ ∃ q ∈ keys, d <+: q

theorem Holds.nodesAt (h : Holds storage t inserts) : NodesAt t (keysOf inserts) := by
  intro d
  obtain ⟨refs, hroot, hrefs⟩ := h.nodes
  have hkeys : keysOf refs = keysOf inserts := by
    have hpaths := congrArg (List.map fun e => e.1.components) hrefs
    simp only [List.map_map] at hpaths
    exact hpaths
  rw [hroot, FileSystemTrie.walk_ofInserts, map_fst_entriesOf, hkeys]

omit [LinearOrder T] in
private theorem NodesAt.isEmpty_iff {keys : List (List (List Char))} (h : NodesAt t keys) :
    t.isEmpty = true ↔ ∀ q ∈ keys, q = [] := by
  rw [FileSystemTrie.isEmpty, List.isEmpty_iff, Node.children_eq_nil_iff]
  constructor
  · intro hnil q hq
    exact hnil q ((h q).2 (.inr ⟨q, hq, List.prefix_refl q⟩))
  · intro hnil d hd
    rcases (h d).1 hd with rfl | ⟨q, hq, hpre⟩
    · rfl
    · exact List.prefix_nil.1 (hnil q hq ▸ hpre)

private theorem NodesAt.insert {keys : List (List (List Char))} (h : NodesAt t keys) (storage : List T) (path : Path)
    (value : T) : NodesAt (insert storage t path value).2 (keys ++ [path.components]) := by
  intro d
  refine (Node.walk_insert_isSome _ path.components t.root d).trans ?_
  rw [h d]
  simp only [List.mem_append, List.mem_singleton, or_and_right, exists_or, exists_eq_left]
  exact or_comm.trans or_assoc

/-- The size after an insertion. -/
private theorem NodesAt.size_insert {keys : List (List (List Char))} (h : NodesAt t keys) (storage : List T)
    (path : Path) (value : T) : (TrieStorage.insert storage t path value).2.size =
      t.size + if path.components = [] ∨ ∃ q ∈ keys, path.components <+: q then 0 else 1 := by
  have hsize : (TrieStorage.insert storage t path value).2.size =
      if (t.root.walk path.components).isNone then t.size + 1 else t.size := by
    rw [← Node.insert_snd (emplace storage t.uniqueValues value).2.2]
    rfl
  rw [hsize]
  by_cases hwalk : (t.root.walk path.components).isSome
  · rw [if_pos ((h _).1 hwalk), if_neg (by simpa [Option.isSome_iff_ne_none] using hwalk)]
    rfl
  · rw [if_neg (fun hold => hwalk ((h _).2 hold)), if_pos (by simpa using hwalk)]

/-- The nodes and the size after a sequence of insertions. -/
theorem NodesAt.insertAll (more : List (Path × T)) : ∀ {t : FileSystemTrie Address} {keys : List (List (List Char))},
    NodesAt t keys → ∀ storage : List T, NodesAt (insertAll storage t more).2 (keys ++ keysOf more) ∧
      (TrieStorage.insertAll storage t more).2.size = t.size + created keys (keysOf more) := by
  induction more with
  | nil =>
    intro t keys h storage
    exact ⟨(List.append_nil keys).symm ▸ h, rfl⟩
  | cons e more ih =>
    intro t keys h storage
    obtain ⟨hnodes, hsize⟩ := ih (h.insert storage e.1 e.2) (TrieStorage.insert storage t e.1 e.2).1
    rw [h.size_insert, Nat.add_assoc] at hsize
    rw [List.append_assoc] at hnodes
    exact ⟨hnodes, hsize⟩

private theorem nodesAt_empty : NodesAt {} [] := by
  intro d
  cases d <;> simp [Node.walk, Node.empty, Node.child?, Node.children]

private theorem size_insertAll (storage : List T) (inserts : List (Path × T)) :
    (insertAll storage {} inserts).2.size = created [] (keysOf inserts) :=
  (nodesAt_empty.insertAll inserts storage).2.trans (Nat.zero_add _)

/-- Iterating yields as many entries as there are distinct paths. -/
theorem Holds.length_iterate (h : Holds storage t inserts) {order : ChildOrder Address}
    {infos : List (NodeView Address)} (hinfos : ConstIterator.iterate order t.root = some infos) :
    infos.length = (keysOf inserts).toFinset.card := by
  obtain ⟨infos', entries, hinfos', hlength, -, henum, -⟩ := h.copy_eq order
  obtain rfl := Option.some.inj (hinfos.symm.trans hinfos')
  rw [hlength, ← toFinset_keysOf henum, List.toFinset_card_of_nodup]
  · simp [keysOf]
  · exact map_fst_entriesOf entries ▸ henum.nodup

private theorem Holds.countsEntries_iff_size (h : Holds storage t inserts) : CountsEntries t inserts ↔
    t.size = (keysOf inserts).toFinset.card ∧ ((∀ q ∈ keysOf inserts, q = []) → inserts = []) := by
  have hnil : ∀ {infos : List (NodeView Address)}, infos.length = (keysOf inserts).toFinset.card →
      (infos = [] ↔ inserts = []) := by
    intro infos hlength
    rw [← List.length_eq_zero_iff, hlength, Finset.card_eq_zero, List.toFinset_eq_empty_iff, keysOf,
      List.map_eq_nil_iff]
  constructor
  · intro hcounts
    obtain ⟨infos, -, hsize, hlength, hempty⟩ := hcounts ⟨fun _ n => n.children, fun _ _ => .refl _⟩
    refine ⟨hsize.trans hlength, fun hall => (hnil hlength).1 (hempty.1 (h.nodesAt.isEmpty_iff.2 hall))⟩
  · rintro ⟨hsize, hempty⟩ order
    obtain ⟨infos, -, hinfos, -⟩ := h.copy_eq order
    have hlength := h.length_iterate hinfos
    refine ⟨infos, hinfos, hsize.trans hlength.symm, hlength, ?_⟩
    rw [h.nodesAt.isEmpty_iff, hnil hlength]
    refine ⟨hempty, ?_⟩
    rintro rfl
    exact fun q hq => nomatch hq

/-- Insertions that all branch off are counted. -/
private theorem countsEntries_of_branchesOff (storage : List T) {inserts : List (Path × T)}
    (h : BranchesOff [] (keysOf inserts)) : CountsEntries (insertAll storage {} inserts).2 inserts := by
  have hholds := (holds_empty storage).insertAll inserts
  rw [List.nil_append] at hholds
  refine hholds.countsEntries_iff_size.2 ⟨?_, fun hall => ?_⟩
  · have hcreated := (PrefixMap.created_spec (keysOf inserts) []).2.2 h
    rw [List.toFinset_nil, Finset.sdiff_empty] at hcreated
    rw [size_insertAll, ← hcreated]
  · by_contra hne
    obtain ⟨e, rest, rfl⟩ := List.exists_cons_of_ne_nil hne
    have hmem : e.1.components ∈ keysOf (e :: rest) := List.mem_cons_self ..
    exact h.nil_notMem (hall _ hmem ▸ hmem)

/-- The size counts the entries exactly when every path, where it is first inserted, branches off from the paths before
it, and then so it does in every copy. -/
theorem countsEntries_iff (storage : List T) (inserts : List (Path × T)) :
    (CountsEntries (insertAll storage {} inserts).2 inserts ∧
      ∀ order, ∃ s, copy order (insertAll storage {} inserts).1 (insertAll storage {} inserts).2 = some s ∧
        CountsEntries s.2 inserts) ↔ BranchesOff [] (keysOf inserts) := by
  have h := (holds_empty storage).insertAll inserts
  rw [List.nil_append] at h
  constructor
  · rintro ⟨hcounts, -⟩
    have hsize := (h.countsEntries_iff_size.1 hcounts).1
    rw [size_insertAll] at hsize
    have hspec := PrefixMap.created_spec (keysOf inserts) []
    rw [List.toFinset_nil, Finset.sdiff_empty] at hspec
    exact hspec.2.1 hsize
  · intro hbranches
    refine ⟨countsEntries_of_branchesOff storage hbranches, fun order => ?_⟩
    obtain ⟨-, entries, -, -, hcopy, henum, hfirst⟩ := h.copy_eq order
    have hkeys := toFinset_keysOf henum
    have hnil : [] ∉ keysOf entries := by
      rw [← List.mem_toFinset, hkeys, List.mem_toFinset]
      exact hbranches.nil_notMem
    have hcopied : CountsEntries (insertAll (insertAll storage {} inserts).1 {} entries).2 entries := by
      refine countsEntries_of_branchesOff _ (PrefixMap.branchesOff_of_pairwise hnil ?_)
      rw [← map_fst_entriesOf, List.pairwise_map]
      exact hfirst
    unfold CountsEntries at hcopied ⊢
    rw [hkeys] at hcopied
    exact ⟨_, hcopy, hcopied⟩

/-- `/a` after `/a/b` is an entry that is not counted. -/
theorem not_countsEntries_above :
    (insertAll [] {} [(Path.ofString "/a/b", 1), (Path.ofString "/a", 2)]).2.size = 1 ∧
    (ConstIterator.iterate ⟨fun _ n => n.children, fun _ _ => .refl _⟩
      (insertAll [] {} [(Path.ofString "/a/b", 1), (Path.ofString "/a", 2)]).2.root).map List.length = some 2 ∧
    ¬ CountsEntries (insertAll [] {} [(Path.ofString "/a/b", 1), (Path.ofString "/a", 2)]).2
      [(Path.ofString "/a/b", 1), (Path.ofString "/a", 2)] := by
  have hsize : (insertAll [] {} [(Path.ofString "/a/b", 1), (Path.ofString "/a", 2)]).2.size = 1 := by decide
  refine ⟨hsize, by decide, fun h => ?_⟩
  obtain ⟨infos, -, hlength, hcard, -⟩ := h ⟨fun _ n => n.children, fun _ _ => .refl _⟩
  rw [hsize] at hlength
  rw [← hlength] at hcard
  exact absurd hcard (by decide)

end TrieStorage

end R4R
