import Mathlib.Order.Defs.LinearOrder
import R4R.FileSystemTrieIterator

/-!
# The values of file system tries

A trie keeps its values in a set, and its nodes point to the elements.  Here the pointers are explicit: the elements
of all sets live in one storage, an address is a position in it, and the trie itself is a `FileSystemTrie Address`.
An element stays where it is, so a trie that was copied from another one keeps its map whatever is inserted into
either of them (`insertAll_copy_denotes`).
-/

namespace R4R

open PrefixMap (Enumerates lastAt)

universe u

/-- The address of a value in the storage. -/
abbrev Address := Nat

namespace TrieStorage

variable {T : Type u}

section Operations

variable [LinearOrder T]

/-- A set takes two values for the same element when neither is less than the other. -/
def equivalent (a b : T) : Bool := !decide (a < b) && !decide (b < a)

/-- `unique_values_.insert(value)`: the address of the element, which is a new one unless the set has it. -/
def emplace (storage : List T) (uniqueValues : List Address) (value : T) : List T × List Address × Address :=
  match uniqueValues.find? fun a => storage[a]?.any (equivalent value) with
  | some a => (storage, uniqueValues, a)
  | none => (storage ++ [value], uniqueValues ++ [storage.length], storage.length)

/-- `FileSystemTrie::insert`. -/
def insert (storage : List T) (t : FileSystemTrie Address) (path : Path) (value : T) :
    List T × FileSystemTrie Address :=
  let (storage, uniqueValues, a) := emplace storage t.uniqueValues value
  let r := t.root.insert a path.components
  (storage, { uniqueValues, root := r.1, size := if r.2 then t.size + 1 else t.size })

/-- A sequence of insertions into a trie. -/
def insertAll (storage : List T) (t : FileSystemTrie Address) (inserts : List (Path × T)) :
    List T × FileSystemTrie Address :=
  inserts.foldl (fun s e => insert s.1 s.2 e.1 e.2) (storage, t)

/-- The value that a view points to. -/
def valueOf (storage : List T) (view : NodeView Address) : Option T := view.value.bind (storage[·]?)

/-- `FileSystemTrie(FileSystemTrie const&)`. -/
def copy (order : ChildOrder Address) (storage : List T) (other : FileSystemTrie Address) :
    Option (List T × FileSystemTrie Address) :=
  (ConstIterator.iterate order other.root).bind fun infos =>
    infos.foldlM (fun s info => (valueOf s.1 info).map (insert s.1 s.2 info.path)) (storage, {})

end Operations

/-- The trie is the map: `find` returns a pointer to the entry of the path, and the null pointer when there is none, and
iterating yields a pointer to every entry, with its path. -/
structure Denotes (storage : List T) (t : FileSystemTrie Address) (m : List (List Char) → Option T) : Prop where
  find : ∀ p, (t.find p).map (storage[·]?) = (m p.components).map some
  iterate : ∀ order, ∃ infos, ∃ entries : List (Path × T), ConstIterator.iterate order t.root = some infos ∧
    (infos.map fun info => (info.path, valueOf storage info)) = (entries.map fun e => (e.1, some e.2)) ∧
    Enumerates (entries.map fun e => (e.1.parts, e.2)) m

/-! ### What a trie holds -/

variable [LinearOrder T]

/-- The nodes point to the values that were inserted, and the set has these values. -/
structure Holds (storage : List T) (t : FileSystemTrie Address) (inserts : List (Path × T)) : Prop where
  values : t.uniqueValues.map (storage[·]?) = (FileSystemTrie.ofInserts inserts).uniqueValues.map some
  nodes : ∃ refs : List (Path × Address), t.root = (FileSystemTrie.ofInserts refs).root ∧
    (refs.map fun e => (e.1, storage[e.2]?)) = inserts.map fun e => (e.1, some e.2)

private theorem equivalent_iff {a b : T} : equivalent a b = true ↔ a = b := by
  constructor
  · intro h
    obtain ⟨hle, hge⟩ : b ≤ a ∧ a ≤ b := by simpa [equivalent] using h
    exact le_antisymm hge hle
  · rintro rfl
    simp [equivalent]

theorem holds_empty (storage : List T) : Holds storage {} [] := ⟨rfl, [], rfl, rfl⟩

omit [LinearOrder T] in
private theorem getElem?_append {storage : List T} {a : Address} (more : List T) (h : ∃ v, storage[a]? = some v) :
    (storage ++ more)[a]? = storage[a]? := by
  obtain ⟨v, hv⟩ := h
  exact List.getElem?_append_left (List.getElem?_eq_some_iff.1 hv).1

omit [LinearOrder T] in
/-- Allocating other values changes no element of a set. -/
private theorem map_getElem?_append {storage values : List T} {uniqueValues : List Address}
    (h : uniqueValues.map (storage[·]?) = values.map some) (more : List T) :
    uniqueValues.map ((storage ++ more)[·]?) = values.map some := by
  rw [← h]
  refine List.map_congr_left fun a ha => getElem?_append more ?_
  have hmem := List.mem_map_of_mem (f := (storage[·]?)) ha
  rw [h] at hmem
  obtain ⟨v, -, hv⟩ := List.mem_map.1 hmem
  exact ⟨v, hv.symm⟩

/-- A set that has the value keeps it, and otherwise the value is allocated. -/
private theorem emplace_spec {storage values : List T} {uniqueValues : List Address}
    (h : uniqueValues.map (storage[·]?) = values.map some) (value : T) : ∃ more uniqueValues' a,
      emplace storage uniqueValues value = (storage ++ more, uniqueValues', a) ∧
      (storage ++ more)[a]? = some value ∧
      uniqueValues'.map ((storage ++ more)[·]?) = (Emplace.emplace id values value).map some := by
  unfold emplace
  cases hfind : uniqueValues.find? fun a => storage[a]?.any (equivalent value) with
  | some a =>
    have hpred := List.find?_some hfind
    have hmem := List.mem_map_of_mem (f := (storage[·]?)) (List.mem_of_find?_eq_some hfind)
    rw [h] at hmem
    obtain ⟨v, hv, hav⟩ := List.mem_map.1 hmem
    have heq : value = v := by
      rw [← hav] at hpred
      exact equivalent_iff.1 hpred
    have hin : id value ∈ values.map id := by simpa [heq] using hv
    refine ⟨[], uniqueValues, a, by simp, by simp [← hav, heq], ?_⟩
    rw [Emplace.emplace_of_mem hin, List.append_nil, h]
  | none =>
    have hnone := List.find?_eq_none.1 hfind
    have hnot : id value ∉ values.map id := by
      intro hin
      have hsome : some value ∈ uniqueValues.map (storage[·]?) := by
        rw [h]
        exact List.mem_map_of_mem (by simpa using hin)
      obtain ⟨a, ha, hav⟩ := List.mem_map.1 hsome
      apply hnone a ha
      rw [hav]
      exact equivalent_iff.2 rfl
    refine ⟨[value], uniqueValues ++ [storage.length], storage.length, rfl, by simp, ?_⟩
    rw [Emplace.emplace_of_notMem hnot, List.map_append, List.map_append, map_getElem?_append h]
    simp

/-- An insertion allocates at most one value. -/
theorem insert_storage (storage : List T) (t : FileSystemTrie Address) (path : Path) (value : T) :
    ∃ more, (insert storage t path value).1 = storage ++ more := by
  unfold insert emplace
  cases t.uniqueValues.find? fun a => storage[a]?.any (equivalent value) with
  | some a => exact ⟨[], (List.append_nil storage).symm⟩
  | none => exact ⟨[value], rfl⟩

/-- The same where the trie has had nodes before, which may point anywhere. -/
structure HoldsOver (old : List (Path × Address)) (storage : List T) (t : FileSystemTrie Address)
    (inserts : List (Path × T)) : Prop where
  values : t.uniqueValues.map (storage[·]?) = (FileSystemTrie.ofInserts inserts).uniqueValues.map some
  nodes : ∃ refs : List (Path × Address), t.root = (FileSystemTrie.ofInserts (old ++ refs)).root ∧
    (refs.map fun e => (e.1, storage[e.2]?)) = inserts.map fun e => (e.1, some e.2)

theorem holdsOver_nil_iff {storage : List T} {t : FileSystemTrie Address} {inserts : List (Path × T)} :
    HoldsOver [] storage t inserts ↔ Holds storage t inserts :=
  ⟨fun h => ⟨h.values, h.nodes⟩, fun h => ⟨h.values, h.nodes⟩⟩

section HoldsOver

variable {old : List (Path × Address)} {storage : List T} {t : FileSystemTrie Address} {inserts : List (Path × T)}

/-- Allocating other values changes nothing. -/
private theorem HoldsOver.append (h : HoldsOver old storage t inserts) (more : List T) :
    HoldsOver old (storage ++ more) t inserts := by
  refine ⟨map_getElem?_append h.values more, ?_⟩
  obtain ⟨refs, hroot, hrefs⟩ := h.nodes
  refine ⟨refs, hroot, ?_⟩
  rw [← hrefs]
  refine List.map_congr_left fun e he => ?_
  have hmem := List.mem_map_of_mem (f := fun e : Path × Address => (e.1, storage[e.2]?)) he
  rw [hrefs] at hmem
  obtain ⟨e', -, he'⟩ := List.mem_map.1 hmem
  rw [getElem?_append more ⟨e'.2, (congrArg Prod.snd he').symm⟩]

/-- An insertion puts the value at its path. -/
private theorem HoldsOver.insert (h : HoldsOver old storage t inserts) (path : Path) (value : T) :
    HoldsOver old (insert storage t path value).1 (insert storage t path value).2 (inserts ++ [(path, value)]) := by
  obtain ⟨more, uniqueValues, a, hemplace, ha, hvalues⟩ := emplace_spec h.values value
  obtain ⟨refs, hroot, hrefs⟩ := (h.append more).nodes
  simp only [TrieStorage.insert, hemplace]
  refine ⟨?_, refs ++ [(path, a)], ?_, ?_⟩
  · rw [hvalues, FileSystemTrie.ofInserts_concat]
    rfl
  · rw [hroot, ← List.append_assoc, FileSystemTrie.ofInserts_concat]
    rfl
  · rw [List.map_append, List.map_append, hrefs]
    simp [ha]

/-- A sequence of insertions puts its values at their paths. -/
theorem HoldsOver.insertAll (more : List (Path × T)) : ∀ {storage : List T} {t : FileSystemTrie Address}
    {inserts : List (Path × T)}, HoldsOver old storage t inserts →
    HoldsOver old (insertAll storage t more).1 (insertAll storage t more).2 (inserts ++ more) := by
  induction more with
  | nil =>
    intro storage t inserts h
    rwa [List.append_nil]
  | cons e more ih =>
    intro storage t inserts h
    rw [List.append_cons]
    exact ih (h.insert e.1 e.2)

private theorem Holds.append (h : Holds storage t inserts) (more : List T) : Holds (storage ++ more) t inserts :=
  holdsOver_nil_iff.1 ((holdsOver_nil_iff.2 h).append more)

private theorem Holds.insert (h : Holds storage t inserts) (path : Path) (value : T) :
    Holds (insert storage t path value).1 (insert storage t path value).2 (inserts ++ [(path, value)]) :=
  holdsOver_nil_iff.1 ((holdsOver_nil_iff.2 h).insert path value)

theorem Holds.insertAll (h : Holds storage t inserts) (more : List (Path × T)) :
    Holds (insertAll storage t more).1 (insertAll storage t more).2 (inserts ++ more) :=
  holdsOver_nil_iff.1 ((holdsOver_nil_iff.2 h).insertAll more)

end HoldsOver

/-! ### What a trie denotes -/

omit [LinearOrder T] in
/-- Pointers to the values that were put in, as a map. -/
private theorem lastAt_refs {storage : List T} {refs : List (Path × Address)} {inserts : List (Path × T)}
    (h : (refs.map fun e => (e.1, storage[e.2]?)) = inserts.map fun e => (e.1, some e.2)) (q : List (List Char)) :
    (lastAt (FileSystemTrie.entriesOf refs) q).map (storage[·]?) =
      (lastAt (FileSystemTrie.entriesOf inserts) q).map some := by
  have hentries : (FileSystemTrie.entriesOf refs).map (fun e => (e.1, storage[e.2]?)) =
      (FileSystemTrie.entriesOf inserts).map fun e => (e.1, some e.2) := by
    have := congrArg (List.map fun e => (e.1.components, e.2)) h
    simp only [FileSystemTrie.entriesOf, List.map_map] at this ⊢
    exact this
  rw [← PrefixMap.lastAt_map, hentries, PrefixMap.lastAt_map]

section Denotes

variable {old : List (Path × Address)} {storage : List T} {t : FileSystemTrie Address} {inserts : List (Path × T)}

/-- The nodes the trie had before do not matter where all of their paths are inserted again. -/
private theorem HoldsOver.lastAt_refs (h : HoldsOver old storage t inserts)
    (hold : ∀ e ∈ old, e.1.components ∈ (FileSystemTrie.entriesOf inserts).map Prod.fst) :
    ∃ refs, t.root = (FileSystemTrie.ofInserts refs).root ∧ ∀ q,
      (lastAt (FileSystemTrie.entriesOf refs) q).map (storage[·]?) =
        (lastAt (FileSystemTrie.entriesOf inserts) q).map some := by
  obtain ⟨refs, hroot, hrefs⟩ := h.nodes
  refine ⟨old ++ refs, hroot, fun q => ?_⟩
  have hentries : FileSystemTrie.entriesOf (old ++ refs) =
      FileSystemTrie.entriesOf old ++ FileSystemTrie.entriesOf refs := List.map_append
  rw [← TrieStorage.lastAt_refs hrefs, hentries, PrefixMap.lastAt_append]
  cases hlast : lastAt (FileSystemTrie.entriesOf refs) q with
  | some a => rfl
  | none =>
    have hnone : lastAt (FileSystemTrie.entriesOf old) q = none := by
      rw [PrefixMap.lastAt_eq_none]
      intro hmem
      have hread := TrieStorage.lastAt_refs hrefs q
      rw [hlast, Option.map_none, eq_comm, Option.map_eq_none_iff, PrefixMap.lastAt_eq_none] at hread
      obtain ⟨e, he, rfl⟩ := List.mem_map.1 hmem
      obtain ⟨e', he', rfl⟩ := List.mem_map.1 he
      exact hread (hold e' he')
    rw [hnone]
    rfl

theorem HoldsOver.find_root (h : HoldsOver old storage t inserts)
    (hold : ∀ e ∈ old, e.1.components ∈ (FileSystemTrie.entriesOf inserts).map Prod.fst) (q : List (List Char)) :
    (t.root.find q).map (storage[·]?) = (lastAt (FileSystemTrie.entriesOf inserts) q).map some := by
  obtain ⟨refs, hroot, hread⟩ := h.lastAt_refs hold
  rw [hroot, FileSystemTrie.find_ofInserts]
  exact hread q

/-- A trie denotes the map of the insertions that it holds. -/
theorem HoldsOver.denotes (h : HoldsOver old storage t inserts)
    (hold : ∀ e ∈ old, e.1.components ∈ (FileSystemTrie.entriesOf inserts).map Prod.fst) :
    Denotes storage t (lastAt (FileSystemTrie.entriesOf inserts)) := by
  obtain ⟨refs, hroot, hread⟩ := h.lastAt_refs hold
  refine ⟨fun p => h.find_root hold p.components, ?_⟩
  intro order
  obtain ⟨infos, es, hinfos, hes, henum⟩ := FileSystemTrie.iterate_ofInserts order refs
  -- every view points to a value
  have hrange : (infos.map fun info => (info.path, valueOf storage info)) ∈
      Set.range (List.map fun e : Path × T => (e.1, some e.2)) := by
    rw [Set.range_list_map]
    intro view hview
    obtain ⟨info, hinfo, rfl⟩ := List.mem_map.1 hview
    have hmem := List.mem_map_of_mem (f := fun info : NodeView Address => (info.path.parts, info.value)) hinfo
    rw [hes] at hmem
    obtain ⟨e, he, heq⟩ := List.mem_map.1 hmem
    have hsome := hread e.1
    rw [(henum.mem_iff e.1 e.2).1 he] at hsome
    obtain ⟨v, -, hv⟩ := Option.map_eq_some_iff.1 hsome.symm
    have hvalue : info.value = some e.2 := (congrArg Prod.snd heq).symm
    refine ⟨(info.path, v), Prod.ext rfl ?_⟩
    change some v = valueOf storage info
    rw [valueOf, hvalue]
    exact hv
  obtain ⟨entries, hentries⟩ := hrange
  refine ⟨infos, entries, hroot ▸ hinfos, hentries.symm, henum.through ?_ hread⟩
  have hparts := congrArg (List.map fun e => (e.1.parts, e.2)) hentries
  have hvalues := congrArg (List.map fun e => (e.1, e.2.bind (storage[·]?))) hes
  simp only [List.map_map, Function.comp_def] at hparts hvalues ⊢
  rw [hparts]
  exact hvalues

theorem Holds.denotes (h : Holds storage t inserts) : Denotes storage t (lastAt (FileSystemTrie.entriesOf inserts)) :=
  (holdsOver_nil_iff.2 h).denotes (by simp)

end Denotes

/-! ### Copies -/

theorem insertAll_storage (more : List (Path × T)) : ∀ (storage : List T) (t : FileSystemTrie Address),
    ∃ new, (insertAll storage t more).1 = storage ++ new := by
  induction more with
  | nil => exact fun storage _ => ⟨[], (List.append_nil storage).symm⟩
  | cons e more ih =>
    intro storage t
    obtain ⟨new, hnew⟩ := insert_storage storage t e.1 e.2
    obtain ⟨new', hnew'⟩ := ih (insert storage t e.1 e.2).1 (insert storage t e.1 e.2).2
    refine ⟨new ++ new', ?_⟩
    rw [← List.append_assoc, ← hnew]
    exact hnew'

/-- The loop of the copy constructor inserts the entries that it is shown, while the storage grows. -/
private theorem foldlM_insert {base : List T} (infos : List (NodeView Address)) :
    ∀ (entries : List (Path × T)) (new : List T) (t : FileSystemTrie Address),
    (infos.map fun info => (info.path, valueOf base info)) = (entries.map fun e => (e.1, some e.2)) →
    infos.foldlM (fun s info => (valueOf s.1 info).map (insert s.1 s.2 info.path)) (base ++ new, t) =
      some (insertAll (base ++ new) t entries) := by
  induction infos with
  | nil =>
    intro entries new t h
    obtain rfl : entries = [] := by simpa using h.symm
    rfl
  | cons info infos ih =>
    intro entries new t h
    obtain _ | ⟨e, entries⟩ := entries
    · cases h
    · obtain ⟨hinfo, hrest⟩ := List.cons.inj h
      obtain ⟨hpath, hvalue⟩ := Prod.mk.inj hinfo
      have hgrown : valueOf (base ++ new) info = some e.2 := by
        obtain ⟨a, ha, hread⟩ := Option.bind_eq_some_iff.1 hvalue
        rw [valueOf, ha, Option.bind_some, getElem?_append new ⟨e.2, hread⟩, hread]
      obtain ⟨new', hnew'⟩ := insert_storage (base ++ new) t e.1 e.2
      have hstate : insert (base ++ new) t e.1 e.2 = (base ++ (new ++ new'), (insert (base ++ new) t e.1 e.2).2) :=
        Prod.ext (by rw [hnew', List.append_assoc]) rfl
      have hinserts : insertAll (base ++ new) t (e :: entries) =
          insertAll (base ++ (new ++ new')) (insert (base ++ new) t e.1 e.2).2 entries := by
        unfold insertAll
        rw [List.foldl_cons, hstate]
      rw [List.foldlM_cons, hgrown, hpath, hinserts, ← ih entries (new ++ new') _ hrest, ← hstate]
      rfl

/-- Iterating a trie shows its entries, parents first. -/
theorem Holds.iterate_entries {storage : List T} {t : FileSystemTrie Address} {inserts : List (Path × T)}
    (h : Holds storage t inserts) (order : ChildOrder Address) : ∃ infos, ∃ entries : List (Path × T),
      ConstIterator.iterate order t.root = some infos ∧
      (infos.map fun info => (info.path, valueOf storage info)) = (entries.map fun e => (e.1, some e.2)) ∧
      Enumerates (FileSystemTrie.entriesOf entries) (lastAt (FileSystemTrie.entriesOf inserts)) ∧
      (FileSystemTrie.entriesOf entries).Pairwise fun e e' => ¬ e'.1 <+: e.1 := by
  obtain ⟨infos, entries, hinfos, hviews, henum⟩ := h.denotes.iterate order
  have hparts : FileSystemTrie.entriesOf entries = entries.map fun e => (e.1.parts, e.2) := by
    refine List.map_congr_left fun e he => ?_
    have hlast := (henum.mem_iff e.1.parts e.2).1 (List.mem_map_of_mem (f := fun e => (e.1.parts, e.2)) he)
    obtain ⟨e', -, he'⟩ := List.mem_map.1 (PrefixMap.mem_of_lastAt hlast)
    rw [Path.components_eq_parts (congrArg Prod.fst he').symm]
  refine ⟨infos, entries, hinfos, hviews, hparts ▸ henum, ?_⟩
  obtain ⟨refs, hroot, -⟩ := h.nodes
  have hfirst := FileSystemTrie.parentsFirst_ofInserts (hroot ▸ hinfos)
  have hpaths := congrArg (List.map Prod.fst) hviews
  simp only [List.map_map, Function.comp_def] at hpaths
  rw [hparts, List.pairwise_map]
  have hpairs := (List.pairwise_map (f := fun info : NodeView Address => info.path)
    (R := fun p p' : Path => ¬ p'.parts <+: p.parts)).2 hfirst
  rw [hpaths, List.pairwise_map] at hpairs
  exact hpairs

/-- The copy of a trie is made by inserting its entries, parents first. -/
theorem Holds.copy_eq {storage : List T} {t : FileSystemTrie Address} {inserts : List (Path × T)}
    (h : Holds storage t inserts) (order : ChildOrder Address) : ∃ infos, ∃ entries : List (Path × T),
      ConstIterator.iterate order t.root = some infos ∧ infos.length = entries.length ∧
      copy order storage t = some (TrieStorage.insertAll storage {} entries) ∧
      Enumerates (FileSystemTrie.entriesOf entries) (lastAt (FileSystemTrie.entriesOf inserts)) ∧
      (FileSystemTrie.entriesOf entries).Pairwise fun e e' => ¬ e'.1 <+: e.1 := by
  obtain ⟨infos, entries, hinfos, hviews, henum, hfirst⟩ := h.iterate_entries order
  have hcopy := foldlM_insert infos entries [] {} hviews
  rw [List.append_nil] at hcopy
  refine ⟨infos, entries, hinfos, by simpa using congrArg List.length hviews, ?_, henum, hfirst⟩
  rw [TrieStorage.copy, hinfos]
  exact hcopy

/-- The copy of a trie holds the entries of that trie. -/
private theorem Holds.copy {storage : List T} {t : FileSystemTrie Address} {inserts : List (Path × T)}
    (h : Holds storage t inserts) (order : ChildOrder Address) : ∃ s entries, copy order storage t = some s ∧
      (∃ new, s.1 = storage ++ new) ∧ Holds s.1 s.2 entries ∧
      lastAt (FileSystemTrie.entriesOf entries) = lastAt (FileSystemTrie.entriesOf inserts) := by
  obtain ⟨-, entries, -, -, hcopy, henum, -⟩ := h.copy_eq order
  exact ⟨_, entries, hcopy, insertAll_storage entries storage {}, (holds_empty storage).insertAll entries,
    henum.lastAt_eq⟩

/-! ### A trie and its copy -/

/-- Which of the two tries an insertion goes into. -/
inductive Side where
  | original
  | copy
deriving DecidableEq

/-- A trie, its copy, and the storage that both use. -/
structure Tries (T : Type u) where
  storage : List T
  original : FileSystemTrie Address
  copy : FileSystemTrie Address

def Tries.insert (s : Tries T) : Side × Path × T → Tries T
  | (.original, path, value) =>
    let r := TrieStorage.insert s.storage s.original path value
    { s with storage := r.1, original := r.2 }
  | (.copy, path, value) =>
    let r := TrieStorage.insert s.storage s.copy path value
    { s with storage := r.1, copy := r.2 }

omit [LinearOrder T] in
/-- The insertions into one of the tries. -/
def insertsInto (side : Side) (later : List (Side × Path × T)) : List (Path × T) :=
  (later.filter fun e => e.1 = side).map Prod.snd

/-- What each of the tries holds. -/
structure Tries.Hold (s : Tries T) (inserts inserts' : List (Path × T)) : Prop where
  original : Holds s.storage s.original inserts
  copy : Holds s.storage s.copy inserts'

private theorem Tries.Hold.insert {s : Tries T} {inserts inserts' : List (Path × T)} (h : s.Hold inserts inserts')
    (e : Side × Path × T) :
    (s.insert e).Hold (inserts ++ insertsInto .original [e]) (inserts' ++ insertsInto .copy [e]) := by
  obtain ⟨side, path, value⟩ := e
  cases side with
  | original =>
    obtain ⟨new, hnew⟩ := insert_storage s.storage s.original path value
    refine ⟨h.original.insert path value, ?_⟩
    have hcopy := h.copy.append new
    rw [← hnew] at hcopy
    have hnone : inserts' ++ insertsInto .copy [(Side.original, path, value)] = inserts' := List.append_nil _
    exact hnone.symm ▸ hcopy
  | copy =>
    obtain ⟨new, hnew⟩ := insert_storage s.storage s.copy path value
    refine ⟨?_, h.copy.insert path value⟩
    have horiginal := h.original.append new
    rw [← hnew] at horiginal
    have hnone : inserts ++ insertsInto .original [(Side.copy, path, value)] = inserts := List.append_nil _
    exact hnone.symm ▸ horiginal

/-- Each of the tries holds what was inserted into it. -/
theorem Tries.Hold.foldl (later : List (Side × Path × T)) : ∀ {s : Tries T} {inserts inserts' : List (Path × T)},
    s.Hold inserts inserts' → (later.foldl Tries.insert s).Hold (inserts ++ insertsInto .original later)
      (inserts' ++ insertsInto .copy later) := by
  induction later with
  | nil =>
    intro s inserts inserts' h
    simpa [insertsInto] using h
  | cons e later ih =>
    intro s inserts inserts' h
    have hcons : ∀ side, insertsInto side (e :: later) = insertsInto side [e] ++ insertsInto side later := by
      intro side
      rw [insertsInto, ← List.singleton_append, List.filter_append, List.map_append]
      rfl
    rw [hcons, hcons, ← List.append_assoc, ← List.append_assoc]
    exact ih (h.insert e)

/-- A trie denotes the map of its insertions.  A copy of it, in whichever order the original is iterated, denotes the
same map, and from then on each of the two denotes the map of the insertions into it. -/
theorem insertAll_copy_denotes (storage : List T) (inserts : List (Path × T)) :
    Denotes (insertAll storage {} inserts).1 (insertAll storage {} inserts).2
      (lastAt (FileSystemTrie.entriesOf inserts)) ∧
    ∀ order, ∃ s, copy order (insertAll storage {} inserts).1 (insertAll storage {} inserts).2 = some s ∧
      ∀ later, ∃ final, final = later.foldl Tries.insert ⟨s.1, (insertAll storage {} inserts).2, s.2⟩ ∧
        Denotes final.storage final.original
          (lastAt (FileSystemTrie.entriesOf (inserts ++ insertsInto .original later))) ∧
        Denotes final.storage final.copy
          (lastAt (FileSystemTrie.entriesOf (inserts ++ insertsInto .copy later))) := by
  have hholds := (holds_empty storage).insertAll inserts
  rw [List.nil_append] at hholds
  refine ⟨hholds.denotes, ?_⟩
  intro order
  obtain ⟨s, entries, hcopy, ⟨new, hnew⟩, hentries, hsame⟩ := hholds.copy order
  refine ⟨s, hcopy, ?_⟩
  intro later
  have hboth : Tries.Hold ⟨s.1, (insertAll storage {} inserts).2, s.2⟩ inserts entries := by
    have horiginal := hholds.append new
    rw [← hnew] at horiginal
    exact ⟨horiginal, hentries⟩
  have hfinal := hboth.foldl later
  refine ⟨_, rfl, hfinal.original.denotes, ?_⟩
  -- what was copied and what the original holds are the same map
  have hmap : lastAt (FileSystemTrie.entriesOf (entries ++ insertsInto .copy later)) =
      lastAt (FileSystemTrie.entriesOf (inserts ++ insertsInto .copy later)) := by
    simp only [FileSystemTrie.entriesOf, List.map_append]
    exact PrefixMap.lastAt_append_congr hsame _
  exact hmap ▸ hfinal.copy.denotes

end TrieStorage

end R4R
