import R4R.FileSystemTrieSize

/-!
# Assigning file system tries

The copy assignment of `FileSystemTrie` has a result but no `return`, so no call of it comes back.  Its statements
forget the values and the size of the trie but keep its nodes, which point to values that are gone until they are
inserted again.  So the trie that they leave agrees with the other one exactly when all of its paths are paths of the
other one, and the entries that it counts are as many as the other one has counted (`assign_never_returns`).
-/

namespace R4R

open PrefixMap (Enumerates created lastAt)

universe u

/-- What the assignment keeps of a trie: `size_ = 0` and `unique_values_.clear()`. -/
def FileSystemTrie.cleared {T : Type u} (t : FileSystemTrie T) : FileSystemTrie T :=
  { t with uniqueValues := [], size := 0 }

namespace TrieStorage

open FileSystemTrie (keysOf entriesOf)

variable {T : Type u}

/-- How the body of a function ends. -/
inductive Ending (σ : Type u) where
  | returned (state : σ)
  /-- at its closing brace, where the behaviour of a function with a result is undefined -/
  | offEnd (state : σ)

namespace Tries

def side (s : Tries T) : Side → FileSystemTrie Address
  | .original => s.original
  | .copy => s.copy

/-- A trie is put in the place of one of the tries. -/
def put (s : Tries T) (t : FileSystemTrie Address) : Side → Tries T
  | .original => { s with original := t }
  | .copy => { s with copy := t }

/-- `*info.value`, which can be read while the trie on the side has the value. -/
def read (s : Tries T) (side : Side) (info : NodeView Address) : Option T :=
  info.value.bind fun a => if a ∈ (s.side side).uniqueValues then s.storage[a]? else none

/-- The statements of `operator=(FileSystemTrie const&)`; the two may be the same trie.  Nothing comes of them when they
read a value that is gone. -/
def assignBody [LinearOrder T] (order : ChildOrder Address) (s : Tries T) (target other : Side) : Option (Tries T) :=
  let cleared := s.put (s.side target).cleared target
  (ConstIterator.iterate order (cleared.side other).root).bind fun infos =>
    infos.foldlM (fun s info => (s.read other info).map fun value => s.insert (target, info.path, value)) cleared

/-- `operator=(FileSystemTrie const&)`. -/
def assign [LinearOrder T] (order : ChildOrder Address) (s : Tries T) (target other : Side) :
    Option (Ending (Tries T)) :=
  (s.assignBody order target other).map .offEnd

/-- Two tries that insertions have built. -/
def build [LinearOrder T] (storage : List T) (ops : List (Side × Path × T)) : Tries T :=
  ops.foldl Tries.insert ⟨storage, {}, {}⟩

private theorem build_concat [LinearOrder T] (storage : List T) (ops : List (Side × Path × T)) (e : Side × Path × T) :
    build storage (ops ++ [e]) = (build storage ops).insert e := List.foldl_append

@[simp] theorem side_put_self (s : Tries T) (t : FileSystemTrie Address) (side : Side) :
    (s.put t side).side side = t := by
  cases side <;> rfl

private theorem side_put_ne (s : Tries T) (t : FileSystemTrie Address) {a b : Side} (h : a ≠ b) :
    (s.put t b).side a = s.side a := by
  cases a <;> cases b <;> first | rfl | exact absurd rfl h

@[simp] theorem storage_put (s : Tries T) (t : FileSystemTrie Address) (side : Side) :
    (s.put t side).storage = s.storage := by
  cases side <;> rfl

section Insert

variable [LinearOrder T] (s : Tries T) (e : Side × Path × T)

private theorem storage_insert : (s.insert e).storage = (TrieStorage.insert s.storage (s.side e.1) e.2.1 e.2.2).1 := by
  obtain ⟨side, path, value⟩ := e
  cases side <;> rfl

private theorem side_insert_self : (s.insert e).side e.1 = (TrieStorage.insert s.storage (s.side e.1) e.2.1 e.2.2).2 :=
    by
  obtain ⟨side, path, value⟩ := e
  cases side <;> rfl

private theorem side_insert_ne {side : Side} (h : side ≠ e.1) : (s.insert e).side side = s.side side := by
  obtain ⟨side', path, value⟩ := e
  cases side <;> cases side' <;> first | rfl | exact absurd rfl h

end Insert

end Tries

/-- The trie has the value to which the pointer points. -/
def Returns (t : FileSystemTrie Address) (a : Address) : Prop :=
  (∃ p, t.find p = some a ∨ t.findLastMatching p = some a) ∨
    ∃ order infos, ConstIterator.iterate order t.root = some infos ∧ ∃ info ∈ infos, info.value = some a

/-- After an assignment the target agrees with what the other trie was before, the values that it returns are its own,
and the other trie is what it was. -/
structure Agrees (before after : Tries T) (target other : Side) : Prop where
  find : ∀ p, ((after.side target).find p).map (after.storage[·]?) =
    ((before.side other).find p).map (before.storage[·]?)
  findLastMatching : ∀ p, ((after.side target).findLastMatching p).map (after.storage[·]?) =
    ((before.side other).findLastMatching p).map (before.storage[·]?)
  iterate : ∀ order order', ∃ infos infos',
    ConstIterator.iterate order (after.side target).root = some infos ∧
    ConstIterator.iterate order' (before.side other).root = some infos' ∧
    (infos.map fun info => (info.path.parts, valueOf after.storage info)).Perm
      (infos'.map fun info => (info.path.parts, valueOf before.storage info))
  size : (after.side target).size = (before.side other).size
  owned : ∀ a, Returns (after.side target) a → a ∈ (after.side target).uniqueValues
  unchanged : target ≠ other → after.side other = before.side other ∧ before.storage <+: after.storage

/-- The assignments of tries that were built by the insertions which go well. -/
def Assignable [LinearOrder T] (storage : List T) (ops : List (Side × Path × T)) (target other : Side) : Prop :=
  if target = other then insertsInto other ops = []
  else (∀ q ∈ keysOf (insertsInto target ops), q ∈ keysOf (insertsInto other ops)) ∧
    ((keysOf (insertsInto other ops)).toFinset.filter fun q =>
      q ≠ [] ∧ ∀ q' ∈ keysOf (insertsInto target ops), ¬ q <+: q').card = ((Tries.build storage ops).side other).size

/-! ### Pointers to values that are gone -/

/-- The nodes point to values of the trie, but for those of a former trie at other keys. -/
def OwnedBut (stale : Node Address) (t : FileSystemTrie Address) (keys : List (List (List Char))) : Prop :=
  ∀ d a, t.root.find d = some a → a ∈ t.uniqueValues ∨ stale.find d = some a ∧ d ∉ keys

variable [LinearOrder T]

/-- A set keeps its elements and gets the new one. -/
private theorem mem_emplace (storage : List T) (uniqueValues : List Address) (value : T) :
    (emplace storage uniqueValues value).2.2 ∈ (emplace storage uniqueValues value).2.1 ∧
      ∀ a ∈ uniqueValues, a ∈ (emplace storage uniqueValues value).2.1 := by
  unfold emplace
  cases hfind : uniqueValues.find? fun a => storage[a]?.any (equivalent value) with
  | some a => exact ⟨List.mem_of_find?_eq_some hfind, fun _ h => h⟩
  | none => exact ⟨List.mem_append_right _ (List.mem_singleton_self _), fun _ h => List.mem_append_left _ h⟩

section OwnedBut

variable {stale : Node Address} {t : FileSystemTrie Address} {keys : List (List (List Char))}

private theorem OwnedBut.insert (h : OwnedBut stale t keys) (storage : List T) (path : Path) (value : T) :
    OwnedBut stale (insert storage t path value).2 (keys ++ [path.components]) := by
  intro d a hfind
  obtain ⟨hnew, hold⟩ := mem_emplace storage t.uniqueValues value
  change (t.root.insert _ path.components).1.find d = some a at hfind
  rw [Node.find_insert] at hfind
  split at hfind
  · obtain rfl := Option.some.inj hfind
    exact .inl hnew
  · rename_i hne
    rcases h d a hfind with hmem | ⟨hstale, hkeys⟩
    · exact .inl (hold a hmem)
    · refine .inr ⟨hstale, ?_⟩
      rw [List.mem_append, List.mem_singleton, not_or]
      exact ⟨hkeys, fun heq => hne heq.symm⟩

private theorem OwnedBut.insertAll (more : List (Path × T)) :
    ∀ {t : FileSystemTrie Address} {keys : List (List (List Char))}, OwnedBut stale t keys → ∀ storage : List T,
      OwnedBut stale (insertAll storage t more).2 (keys ++ keysOf more) := by
  induction more with
  | nil =>
    intro t keys h storage
    exact (List.append_nil keys).symm ▸ h
  | cons e more ih =>
    intro t keys h storage
    have hrest := ih (h.insert storage e.1 e.2) (TrieStorage.insert storage t e.1 e.2).1
    rw [List.append_assoc] at hrest
    exact hrest

end OwnedBut

/-! ### Built tries -/

private theorem holds_build (storage : List T) (ops : List (Side × Path × T)) (side : Side) :
    Holds (Tries.build storage ops).storage ((Tries.build storage ops).side side) (insertsInto side ops) := by
  have h : Tries.Hold (⟨storage, {}, {}⟩ : Tries T) [] [] := ⟨holds_empty storage, holds_empty storage⟩
  have hfinal := h.foldl ops
  rw [List.nil_append, List.nil_append] at hfinal
  cases side with
  | original => exact hfinal.original
  | copy => exact hfinal.copy

private theorem owned_build (storage : List T) (ops : List (Side × Path × T)) (side : Side) :
    ∃ keys, OwnedBut .empty ((Tries.build storage ops).side side) keys := by
  induction ops using List.reverseRecOn with
  | nil =>
    refine ⟨[], fun d a hfind => ?_⟩
    rw [show ((Tries.build storage []).side side).root = .empty by cases side <;> rfl, Node.find_empty] at hfind
    cases hfind
  | append_singleton ops e ih =>
    obtain ⟨keys, h⟩ := ih
    rw [Tries.build_concat]
    by_cases hside : side = e.1
    · rw [hside, Tries.side_insert_self, ← hside]
      exact ⟨_, h.insert _ _ _⟩
    · rw [Tries.side_insert_ne _ _ hside]
      exact ⟨keys, h⟩

/-- A trie into which nothing is inserted stays empty. -/
private theorem side_build_of_nil {storage : List T} {ops : List (Side × Path × T)} {side : Side}
    (h : insertsInto side ops = []) : (Tries.build storage ops).side side = {} := by
  induction ops using List.reverseRecOn with
  | nil => cases side <;> rfl
  | append_singleton ops e ih =>
    have happend : insertsInto side (ops ++ [e]) = insertsInto side ops ++ insertsInto side [e] := by
      rw [insertsInto, List.filter_append, List.map_append]
      rfl
    obtain ⟨hops, he⟩ := List.append_eq_nil_iff.1 (happend.symm.trans h)
    have hside : side ≠ e.1 := by
      rintro rfl
      simp [insertsInto] at he
    rw [Tries.build_concat, Tries.side_insert_ne _ _ hside, ih hops]

/-- The root of a trie has distinct keys. -/
private theorem HoldsOver.distinct {old : List (Path × Address)} {storage : List T} {t : FileSystemTrie Address}
    {inserts : List (Path × T)} (h : HoldsOver old storage t inserts) : t.root.Distinct := by
  obtain ⟨refs, hroot, -⟩ := h.nodes
  exact hroot ▸ FileSystemTrie.distinct_ofInserts _

omit [LinearOrder T] in
/-- What a trie returns is found in it. -/
private theorem Returns.exists_find {t : FileSystemTrie Address} {a : Address} (h : Returns t a)
    (hroot : t.root.Distinct) :
    ∃ d, t.root.find d = some a := by
  rcases h with ⟨p, hfind | hlast⟩ | ⟨order, infos, hinfos, info, hinfo, hvalue⟩
  · exact ⟨_, hfind⟩
  · obtain ⟨d, -, -, -, hd⟩ := Node.findLastMatching_spec p.components t.root
    exact ⟨d, hd.symm.trans hlast⟩
  · obtain ⟨d, a', ha', hfind⟩ := ConstIterator.find_of_iterate hroot hinfos hinfo
    rw [hvalue] at ha'
    exact ⟨d, Option.some.inj ha' ▸ hfind⟩

/-! ### The loop of the assignment -/

/-- The loop inserts the entries of the other trie, which stays what it is. -/
private theorem foldlM_assign {target other : Side} (hne : other ≠ target) {base : List T}
    (infos : List (NodeView Address)) :
    ∀ (entries : List (Path × T)) (s : Tries T) (new : List T), s.storage = base ++ new →
      (infos.map fun info => (info.path, valueOf base info)) = (entries.map fun e => (e.1, some e.2)) →
      (∀ info ∈ infos, ∀ a, info.value = some a → a ∈ (s.side other).uniqueValues) →
      ∃ after, infos.foldlM (fun s info => (s.read other info).map fun value => s.insert (target, info.path, value)) s =
        some after ∧ after.storage = (insertAll s.storage (s.side target) entries).1 ∧
        after.side target = (insertAll s.storage (s.side target) entries).2 ∧ after.side other = s.side other := by
  induction infos with
  | nil =>
    intro entries s new _ hviews _
    obtain rfl : entries = [] := by simpa using hviews.symm
    exact ⟨s, rfl, rfl, rfl, rfl⟩
  | cons info infos ih =>
    intro entries s new hstorage hviews howned
    obtain _ | ⟨e, entries⟩ := entries
    · cases hviews
    · obtain ⟨hinfo, hrest⟩ := List.cons.inj hviews
      obtain ⟨hpath, hvalue⟩ := Prod.mk.inj hinfo
      obtain ⟨hmem, howned⟩ := List.forall_mem_cons.1 howned
      have hread : s.read other info = some e.2 := by
        obtain ⟨a, ha, hread⟩ := Option.bind_eq_some_iff.1 hvalue
        have hgrown : (base ++ new)[a]? = base[a]? :=
          List.getElem?_append_left (List.getElem?_eq_some_iff.1 hread).1
        rw [Tries.read, ha, Option.bind_some, if_pos (hmem a ha), hstorage, hgrown, hread]
      have hside := s.side_insert_ne (target, info.path, e.2) hne
      have hself := s.side_insert_self (target, info.path, e.2)
      have hgrow := s.storage_insert (target, info.path, e.2)
      obtain ⟨new', hnew'⟩ := insert_storage s.storage (s.side target) info.path e.2
      obtain ⟨after, hfold, hafter, htarget, hother⟩ := ih entries (s.insert (target, info.path, e.2)) (new ++ new')
        (by rw [hgrow, hnew', hstorage, List.append_assoc]) hrest (by rw [hside]; exact howned)
      refine ⟨after, ?_, ?_, ?_, hother.trans hside⟩
      · rw [List.foldlM_cons, hread]
        exact hfold
      · rw [hafter, hgrow, hself, hpath]
        rfl
      · rw [htarget, hgrow, hself, hpath]
        rfl

private theorem assign_eq {s : Tries T} {target other : Side} (hne : target ≠ other) {inserts : List (Path × T)}
    (h : Holds s.storage (s.side other) inserts)
    (howned : ∀ d a, (s.side other).root.find d = some a → a ∈ (s.side other).uniqueValues)
    (order : ChildOrder Address) : ∃ after, ∃ entries : List (Path × T), s.assignBody order target other = some after ∧
      after.storage = (insertAll s.storage (s.side target).cleared entries).1 ∧
      after.side target = (insertAll s.storage (s.side target).cleared entries).2 ∧
      after.side other = s.side other ∧ Enumerates (entriesOf entries) (lastAt (entriesOf inserts)) ∧
      (entriesOf entries).Pairwise fun e e' => ¬ e'.1 <+: e.1 := by
  obtain ⟨infos, entries, hinfos, hviews, henum, hfirst⟩ := h.iterate_entries order
  have hside := s.side_put_ne (s.side target).cleared hne.symm
  obtain ⟨after, hfold, hafter, htarget, hother⟩ := foldlM_assign hne.symm infos entries
    (s.put (s.side target).cleared target) [] (by simp) hviews (by
      intro info hinfo a ha
      obtain ⟨d, a', ha', hfind⟩ := ConstIterator.find_of_iterate (holdsOver_nil_iff.2 h).distinct hinfos hinfo
      rw [ha] at ha'
      obtain rfl := Option.some.inj ha'
      rw [hside]
      exact howned d a hfind)
  rw [Tries.side_put_self, Tries.storage_put] at hafter htarget
  refine ⟨after, entries, ?_, hafter, htarget, hother.trans hside, henum, hfirst⟩
  rw [Tries.assignBody]
  simp only [hside, hinfos, Option.bind_some]
  exact hfold

private theorem card_filter_toFinset {κ : Type u} [DecidableEq κ] {l : List κ} (h : l.Nodup) (P : κ → Prop)
    [DecidablePred P] : (l.toFinset.filter P).card = l.countP fun q => P q := by
  rw [List.countP_eq_length_filter, ← List.toFinset_card_of_nodup (h.filter _)]
  congr 1
  ext q
  simp

/-- What an assignment of a trie to another one leaves. -/
structure Assigned (before after : Tries T) (target other : Side) (inserts inserts' entries : List (Path × T)) :
    Prop where
  held : ∃ old, keysOf old = keysOf inserts ∧ HoldsOver old after.storage (after.side target) entries
  enumerates : Enumerates (entriesOf entries) (lastAt (entriesOf inserts'))
  owned : OwnedBut (before.side target).root (after.side target) (keysOf entries)
  nodes : NodesAt (after.side target) (keysOf inserts ++ keysOf entries)
  size : (after.side target).size =
    ((keysOf inserts').toFinset.filter fun q => q ≠ [] ∧ ∀ q' ∈ keysOf inserts, ¬ q <+: q').card
  other : after.side other = before.side other
  storage : before.storage <+: after.storage

private theorem assigned_of_holds {s : Tries T} {target other : Side} (hne : target ≠ other)
    {inserts inserts' : List (Path × T)} (htarget : Holds s.storage (s.side target) inserts)
    (hother : Holds s.storage (s.side other) inserts')
    (howned : ∀ d a, (s.side other).root.find d = some a → a ∈ (s.side other).uniqueValues)
    (order : ChildOrder Address) : ∃ after entries, s.assignBody order target other = some after ∧
      Assigned s after target other inserts inserts' entries := by
  obtain ⟨after, entries, hassign, hstorage, hside, hsame, henum, hfirst⟩ := assign_eq hne hother howned order
  obtain ⟨old, hroot, hold⟩ := htarget.nodes
  have hcleared : HoldsOver old s.storage (s.side target).cleared ([] : List (Path × T)) :=
    ⟨rfl, [], by rw [List.append_nil]; exact hroot, rfl⟩
  have hnodes : NodesAt (s.side target).cleared (keysOf inserts) := htarget.nodesAt
  have hstale : OwnedBut (s.side target).root (s.side target).cleared [] :=
    fun d a hfind => .inr ⟨hfind, List.not_mem_nil⟩
  obtain ⟨hnodes', hsize⟩ := hnodes.insertAll entries s.storage
  refine ⟨after, entries, hassign, ⟨old, ?_, ?_⟩, henum, ?_, ?_, ?_, hsame, ?_⟩
  · have hpaths := congrArg (List.map fun e => e.1.components) hold
    simp only [List.map_map] at hpaths
    exact hpaths
  · rw [hstorage, hside]
    exact hcleared.insertAll entries
  · rw [hside]
    exact hstale.insertAll entries s.storage
  · rw [hside]
    exact hnodes'
  · have hkeys : (keysOf entries).Pairwise fun q p => ¬ p <+: q := by
      rw [← map_fst_entriesOf, List.pairwise_map]
      exact hfirst
    have hnodup : (keysOf entries).Nodup := map_fst_entriesOf entries ▸ henum.nodup
    rw [hside, hsize, PrefixMap.created_of_pairwise hkeys, ← toFinset_keysOf henum, card_filter_toFinset hnodup]
    exact Nat.zero_add _
  · obtain ⟨new, hnew⟩ := insertAll_storage entries s.storage (s.side target).cleared
    exact ⟨new, by rw [hstorage, hnew]⟩

section Assigned

variable {before after : Tries T} {target other : Side} {inserts inserts' entries : List (Path × T)}

/-- When all paths of the target are paths of the other trie, its former nodes do not matter. -/
private theorem Assigned.old_covered (h : Assigned before after target other inserts inserts' entries)
    (hsub : ∀ q ∈ keysOf inserts, q ∈ keysOf inserts') {old : List (Path × Address)}
    (hold : keysOf old = keysOf inserts) :
    ∀ e ∈ old, e.1.components ∈ (entriesOf entries).map Prod.fst := by
  intro e he
  have hmem : e.1.components ∈ keysOf inserts := hold ▸ List.mem_map_of_mem he
  rw [map_fst_entriesOf, mem_keysOf_iff h.enumerates]
  exact hsub _ hmem

/-- A path of the target is still found. -/
private theorem Assigned.find_old (h : Assigned before after target other inserts inserts' entries) {e : Path × T}
    (he : e ∈ inserts) :
    ((after.side target).find e.1).isSome := by
  obtain ⟨old, hold, hover⟩ := h.held
  obtain ⟨refs, hroot, -⟩ := hover.nodes
  have hmem : e.1.components ∈ keysOf (old ++ refs) := by
    have happend : keysOf (old ++ refs) = keysOf old ++ keysOf refs := List.map_append
    rw [happend, hold]
    exact List.mem_append_left _ (List.mem_map_of_mem he)
  rw [FileSystemTrie.find, hroot, FileSystemTrie.find_ofInserts, Option.isSome_iff_ne_none, Ne,
    PrefixMap.lastAt_eq_none, map_fst_entriesOf]
  exact fun hno => hno hmem

private theorem Assigned.agrees (h : Assigned before after target other inserts inserts' entries)
    (htarget : Holds before.storage (before.side target) inserts)
    (hother : Holds before.storage (before.side other) inserts') (hsub : ∀ q ∈ keysOf inserts, q ∈ keysOf inserts')
    (hsize : ((keysOf inserts').toFinset.filter fun q => q ≠ [] ∧ ∀ q' ∈ keysOf inserts, ¬ q <+: q').card =
      (before.side other).size) : Agrees before after target other := by
  obtain ⟨old, hold, hover⟩ := h.held
  have hcovered := h.old_covered hsub hold
  have hmap : lastAt (entriesOf entries) = lastAt (entriesOf inserts') := h.enumerates.lastAt_eq
  have hfind : ∀ q, ((after.side target).root.find q).map (after.storage[·]?) =
      ((before.side other).root.find q).map (before.storage[·]?) := by
    intro q
    rw [hover.find_root hcovered, hmap, (holdsOver_nil_iff.2 hother).find_root (by simp)]
  refine ⟨fun p => hfind p.components, ?_, ?_, h.size.trans hsize, ?_, fun _ => ⟨h.other, h.storage⟩⟩
  · intro p
    have hnodes : ∀ d, ((after.side target).root.walk d).isSome ↔ ((before.side other).root.walk d).isSome := by
      intro d
      rw [h.nodes d, hother.nodesAt d]
      refine or_congr_right (exists_congr fun q => and_congr_left fun _ => ?_)
      rw [List.mem_append, mem_keysOf_iff h.enumerates]
      exact or_iff_right_of_imp (hsub q)
    obtain ⟨d, hlast, hlast'⟩ := Node.findLastMatching_congr p.components hnodes
    rw [FileSystemTrie.findLastMatching, FileSystemTrie.findLastMatching, hlast, hlast']
    exact hfind d
  · intro order order'
    obtain ⟨infos, es, hinfos, hviews, henum⟩ := (hover.denotes hcovered).iterate order
    obtain ⟨infos', es', hinfos', hviews', henum'⟩ := hother.denotes.iterate order'
    have hparts : ∀ {storage : List T} {infos : List (NodeView Address)} {es : List (Path × T)},
        (infos.map fun info => (info.path, valueOf storage info)) = (es.map fun e => (e.1, some e.2)) →
        (infos.map fun info => (info.path.parts, valueOf storage info)) =
          (es.map fun e => (e.1.parts, e.2)).map fun e => (e.1, some e.2) := by
      intro storage infos es hviews
      have hmapped := congrArg (List.map fun e => (e.1.parts, e.2)) hviews
      simp only [List.map_map] at hmapped ⊢
      exact hmapped
    refine ⟨infos, infos', hinfos, hinfos', ?_⟩
    rw [hparts hviews, hparts hviews']
    exact (henum.perm_of (hmap ▸ henum')).map _
  · intro a ha
    obtain ⟨d, hd⟩ := ha.exists_find hover.distinct
    rcases h.owned d a hd with hmem | ⟨hstale, hd⟩
    · exact hmem
    · have hread := (holdsOver_nil_iff.2 htarget).find_root (by simp) d
      rw [hstale, Option.map_some] at hread
      have hmem : d ∈ keysOf inserts := by
        rw [← map_fst_entriesOf]
        by_contra hnot
        rw [PrefixMap.lastAt_eq_none.2 hnot] at hread
        cases hread
      exact absurd ((mem_keysOf_iff h.enumerates d).2 (hsub d hmem)) hd

end Assigned

/-- An assignment of a trie to itself reads a value that is gone, when there is one. -/
private theorem assign_self (s : Tries T) {inserts : List (Path × T)} {side : Side}
    (h : Holds s.storage (s.side side) inserts) (hne : inserts ≠ []) (order : ChildOrder Address) :
    s.assignBody order side side = none := by
  obtain ⟨infos, -, hinfos, -⟩ := h.iterate_entries order
  have hlength := h.length_iterate hinfos
  have hroot : ((s.put (s.side side).cleared side).side side).root = (s.side side).root := by
    rw [Tries.side_put_self]
    rfl
  rw [Tries.assignBody, hroot, hinfos, Option.bind_some]
  cases infos with
  | nil =>
    obtain ⟨e, rest, rfl⟩ := List.exists_cons_of_ne_nil hne
    rw [List.length_nil, eq_comm, Finset.card_eq_zero, List.toFinset_eq_empty_iff] at hlength
    cases hlength
  | cons info infos =>
    have hread : (s.put (s.side side).cleared side).read side info = none := by
      rw [Tries.read, Tries.side_put_self]
      cases info.value <;> rfl
    rw [List.foldlM_cons, hread]
    rfl

/-- An empty trie is assigned to itself. -/
private theorem assign_self_empty {s : Tries T} {side : Side} (h : s.side side = {}) (order : ChildOrder Address) :
    ∃ after, s.assignBody order side side = some after ∧ Agrees s after side side := by
  have hiterate : ∀ order', ConstIterator.iterate order' ({} : FileSystemTrie Address).root = some [] := by
    intro order'
    obtain ⟨infos, -, hinfos, -⟩ := (holds_empty s.storage).iterate_entries order'
    have hlength := (holds_empty s.storage).length_iterate hinfos
    obtain rfl : infos = [] := List.eq_nil_of_length_eq_zero hlength
    exact hinfos
  have hside : (s.put (s.side side).cleared side).side side = {} := by
    rw [Tries.side_put_self, h]
    rfl
  refine ⟨s.put (s.side side).cleared side, ?_, ?_, ?_, ?_, ?_, ?_, ?_⟩
  · rw [Tries.assignBody, hside, hiterate, Option.bind_some]
    rfl
  · intro p
    rw [hside, h, Tries.storage_put]
  · intro p
    rw [hside, h, Tries.storage_put]
  · intro order' order''
    rw [hside, h]
    exact ⟨[], [], hiterate order', hiterate order'', .refl _⟩
  · rw [hside, h]
  · intro a ha
    rw [hside] at ha
    obtain ⟨d, hd⟩ := ha.exists_find Node.distinct_empty
    rw [Node.find_empty] at hd
    cases hd
  · exact fun hne => absurd rfl hne

/-- What the statements leave agrees with the trie before exactly when the assignment is one of those that go well. -/
private theorem assignBody_agrees_iff (storage : List T) (ops : List (Side × Path × T)) (order : ChildOrder Address)
    (target other : Side) :
    (∃ after, (Tries.build storage ops).assignBody order target other = some after ∧
      Agrees (Tries.build storage ops) after target other) ↔ Assignable storage ops target other := by
  have htarget := holds_build storage ops target
  have hother := holds_build storage ops other
  unfold Assignable
  by_cases hne : target = other
  · subst hne
    rw [if_pos rfl]
    constructor
    · rintro ⟨after, hassign, -⟩
      by_contra hnil
      rw [assign_self _ htarget hnil] at hassign
      cases hassign
    · exact fun hnil => assign_self_empty (side_build_of_nil hnil) order
  · rw [if_neg hne]
    have howned : ∀ d a, ((Tries.build storage ops).side other).root.find d = some a →
        a ∈ ((Tries.build storage ops).side other).uniqueValues := by
      intro d a hfind
      obtain ⟨keys, h⟩ := owned_build storage ops other
      rcases h d a hfind with hmem | ⟨hstale, -⟩
      · exact hmem
      · rw [Node.find_empty] at hstale
        cases hstale
    obtain ⟨after, entries, hassign, hassigned⟩ := assigned_of_holds hne htarget hother howned order
    constructor
    · rintro ⟨after', hassign', hagrees⟩
      obtain rfl := Option.some.inj (hassign.symm.trans hassign')
      refine ⟨?_, hassigned.size.symm.trans hagrees.size⟩
      intro q hq
      obtain ⟨e, he, rfl⟩ := List.mem_map.1 hq
      by_contra hnot
      have hsome := hassigned.find_old he
      have hfind := hagrees.find e.1
      rw [hother.denotes.find, PrefixMap.lastAt_eq_none.2 (map_fst_entriesOf (insertsInto other ops) ▸ hnot)] at hfind
      rw [Option.map_none, Option.map_eq_none_iff] at hfind
      rw [hfind] at hsome
      cases hsome
    · rintro ⟨hsub, hsize⟩
      exact ⟨after, hassign, hassigned.agrees htarget hother hsub hsize⟩

/-- No assignment of a trie to another one, or to itself, returns; and what it leaves at its closing brace agrees with
the trie before exactly when it is one of those that go well. -/
theorem assign_never_returns (storage : List T) (ops : List (Side × Path × T)) (order : ChildOrder Address)
    (target other : Side) :
    (¬ ∃ after, (Tries.build storage ops).assign order target other = some (.returned after) ∧
      Agrees (Tries.build storage ops) after target other) ∧
    ((∃ left, (Tries.build storage ops).assign order target other = some (.offEnd left) ∧
      Agrees (Tries.build storage ops) left target other) ↔ Assignable storage ops target other) := by
  constructor
  · rintro ⟨after, hassign, -⟩
    obtain ⟨left, -, hended⟩ := Option.map_eq_some_iff.1 hassign
    cases hended
  · rw [← assignBody_agrees_iff storage ops order]
    refine exists_congr fun left => and_congr_left fun _ => ?_
    simp [Tries.assign]

/-- After `/x` is inserted into the first trie and `/y` into the second one, the assignment of the second one to the
first one does not return, and at its closing brace the first one still finds `/x`, with a value that is gone. -/
theorem assign_disagrees :
    ∃ left, (Tries.build [] [(.original, Path.ofString "/x", 1), (.copy, Path.ofString "/y", 2)]).assign
        ⟨fun _ n => n.children, fun _ _ => .refl _⟩ .original .copy = some (.offEnd left) ∧
      (left.side .original).find (.ofString "/x") = some 0 ∧ 0 ∉ (left.side .original).uniqueValues ∧
      ¬ Agrees (Tries.build [] [(.original, Path.ofString "/x", 1), (.copy, Path.ofString "/y", 2)]) left .original
        .copy := by
  refine ⟨_, rfl, by decide, by decide, fun h => ?_⟩
  exact absurd (h.find (.ofString "/x")) (by decide)

end TrieStorage

end R4R
