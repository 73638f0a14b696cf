import Mathlib.Algebra.GroupWithZero.Nat
import Mathlib.Data.List.Perm.Basic
import Mathlib.Data.Set.List
import R4R.FileSystemTrie
import R4R.PathJoin

/-!
# Iterating a file system trie

`FileSystemTrie::ConstIterator`.  The stack has its top at the head.  The order in which an unordered map of children is
iterated is a parameter, which may differ from node to node.

A node denotes a finite map, whose entries are `Node.entries`.  What the iterator still has to yield are the entries of
the nodes on its stack (`advance_spec`), so iterating a trie yields its entries (`iterate_spec`).
-/

namespace R4R

universe u

variable {α : Type u}

/-! ### The entries of a node -/

namespace Node

mutual

/-- The number of nodes. -/
def count : Node α → Nat
  | mk _ children => countAll children + 1

def countAll : List (List Char × Node α) → Nat
  | [] => 0
  | (_, c) :: rest => c.count + countAll rest

end

mutual

/-- The values of a node and the nodes below, each with the keys that lead to it. -/
def entries : Node α → List (List (List Char) × α)
  | mk value children => value.toList.map ([], ·) ++ entriesBelow children

def entriesBelow : List (List Char × Node α) → List (List (List Char) × α)
  | [] => []
  | (key, c) :: rest => (c.entries.map fun e => (key :: e.1, e.2)) ++ entriesBelow rest

end

/-- The keys of an unordered map are distinct, at every node. -/
inductive Distinct : Node α → Prop where
  | mk {value : Option α} {children : List (List Char × Node α)} (nodup : (children.map Prod.fst).Nodup)
      (below : ∀ e ∈ children, e.2.Distinct) : Distinct (mk value children)

private theorem countAll_eq (children : List (List Char × Node α)) :
    countAll children = (children.map fun e => e.2.count).sum := by
  induction children with
  | nil => rfl
  | cons e children ih => rw [countAll, ih, List.map_cons, List.sum_cons]

private theorem entriesBelow_eq (children : List (List Char × Node α)) :
    entriesBelow children = children.flatMap fun e => e.2.entries.map fun e' => (e.1 :: e'.1, e'.2) := by
  induction children with
  | nil => rfl
  | cons e children ih => rw [entriesBelow, ih, List.flatMap_cons]

private theorem Distinct.nodup_children {n : Node α} (h : n.Distinct) : (n.children.map Prod.fst).Nodup := by
  cases h with
  | mk nodup below => exact nodup

private theorem Distinct.below_children {n : Node α} (h : n.Distinct) : ∀ e ∈ n.children, e.2.Distinct := by
  cases h with
  | mk nodup below => exact below

private theorem entries_eq (n : Node α) : n.entries = n.value.toList.map ([], ·) ++
    n.children.flatMap fun e => e.2.entries.map fun e' => (e.1 :: e'.1, e'.2) := by
  cases n with
  | mk value children => rw [entries, entriesBelow_eq]; rfl

private theorem count_eq (n : Node α) : n.count = (n.children.map fun e => e.2.count).sum + 1 := by
  cases n with
  | mk value children => rw [count, countAll_eq]; rfl

/-! ### Insertions keep the keys distinct -/

private theorem mem_setChild {part : List Char} {c : Node α} {l : List (List Char × Node α)} {e : List Char × Node α}
    (h : e ∈ setChild part c l) : e = (part, c) ∨ e ∈ l := by
  induction l with
  | nil => exact .inl (List.mem_singleton.1 h)
  | cons e' l ih =>
    unfold setChild at h
    split at h
    · rcases List.mem_cons.1 h with rfl | h
      · exact .inl rfl
      · exact .inr (List.mem_cons_of_mem _ h)
    · rcases List.mem_cons.1 h with rfl | h
      · exact .inr (List.mem_cons_self ..)
      · exact (ih h).imp_right (List.mem_cons_of_mem _)

private theorem nodup_setChild (part : List Char) (c : Node α) {l : List (List Char × Node α)}
    (h : (l.map Prod.fst).Nodup) :
    ((setChild part c l).map Prod.fst).Nodup := by
  induction l with
  | nil => simp [setChild]
  | cons e l ih =>
    obtain ⟨k, c'⟩ := e
    obtain ⟨hk, hl⟩ := List.nodup_cons.1 h
    unfold setChild
    split
    · rename_i hpart
      exact List.nodup_cons.2 ⟨hpart ▸ hk, hl⟩
    · rename_i hpart
      refine List.nodup_cons.2 ⟨?_, ih hl⟩
      intro hmem
      obtain ⟨e, he, hek⟩ := List.mem_map.1 hmem
      rcases mem_setChild he with rfl | he
      · exact hpart hek.symm
      · exact hk (List.mem_map.2 ⟨e, he, hek⟩)

theorem distinct_empty : (empty : Node α).Distinct := .mk List.nodup_nil (fun _ he => nomatch he)

private theorem mem_children_of_child? {n c : Node α} {part : List Char} (h : n.child? part = some c) :
    (part, c) ∈ n.children := Emplace.mem_of_lookup h

private theorem child?_of_mem_children {n c : Node α} {part : List Char} (hn : (n.children.map Prod.fst).Nodup)
    (h : (part, c) ∈ n.children) : n.child? part = some c := Emplace.lookup_of_mem hn h

private theorem Distinct.insert (v : α) (p : List (List Char)) :
    ∀ {n : Node α}, n.Distinct → (n.insert v p).1.Distinct := by
  induction p with
  | nil =>
    intro n hn
    exact .mk hn.nodup_children hn.below_children
  | cons part parts ih =>
    intro n hn
    rw [insert_cons]
    refine .mk (nodup_setChild _ _ hn.nodup_children) ?_
    intro e he
    rcases mem_setChild he with rfl | he
    · apply ih
      cases hc : n.child? part with
      | none => exact distinct_empty
      | some c => exact hn.below_children _ (mem_children_of_child? hc)
    · exact hn.below_children e he

/-! ### The entries are those that `find` finds -/

private theorem mem_entries (q : List (List Char)) (v : α) :
    ∀ {n : Node α}, n.Distinct → ((q, v) ∈ n.entries ↔ n.find q = some v) := by
  induction q with
  | nil =>
    intro n _
    rw [entries_eq]
    simp [find]
  | cons k q ih =>
    intro n hn
    have hmem : (k :: q, v) ∈ n.entries ↔ ∃ c, (k, c) ∈ n.children ∧ (q, v) ∈ c.entries := by
      rw [entries_eq]
      simp
    rw [hmem, find]
    constructor
    · rintro ⟨c, hc, hv⟩
      rw [child?_of_mem_children hn.nodup_children hc]
      exact (ih (hn.below_children _ hc)).1 hv
    · intro hfind
      cases hc : n.child? k with
      | none => simp [hc] at hfind
      | some c =>
        have hchild := mem_children_of_child? hc
        exact ⟨c, hchild, (ih (hn.below_children _ hchild)).2 (by simpa [hc] using hfind)⟩

/-- No two entries have the same keys. -/
private theorem Distinct.nodup_entries {n : Node α} (h : n.Distinct) : (n.entries.map Prod.fst).Nodup := by
  induction h with
  | @mk value children nodup below ih =>
    have hkeys : (entriesBelow children).map Prod.fst =
        children.flatMap fun e => (e.2.entries.map Prod.fst).map (e.1 :: ·) := by
      rw [entriesBelow_eq, List.map_flatMap]
      simp only [List.map_map]
      rfl
    rw [entries, List.map_append, hkeys, List.nodup_append]
    refine ⟨?_, ?_, ?_⟩
    · cases value <;> simp
    · rw [List.nodup_flatMap]
      constructor
      · intro e he
        exact (ih e he).map (List.cons_injective (a := e.1))
      · -- the first keys of the entries below two children differ
        refine (List.pairwise_map.1 nodup).imp fun {e e'} hne => ?_
        intro q hq hq'
        obtain ⟨d, -, rfl⟩ := List.mem_map.1 hq
        obtain ⟨d', -, heq⟩ := List.mem_map.1 hq'
        exact hne (List.cons.inj heq).1.symm
    · intro q hq q' hq'
      obtain ⟨e, -, hq'⟩ := List.mem_flatMap.1 hq'
      obtain ⟨d', -, rfl⟩ := List.mem_map.1 hq'
      have hnil : q = [] := by cases value <;> simp_all
      exact hnil ▸ (List.cons_ne_nil _ _).symm

end Node

/-! ### The iterator -/

/-- The orders in which the children of the nodes are iterated. -/
structure ChildOrder (α : Type u) where
  children : Path → Node α → List (List Char × Node α)
  perm : ∀ path n, (children path n).Perm n.children

/-- `FileSystemTrie::NodeView`. -/
structure NodeView (α : Type u) where
  path : Path
  value : Option α

/-- `FileSystemTrie::ConstIterator`. -/
structure ConstIterator (α : Type u) where
  stack : List (Path × Node α)
  current : NodeView α

namespace ConstIterator

def kEndSentinel : NodeView α := ⟨⟨[]⟩, none⟩

/-- The end iterator, which the default constructor creates. -/
def endIterator : ConstIterator α := ⟨[], kEndSentinel⟩

/-- The children of a node, as they are pushed on the stack. -/
def pushChildren (order : ChildOrder α) (path : Path) (node : Node α) (stack : List (Path × Node α)) :
    List (Path × Node α) :=
  (order.children path node).foldl (fun stack e => (path / (⟨e.1⟩ : Path), e.2) :: stack) stack

/-- The loop of `advance`, for at most `fuel` rounds. -/
def advance (order : ChildOrder α) : Nat → List (Path × Node α) → Option (ConstIterator α)
  | _, [] => some endIterator
  | 0, _ :: _ => none
  | fuel + 1, (path, node) :: stack =>
    let stack := pushChildren order path node stack
    match node.value with
    | some value => some ⟨stack, ⟨path, some value⟩⟩
    | none => advance order fuel stack

/-- The number of nodes that an iterator has not visited yet. -/
def pending (stack : List (Path × Node α)) : Nat := (stack.map fun e => e.2.count).sum

/-- `operator==` with the end iterator. -/
def isEnd (it : ConstIterator α) : Bool :=
  it.stack.isEmpty && it.current.path.parts == [] && it.current.value.isNone

/-- `for (auto const& info : trie)`: the views, for at most `fuel` rounds. -/
def views (order : ChildOrder α) : Nat → ConstIterator α → Option (List (NodeView α))
  | 0, _ => none
  | fuel + 1, it =>
    if it.isEnd then some []
    else do
      let next ← advance order (pending it.stack) it.stack
      let rest ← views order fuel next
      return it.current :: rest

/-- The views from `begin()` to `end()`. -/
def iterate (order : ChildOrder α) (root : Node α) : Option (List (NodeView α)) := do
  let it ← advance order root.count [(⟨[]⟩, root)]
  views order (root.count + 1) it

/-! ### What is still to be visited -/

/-- The entries of the nodes on the stack. -/
def remaining (stack : List (Path × Node α)) : List (NodeView α) :=
  stack.flatMap fun e => e.2.entries.map fun e' => ⟨e.1.joinAll e'.1, some e'.2⟩

private theorem pushChildren_eq (order : ChildOrder α) (path : Path) (node : Node α) (stack : List (Path × Node α)) :
    pushChildren order path node stack =
      ((order.children path node).map fun e => (path / (⟨e.1⟩ : Path), e.2)).reverse ++ stack := by
  unfold pushChildren
  generalize order.children path node = l
  induction l generalizing stack with
  | nil => rfl
  | cons e l ih => rw [List.foldl_cons, ih, List.map_cons, List.reverse_cons, List.append_assoc]; rfl

/-- A visited node gives way to the nodes below it. -/
private theorem pending_pushChildren (order : ChildOrder α) (path : Path) (node : Node α)
    (stack : List (Path × Node α)) :
    pending ((path, node) :: stack) = pending (pushChildren order path node stack) + 1 := by
  have hperm := ((order.perm path node).map fun e => e.2.count).sum_nat
  rw [pushChildren_eq]
  simp only [pending, List.map_cons, List.sum_cons, List.map_append, List.sum_append, List.map_reverse, List.map_map,
    List.sum_reverse, Function.comp_def]
  rw [hperm, Node.count_eq]
  omega

/-- A visited node yields its value and leaves the entries below it. -/
private theorem remaining_pushChildren (order : ChildOrder α) (path : Path) (node : Node α)
    (stack : List (Path × Node α)) :
    (remaining ((path, node) :: stack)).Perm
      (node.value.toList.map (fun v => ⟨path, some v⟩) ++ remaining (pushChildren order path node stack)) := by
  rw [pushChildren_eq]
  unfold remaining
  rw [List.flatMap_cons, List.flatMap_append, Node.entries_eq, List.map_append, List.append_assoc]
  have hown : (node.value.toList.map fun v => (([] : List (List Char)), v)).map
      (fun e' => (⟨path.joinAll e'.1, some e'.2⟩ : NodeView α)) = node.value.toList.map fun v => ⟨path, some v⟩ := by
    rw [List.map_map]
    rfl
  rw [hown]
  refine List.Perm.append_left _ (List.Perm.append_right _ ?_)
  have hchildren : (node.children.map fun e => (path / (⟨e.1⟩ : Path), e.2)).Perm
      ((order.children path node).map fun e => (path / (⟨e.1⟩ : Path), e.2)).reverse :=
    ((order.perm path node).symm.map _).trans (List.reverse_perm _).symm
  refine List.Perm.trans (List.Perm.of_eq ?_) (hchildren.flatMap_right _)
  rw [List.map_flatMap, List.flatMap_map]
  simp only [List.map_map]
  rfl

/-- What is left to visit after `advance`. -/
theorem advance_spec (order : ChildOrder α) (fuel : Nat) : ∀ stack : List (Path × Node α), pending stack ≤ fuel →
    advance order fuel stack = some endIterator ∧ remaining stack = [] ∨
    ∃ stack' path v, advance order fuel stack = some ⟨stack', ⟨path, some v⟩⟩ ∧ pending stack' < pending stack ∧
      (remaining stack).Perm (⟨path, some v⟩ :: remaining stack') := by
  induction fuel with
  | zero =>
    intro stack hfuel
    cases stack with
    | nil => exact .inl ⟨rfl, rfl⟩
    | cons e stack =>
      obtain ⟨path, node⟩ := e
      have hpending := pending_pushChildren order path node stack
      omega
  | succ fuel ih =>
    intro stack hfuel
    cases stack with
    | nil => exact .inl ⟨rfl, rfl⟩
    | cons e stack =>
      obtain ⟨path, node⟩ := e
      have hpending := pending_pushChildren order path node stack
      have hperm := remaining_pushChildren order path node stack
      unfold advance
      cases hv : node.value with
      | some v =>
        rw [hv] at hperm
        exact .inr ⟨_, path, v, rfl, by omega, hperm⟩
      | none =>
        rw [hv] at hperm
        rcases ih (pushChildren order path node stack) (by omega) with
          ⟨hend, hnil⟩ | ⟨stack', path', v, hadv, hlt, hrest⟩
        · rw [hnil] at hperm
          exact .inl ⟨hend, hperm.eq_nil⟩
        · exact .inr ⟨stack', path', v, hadv, by omega, hperm.trans hrest⟩

private theorem views_spec (order : ChildOrder α) (fuel : Nat) : ∀ (stack : List (Path × Node α)) (path : Path) (v : α),
    pending stack + 2 ≤ fuel → ∃ vs, views order fuel ⟨stack, ⟨path, some v⟩⟩ = some vs ∧
      vs.Perm (⟨path, some v⟩ :: remaining stack) := by
  induction fuel with
  | zero =>
    intro stack path v hfuel
    omega
  | succ fuel ih =>
    intro stack path v hfuel
    have hgo : (⟨stack, ⟨path, some v⟩⟩ : ConstIterator α).isEnd = false := by simp [isEnd]
    unfold views
    rw [if_neg (by simp [hgo])]
    rcases advance_spec order _ stack le_rfl with ⟨hadv, hnil⟩ | ⟨stack', path', v', hadv, hlt, hperm⟩
    · -- the next iterator is the end
      obtain ⟨fuel, rfl⟩ : ∃ n, fuel = n + 1 := ⟨fuel - 1, by omega⟩
      refine ⟨[⟨path, some v⟩], ?_, by rw [hnil]⟩
      simp only [hadv, Option.bind_eq_bind, Option.bind_some]
      rfl
    · obtain ⟨vs, hvs, hrest⟩ := ih stack' path' v' (by omega)
      refine ⟨⟨path, some v⟩ :: vs, ?_, (hrest.trans hperm.symm).cons _⟩
      simp only [hadv, Option.bind_eq_bind, Option.bind_some, hvs]
      rfl

/-- Iterating yields the entries, each with the path that its keys lead to. -/
theorem iterate_spec (order : ChildOrder α) (root : Node α) : ∃ vs, iterate order root = some vs ∧
    vs.Perm (root.entries.map fun e => ⟨(⟨[]⟩ : Path).joinAll e.1, some e.2⟩) := by
  have hpending : pending [((⟨[]⟩ : Path), root)] = root.count := by simp [pending]
  have hremaining : remaining [((⟨[]⟩ : Path), root)] =
      root.entries.map fun e => ⟨(⟨[]⟩ : Path).joinAll e.1, some e.2⟩ := by simp [remaining]
  unfold iterate
  rw [← hremaining]
  rcases advance_spec order root.count [(⟨[]⟩, root)] hpending.le with
    ⟨hadv, hnil⟩ | ⟨stack', path, v, hadv, hlt, hperm⟩
  · refine ⟨[], ?_, by rw [hnil]⟩
    rw [hadv]
    rfl
  · obtain ⟨vs, hvs, hrest⟩ := views_spec order (root.count + 1) stack' path v (by omega)
    refine ⟨vs, ?_, hrest.trans hperm.symm⟩
    rw [hadv]
    exact hvs

/-- The value of a view is found at the keys of its entry. -/
theorem find_of_iterate {order : ChildOrder α} {root : Node α} (hroot : root.Distinct) {infos : List (NodeView α)}
    (h : iterate order root = some infos) {info : NodeView α} (hinfo : info ∈ infos) :
    ∃ d a, info.value = some a ∧ root.find d = some a := by
  obtain ⟨infos', hinfos', hperm⟩ := iterate_spec order root
  obtain rfl := Option.some.inj (h.symm.trans hinfos')
  obtain ⟨e, he, rfl⟩ := List.mem_map.1 (hperm.subset hinfo)
  exact ⟨e.1, e.2, rfl, (Node.mem_entries e.1 e.2 hroot).1 he⟩

/-! ### Parents first -/

/-- Nodes with the keys that lead to them, as they are on the stack. -/
def stackOf (nodes : List (List (List Char) × Node α)) : List (Path × Node α) :=
  nodes.map fun e => ((⟨[]⟩ : Path).joinAll e.1, e.2)

/-- The nodes are apart: none is below another one. -/
structure Apart (root : Node α) (nodes : List (List (List Char) × Node α)) : Prop where
  distinct : ∀ e ∈ nodes, e.2.Distinct
  entries : ∀ e ∈ nodes, ∀ e' ∈ e.2.entries, (e.1 ++ e'.1, e'.2) ∈ root.entries
  apart : nodes.Pairwise fun e e' => ¬ e.1 <+: e'.1 ∧ ¬ e'.1 <+: e.1

/-- The children of a node at some keys, as they come on the stack. -/
def childrenAt (order : ChildOrder α) (d : List (List Char)) (node : Node α) : List (List (List Char) × Node α) :=
  ((order.children ((⟨[]⟩ : Path).joinAll d) node).map fun e => (d ++ [e.1], e.2)).reverse

private theorem pushChildren_stackOf (order : ChildOrder α) (d : List (List Char)) (node : Node α)
    (nodes : List (List (List Char) × Node α)) :
    pushChildren order ((⟨[]⟩ : Path).joinAll d) node (stackOf nodes) = stackOf (childrenAt order d node ++ nodes) := by
  have hjoin : ∀ k : List Char, (⟨[]⟩ : Path).joinAll (d ++ [k]) = (⟨[]⟩ : Path).joinAll d / (⟨k⟩ : Path) := by
    intro k
    simp [Path.joinAll]
  rw [pushChildren_eq, stackOf, stackOf, List.map_append, childrenAt, List.map_reverse, List.map_map]
  simp only [Function.comp_def, hjoin]

private theorem mem_childrenAt {order : ChildOrder α} {d : List (List Char)} {node : Node α}
    {e : List (List Char) × Node α} : e ∈ childrenAt order d node ↔ ∃ c ∈ node.children, e = (d ++ [c.1], c.2) := by
  simp only [childrenAt, List.mem_reverse, List.mem_map, (order.perm _ node).mem_iff, eq_comm]

section Apart

variable {order : ChildOrder α} {root node : Node α} {d : List (List Char)} {nodes : List (List (List Char) × Node α)}

/-- No node that is left on the stack when a node is visited leads to it. -/
private theorem Apart.not_leads (h : Apart root ((d, node) :: nodes)) :
    ∀ e ∈ childrenAt order d node ++ nodes, ¬ e.1 <+: d := by
  intro e he hpre
  rcases List.mem_append.1 he with he | he
  · obtain ⟨c, -, rfl⟩ := mem_childrenAt.1 he
    have hlength := hpre.length_le
    rw [List.length_append, List.length_singleton] at hlength
    omega
  · exact ((List.pairwise_cons.1 h.apart).1 e he).2 hpre

private theorem Apart.visit (h : Apart root ((d, node) :: nodes)) : Apart root (childrenAt order d node ++ nodes) := by
  have hnode := h.distinct _ (List.mem_cons_self ..)
  refine ⟨?_, ?_, ?_⟩
  · intro e he
    rcases List.mem_append.1 he with he | he
    · obtain ⟨c, hc, rfl⟩ := mem_childrenAt.1 he
      exact hnode.below_children c hc
    · exact h.distinct e (List.mem_cons_of_mem _ he)
  · intro e he e' he'
    rcases List.mem_append.1 he with he | he
    · obtain ⟨c, hc, rfl⟩ := mem_childrenAt.1 he
      have hbelow : (c.1 :: e'.1, e'.2) ∈ node.entries := by
        rw [Node.entries_eq]
        exact List.mem_append_right _ (List.mem_flatMap.2 ⟨c, hc, List.mem_map.2 ⟨e', he', rfl⟩⟩)
      have hroot := h.entries _ (List.mem_cons_self ..) _ hbelow
      rwa [List.append_assoc]
    · exact h.entries e (List.mem_cons_of_mem _ he) e' he'
  · obtain ⟨hfirst, hrest⟩ := List.pairwise_cons.1 h.apart
    refine List.pairwise_append.2 ⟨?_, hrest, ?_⟩
    · have hkeys : (order.children ((⟨[]⟩ : Path).joinAll d) node).Pairwise fun c c' => c.1 ≠ c'.1 :=
        List.pairwise_map.1 (((order.perm _ node).map Prod.fst).nodup_iff.2 hnode.nodup_children)
      rw [childrenAt, List.pairwise_reverse, List.pairwise_map]
      refine hkeys.imp fun {c c'} hne => ?_
      have hkey : ∀ {k k' : List Char}, d ++ [k] <+: d ++ [k'] → k = k' := fun hpre => by
        simpa using hpre.eq_of_length (by simp)
      exact ⟨fun hpre => hne (hkey hpre).symm, fun hpre => hne (hkey hpre)⟩
    · intro e he e' he'
      obtain ⟨c, -, rfl⟩ := mem_childrenAt.1 he
      obtain ⟨hbelow, habove⟩ := hfirst e' he'
      constructor
      · exact fun hpre => hbelow ((List.prefix_append d _).trans hpre)
      · intro hpre
        rcases List.prefix_concat_iff.1 hpre with heq | hpre
        · exact hbelow ⟨[c.1], heq.symm⟩
        · exact habove hpre

/-- What `advance` shows is an entry, and no node that is left leads to it. -/
private theorem Apart.advance (fuel : Nat) : ∀ {nodes : List (List (List Char) × Node α)} {it : ConstIterator α},
    Apart root nodes → ConstIterator.advance order fuel (stackOf nodes) = some it → it = endIterator ∨
      ∃ d v nodes', it = ⟨stackOf nodes', ⟨(⟨[]⟩ : Path).joinAll d, some v⟩⟩ ∧ (d, v) ∈ root.entries ∧
        Apart root nodes' ∧ (∀ e ∈ nodes', ¬ e.1 <+: d) ∧ (∃ e ∈ nodes, e.1 <+: d) ∧
        ∀ e' ∈ nodes', ∃ e ∈ nodes, e.1 <+: e'.1 := by
  induction fuel with
  | zero =>
    intro nodes it h hadv
    cases nodes with
    | nil => exact .inl (Option.some.inj hadv).symm
    | cons e nodes => cases hadv
  | succ fuel ih =>
    intro nodes it h hadv
    cases nodes with
    | nil => exact .inl (Option.some.inj hadv).symm
    | cons e nodes =>
      obtain ⟨d, node⟩ := e
      have hfrom : ∀ e' ∈ childrenAt order d node ++ nodes, ∃ e ∈ (d, node) :: nodes, e.1 <+: e'.1 := by
        intro e' he'
        rcases List.mem_append.1 he' with he' | he'
        · obtain ⟨c, -, rfl⟩ := mem_childrenAt.1 he'
          exact ⟨_, List.mem_cons_self .., List.prefix_append d _⟩
        · exact ⟨e', List.mem_cons_of_mem _ he', List.prefix_refl _⟩
      change ConstIterator.advance order (fuel + 1) (((⟨[]⟩ : Path).joinAll d, node) :: stackOf nodes) = some it at hadv
      rw [ConstIterator.advance, pushChildren_stackOf] at hadv
      cases hv : node.value with
      | some v =>
        rw [hv] at hadv
        have hentry : ([], v) ∈ node.entries := by
          rw [Node.entries_eq, hv]
          exact List.mem_cons_self ..
        have hmem := h.entries _ (List.mem_cons_self ..) _ hentry
        rw [List.append_nil] at hmem
        exact .inr ⟨d, v, _, (Option.some.inj hadv).symm, hmem, h.visit, h.not_leads,
          ⟨_, List.mem_cons_self .., List.prefix_refl _⟩, hfrom⟩
      | none =>
        rw [hv] at hadv
        rcases ih h.visit hadv with hend | ⟨d', v', nodes', hit, hmem, hapart, hleads, ⟨e, he, hed⟩, hbelow⟩
        · exact .inl hend
        · obtain ⟨e', he', hee⟩ := hfrom e he
          refine .inr ⟨d', v', nodes', hit, hmem, hapart, hleads, ⟨e', he', hee.trans hed⟩, ?_⟩
          intro e₁ he₁
          obtain ⟨e₂, he₂, h₂⟩ := hbelow e₁ he₁
          obtain ⟨e₃, he₃, h₃⟩ := hfrom e₂ he₂
          exact ⟨e₃, he₃, h₃.trans h₂⟩

/-- The view of an entry. -/
def viewOf (e : List (List Char) × α) : NodeView α := ⟨(⟨[]⟩ : Path).joinAll e.1, some e.2⟩

/-- What is shown are entries, and none of them is above an earlier one. -/
private theorem Apart.views (fuel : Nat) : ∀ {nodes : List (List (List Char) × Node α)} {e : List (List Char) × α}
    {infos : List (NodeView α)}, Apart root nodes → e ∈ root.entries → (∀ n ∈ nodes, ¬ n.1 <+: e.1) →
      ConstIterator.views order fuel ⟨stackOf nodes, viewOf e⟩ = some infos →
      ∃ es, infos = (e :: es).map viewOf ∧ (∀ e' ∈ es, e' ∈ root.entries) ∧
        (e :: es).Pairwise (fun e e' => ¬ e'.1 <+: e.1) ∧ ∀ e' ∈ es, ∃ n ∈ nodes, n.1 <+: e'.1 := by
  induction fuel with
  | zero =>
    intro nodes e infos _ _ _ hviews
    cases hviews
  | succ fuel ih =>
    intro nodes e infos h hmem hleads hviews
    have hgo : (⟨stackOf nodes, viewOf e⟩ : ConstIterator α).isEnd = false := by simp [isEnd, viewOf]
    unfold ConstIterator.views at hviews
    rw [if_neg (by simp [hgo])] at hviews
    obtain ⟨next, hnext, hviews⟩ := Option.bind_eq_some_iff.1 hviews
    obtain ⟨rest, hrest, hinfos⟩ := Option.bind_eq_some_iff.1 hviews
    obtain rfl := Option.some.inj hinfos
    rcases h.advance _ hnext with rfl | ⟨d, v, nodes', rfl, hentry, hapart, hleads', ⟨n, hn, hnd⟩, hbelow⟩
    · cases fuel with
      | zero => cases hrest
      | succ fuel =>
        obtain rfl : [] = rest := Option.some.inj hrest
        exact ⟨[], rfl, by simp, by simp, by simp⟩
    · obtain ⟨es, rfl, hes, horder, hfrom⟩ := ih hapart hentry hleads' hrest
      have hfrom' : ∀ e' ∈ (d, v) :: es, ∃ n ∈ nodes, n.1 <+: e'.1 := by
        intro e' he'
        rcases List.mem_cons.1 he' with rfl | he'
        · exact ⟨n, hn, hnd⟩
        · obtain ⟨n', hn', hle'⟩ := hfrom e' he'
          obtain ⟨n, hn, hle⟩ := hbelow n' hn'
          exact ⟨n, hn, hle.trans hle'⟩
      refine ⟨(d, v) :: es, rfl, List.forall_mem_cons.2 ⟨hentry, hes⟩, List.pairwise_cons.2 ⟨?_, horder⟩, hfrom'⟩
      intro e' he' hpre
      obtain ⟨n, hn, hle⟩ := hfrom' e' he'
      exact hleads n hn (hle.trans hpre)

/-- A trie is iterated parents first. -/
private theorem iterate_parentsFirst (hroot : root.Distinct) {infos : List (NodeView α)}
    (h : iterate order root = some infos) :
    ∃ es : List (List (List Char) × α), infos = es.map viewOf ∧ (∀ e ∈ es, e ∈ root.entries) ∧
      es.Pairwise fun e e' => ¬ e'.1 <+: e.1 := by
  have hapart : Apart root [([], root)] :=
    ⟨by simpa using hroot, by simp, List.pairwise_singleton _ _⟩
  obtain ⟨it, hit, hviews⟩ := Option.bind_eq_some_iff.1 h
  rcases hapart.advance _ hit with rfl | ⟨d, v, nodes, rfl, hentry, hnodes, hleads, -, -⟩
  · obtain rfl : [] = infos := Option.some.inj hviews
    exact ⟨[], rfl, by simp, List.Pairwise.nil⟩
  · obtain ⟨es, hinfos, hes, horder, -⟩ := hnodes.views _ hentry hleads hviews
    exact ⟨(d, v) :: es, hinfos, List.forall_mem_cons.2 ⟨hentry, hes⟩, horder⟩

end Apart

end ConstIterator

namespace FileSystemTrie

variable [DecidableEq α]

theorem distinct_ofInserts (inserts : List (Path × α)) : (ofInserts inserts).root.Distinct := by
  induction inserts using List.reverseRecOn with
  | nil => exact Node.distinct_empty
  | append_singleton inserts e ih =>
    rw [ofInserts_concat]
    exact ih.insert e.2 e.1.components

/-- The entries of the nodes are those of the map of the insertions. -/
private theorem enumerates_entries (inserts : List (Path × α)) :
    PrefixMap.Enumerates (ofInserts inserts).root.entries (PrefixMap.lastAt (entriesOf inserts)) := by
  refine ⟨(distinct_ofInserts inserts).nodup_entries, ?_⟩
  intro q v
  rw [Node.mem_entries q v (distinct_ofInserts inserts), find_ofInserts]

private theorem components_of_mem_entries {inserts : List (Path × α)} {e : List (List Char) × α}
    (h : e ∈ (ofInserts inserts).root.entries) : ∃ p : Path, e.1 = p.components := by
  have hlast := ((enumerates_entries inserts).mem_iff e.1 e.2).1 h
  obtain ⟨e', -, he'⟩ := List.mem_map.1 (PrefixMap.mem_of_lastAt hlast)
  exact ⟨e'.1, (congrArg Prod.fst he').symm⟩

/-- Iterating yields every entry of the map of the insertions once, with a path that has the elements of its key. -/
theorem iterate_ofInserts (order : ChildOrder α) (inserts : List (Path × α)) : ∃ infos es,
    ConstIterator.iterate order (ofInserts inserts).root = some infos ∧
    (infos.map fun info => (info.path.parts, info.value)) = (es.map fun e => (e.1, some e.2)) ∧
    PrefixMap.Enumerates es (PrefixMap.lastAt (entriesOf inserts)) := by
  obtain ⟨infos, hinfos, hperm⟩ := ConstIterator.iterate_spec order (ofInserts inserts).root
  have hviews : (infos.map fun info => (info.path.parts, info.value)).Perm
      ((ofInserts inserts).root.entries.map fun e => (e.1, some e.2)) := by
    refine (hperm.map fun info => (info.path.parts, info.value)).trans (List.Perm.of_eq ?_)
    rw [List.map_map]
    refine List.map_congr_left fun e he => ?_
    obtain ⟨p, hp⟩ := components_of_mem_entries he
    simp only [Function.comp_apply, hp, Path.parts_joinAll_components]
  have hrange : (infos.map fun info => (info.path.parts, info.value)) ∈
      Set.range (List.map fun e : List (List Char) × α => (e.1, some e.2)) := by
    rw [Set.range_list_map]
    intro view hview
    obtain ⟨e, -, he⟩ := List.mem_map.1 (hviews.subset hview)
    exact ⟨e, he⟩
  obtain ⟨es, hes⟩ := hrange
  have hinj : Function.Injective fun e : List (List Char) × α => (e.1, some e.2) := by
    rintro ⟨q, v⟩ ⟨q', v'⟩ h
    simpa using h
  refine ⟨infos, es, hinfos, hes.symm, (enumerates_entries inserts).perm ?_⟩
  rw [← hes] at hviews
  exact (List.map_perm_map_iff hinj).1 hviews

/-- What is shown later is not above what is shown earlier. -/
theorem parentsFirst_ofInserts {order : ChildOrder α} {inserts : List (Path × α)} {infos : List (NodeView α)}
    (h : ConstIterator.iterate order (ofInserts inserts).root = some infos) :
    infos.Pairwise fun info info' => ¬ info'.path.parts <+: info.path.parts := by
  obtain ⟨es, rfl, hes, horder⟩ := ConstIterator.iterate_parentsFirst (distinct_ofInserts inserts) h
  have hparts : ∀ e ∈ es, (ConstIterator.viewOf e).path.parts = e.1 := by
    intro e he
    obtain ⟨p, hp⟩ := components_of_mem_entries (hes e he)
    rw [ConstIterator.viewOf, hp]
    exact Path.parts_joinAll_components p
  rw [List.pairwise_map]
  refine horder.imp_of_mem fun {e e'} he he' hnot => ?_
  rwa [hparts e he, hparts e' he']

/-- The root has the empty path, and a path with a separator at its end is the path without it. -/
example : (ConstIterator.iterate ⟨fun _ n => n.children, fun _ _ => .refl _⟩
      (ofInserts [(Path.ofString "/a/b", 1), (Path.ofString "", 2), (Path.ofString "/a/", 3)]).root).map
        (List.map fun info => (info.path, info.value)) =
    some [(Path.ofString "", some 2), (Path.ofString "/a", some 3), (Path.ofString "/a/b", some 1)] := by decide

end FileSystemTrie

end R4R
