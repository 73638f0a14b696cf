import R4R.Lib.Emplace
import R4R.Lib.PrefixMap
import R4R.Path

/-!
# The file system trie

`FileSystemTrie` and its lookups.  A pointer to a stored value is the value itself, and the null pointer is `none`.
The loops over a path skip its empty elements, so they are recursions over `Path.components`.

`find_last_matching` returns the value of the last node on its way, which may have none although a node above has one.
It returns the value at the longest inserted prefix exactly when no inserted path makes a detour
(`findLastMatching_isLastMatch_iff`).
-/

namespace R4R

universe u

/-- `FileSystemTrie::Node`. -/
inductive Node (T : Type u) where
  | mk (value : Option T) (children : List (List Char × Node T))

namespace Node

variable {T : Type u}

def value : Node T → Option T
  | mk value _ => value

def children : Node T → List (List Char × Node T)
  | mk _ children => children

def empty : Node T := mk none []

/-- `children.find(part)` -/
def child? (n : Node T) (part : List Char) : Option (Node T) := n.children.lookup part

/-- The children with the child at `part` put in place. -/
def setChild (part : List Char) (c : Node T) : List (List Char × Node T) → List (List Char × Node T)
  | [] => [(part, c)]
  | (k, c') :: rest => if k = part then (part, c) :: rest else (k, c') :: setChild part c rest

/-- The loop of `insert`: the node with the value put at the end of the path, and whether a node was created. -/
def insert (n : Node T) (v : T) : List (List Char) → Node T × Bool
  | [] => (mk (some v) n.children, false)
  | part :: parts =>
    match n.child? part with
    | some c =>
      let r := c.insert v parts
      (mk n.value (setChild part r.1 n.children), r.2)
    | none => (mk n.value (setChild part (empty.insert v parts).1 n.children), true)

/-- The loop of `find`. -/
def find (n : Node T) : List (List Char) → Option T
  | [] => n.value
  | part :: parts =>
    match n.child? part with
    | none => none
    | some c => c.find parts

/-- The loop of `find_last_matching`. -/
def findLastMatching (n : Node T) : List (List Char) → Option T
  | [] => n.value
  | part :: parts =>
    match n.child? part with
    | none => n.value
    | some c => c.findLastMatching parts

/-- The node at the end of a path. -/
def walk (n : Node T) : List (List Char) → Option (Node T)
  | [] => some n
  | part :: parts => (n.child? part).bind fun c => c.walk parts

private theorem lookup_setChild (part k : List Char) (c : Node T) (l : List (List Char × Node T)) :
    (setChild part c l).lookup k = if k = part then some c else l.lookup k := by
  induction l with
  | nil =>
    by_cases h : k = part
    · simp [setChild, h]
    · have hb : (k == part) = false := by simpa using h
      simp [setChild, List.lookup_cons, h, hb]
  | cons e l ih =>
    obtain ⟨k', c'⟩ := e
    unfold setChild
    by_cases hk' : k' = part
    · rw [if_pos hk']
      by_cases h : k = part
      · simp [h]
      · have hb : (k == part) = false := by simpa using h
        have hb' : (k == k') = false := by rw [hk']; exact hb
        simp [List.lookup_cons, h, hb, hb']
    · rw [if_neg hk', List.lookup_cons, List.lookup_cons, ih]
      by_cases h : k = part
      · have hb : (k == k') = false := by simpa [h] using fun he : part = k' => hk' he.symm
        simp [h, h ▸ hb]
      · simp [h]

@[simp] theorem child?_mk_setChild (v : Option T) (part k : List Char) (c : Node T) (l : List (List Char × Node T)) :
    (mk v (setChild part c l)).child? k = if k = part then some c else (mk v l).child? k :=
  lookup_setChild part k c l

/-- Below the inserted path the trie is new or as before. -/
theorem insert_cons (n : Node T) (v : T) (part : List Char) (parts : List (List Char)) :
    (n.insert v (part :: parts)).1 =
      mk n.value (setChild part (((n.child? part).getD empty).insert v parts).1 n.children) := by
  cases h : n.child? part <;> simp only [insert, h] <;> rfl

theorem find_empty (d : List (List Char)) : (empty : Node T).find d = none := by
  cases d <;> rfl

/-- An insertion changes the value at its path only. -/
theorem find_insert (v : T) (p : List (List Char)) : ∀ (n : Node T) (d : List (List Char)),
    (n.insert v p).1.find d = if p = d then some v else n.find d := by
  induction p with
  | nil =>
    intro n d
    cases d <;> rfl
  | cons part parts ih =>
    intro n d
    rw [insert_cons]
    cases d with
    | nil => rfl
    | cons k d =>
      unfold find
      rw [child?_mk_setChild]
      by_cases hk : k = part
      · subst hk
        simp only [if_pos, List.cons.injEq, true_and]
        rw [ih]
        cases n.child? k with
        | none => simp [find_empty]
        | some c => rfl
      · have hne : ¬ part :: parts = k :: d := fun h => hk (List.cons.inj h).1.symm
        rw [if_neg hk, if_neg hne]
        rfl

/-- An insertion creates the nodes on its path. -/
theorem walk_insert_isSome (v : T) (p : List (List Char)) : ∀ (n : Node T) (d : List (List Char)),
    ((n.insert v p).1.walk d).isSome ↔ d <+: p ∨ (n.walk d).isSome := by
  induction p with
  | nil =>
    intro n d
    cases d with
    | nil => simp [insert, walk]
    | cons k d => simp [insert, walk, child?, children]
  | cons part parts ih =>
    intro n d
    rw [insert_cons]
    cases d with
    | nil => simp [walk]
    | cons k d =>
      unfold walk
      rw [child?_mk_setChild]
      by_cases hk : k = part
      · subst hk
        simp only [if_pos, Option.bind_some, List.cons_prefix_cons, true_and]
        rw [ih]
        cases n.child? k with
        | none => cases d <;> simp [walk, empty, child?, children]
        | some c => rfl
      · rw [if_neg hk, List.cons_prefix_cons]
        simp only [hk, false_and, false_or]
        rfl

/-- The walk of `find_last_matching` ends at the deepest node on the path. -/
theorem findLastMatching_spec (p : List (List Char)) : ∀ n : Node T, ∃ d, d <+: p ∧ (n.walk d).isSome ∧
    (∀ d', d' <+: p → (n.walk d').isSome → d' <+: d) ∧ n.findLastMatching p = n.find d := by
  induction p with
  | nil =>
    intro n
    refine ⟨[], List.prefix_refl _, rfl, ?_, rfl⟩
    intro d' hd' _
    exact hd'
  | cons part parts ih =>
    intro n
    cases hc : n.child? part with
    | none =>
      refine ⟨[], List.nil_prefix, rfl, ?_, ?_⟩
      · intro d' hd' hsome
        cases d' with
        | nil => exact List.prefix_refl _
        | cons k d' =>
          obtain ⟨rfl, -⟩ := List.cons_prefix_cons.1 hd'
          simp [walk, hc] at hsome
      · unfold findLastMatching
        rw [hc]
        rfl
    | some c =>
      obtain ⟨d, hd, hsome, hdeepest, hfind⟩ := ih c
      refine ⟨part :: d, List.cons_prefix_cons.2 ⟨rfl, hd⟩, by simpa [walk, hc] using hsome, ?_, ?_⟩
      · intro d' hd' hsome'
        cases d' with
        | nil => exact List.nil_prefix
        | cons k d' =>
          obtain ⟨rfl, htail⟩ := List.cons_prefix_cons.1 hd'
          apply List.cons_prefix_cons.2 ⟨rfl, hdeepest d' htail ?_⟩
          simpa [walk, hc] using hsome'
      · unfold findLastMatching find
        rw [hc]
        exact hfind

/-- In two tries with the same nodes the walks end at the same node. -/
theorem findLastMatching_congr {n n' : Node T} (p : List (List Char))
    (h : ∀ d, (n.walk d).isSome ↔ (n'.walk d).isSome) :
    ∃ d, n.findLastMatching p = n.find d ∧ n'.findLastMatching p = n'.find d := by
  obtain ⟨d, hd, hsome, hdeepest, hfind⟩ := findLastMatching_spec p n
  obtain ⟨d', hd', hsome', hdeepest', hfind'⟩ := findLastMatching_spec p n'
  have hle := hdeepest d' hd' ((h d').2 hsome')
  have hge := hdeepest' d hd ((h d).1 hsome)
  obtain rfl : d = d' := hge.eq_of_length_le hle.length_le
  exact ⟨d, hfind, hfind'⟩

end Node

/-- `FileSystemTrie`. -/
structure FileSystemTrie (T : Type u) where
  uniqueValues : List T := []
  root : Node T := .empty
  size : Nat := 0

namespace FileSystemTrie

variable {T : Type u} [DecidableEq T]

/-- `FileSystemTrie::insert`. -/
def insert (t : FileSystemTrie T) (path : Path) (value : T) : FileSystemTrie T :=
  let r := t.root.insert value path.components
  { uniqueValues := Emplace.emplace id t.uniqueValues value
    root := r.1
    size := if r.2 then t.size + 1 else t.size }

/-- `FileSystemTrie::find`. -/
def find (t : FileSystemTrie T) (path : Path) : Option T := t.root.find path.components

/-- `FileSystemTrie::find_last_matching`. -/
def findLastMatching (t : FileSystemTrie T) (path : Path) : Option T := t.root.findLastMatching path.components

/-- The trie after a sequence of insertions. -/
def ofInserts (inserts : List (Path × T)) : FileSystemTrie T := inserts.foldl (fun t e => t.insert e.1 e.2) {}

/-- The insertions as entries of a map from component lists. -/
def entriesOf (inserts : List (Path × T)) : List (List (List Char) × T) :=
  inserts.map fun e => (e.1.components, e.2)

theorem ofInserts_concat (inserts : List (Path × T)) (path : Path) (v : T) :
    ofInserts (inserts ++ [(path, v)]) = (ofInserts inserts).insert path v := by
  unfold ofInserts
  rw [List.foldl_append]
  rfl

omit [DecidableEq T] in
private theorem entriesOf_concat (inserts : List (Path × T)) (path : Path) (v : T) :
    entriesOf (inserts ++ [(path, v)]) = entriesOf inserts ++ [(path.components, v)] := by
  simp [entriesOf]

/-- The trie denotes the map of its insertions. -/
theorem find_ofInserts (inserts : List (Path × T)) (d : List (List Char)) :
    (ofInserts inserts).root.find d = PrefixMap.lastAt (entriesOf inserts) d := by
  induction inserts using List.reverseRecOn with
  | nil => exact Node.find_empty d
  | append_singleton inserts e ih =>
    obtain ⟨path, v⟩ := e
    rw [ofInserts_concat, entriesOf_concat, PrefixMap.lastAt_concat, ← ih]
    exact Node.find_insert v path.components _ d

/-- The nodes of the trie are the prefixes of the inserted paths. -/
theorem walk_ofInserts (inserts : List (Path × T)) (d : List (List Char)) :
    ((ofInserts inserts).root.walk d).isSome ↔ d = [] ∨ ∃ q ∈ (entriesOf inserts).map Prod.fst, d <+: q := by
  induction inserts using List.reverseRecOn with
  | nil => cases d <;> simp [ofInserts, Node.walk, Node.empty, Node.child?, Node.children, entriesOf]
  | append_singleton inserts e ih =>
    obtain ⟨path, v⟩ := e
    rw [ofInserts_concat, entriesOf_concat]
    have h := Node.walk_insert_isSome v path.components (ofInserts inserts).root d
    rw [ih] at h
    refine h.trans ?_
    simp only [List.map_append, List.mem_append, List.map_cons, List.map_nil, List.mem_singleton]
    constructor
    · rintro (h | rfl | ⟨q, hq, hd⟩)
      · exact .inr ⟨_, .inr rfl, h⟩
      · exact .inl rfl
      · exact .inr ⟨q, .inl hq, hd⟩
    · rintro (rfl | ⟨q, hq | rfl, hd⟩)
      · exact .inr (.inl rfl)
      · exact .inr (.inr ⟨q, hq, hd⟩)
      · exact .inl hd

/-- The lookup returns the last value at the longest inserted prefix exactly when no inserted path makes a detour. -/
theorem findLastMatching_isLastMatch_iff (inserts : List (Path × T)) (p : Path) :
    PrefixMap.IsLastMatch (entriesOf inserts) p.components ((ofInserts inserts).findLastMatching p) ↔
      PrefixMap.NoDetour (entriesOf inserts) p.components := by
  obtain ⟨d, hd, hsome, hdeepest, hfind⟩ := Node.findLastMatching_spec p.components (ofInserts inserts).root
  have hresult : (ofInserts inserts).findLastMatching p = PrefixMap.lastAt (entriesOf inserts) d :=
    hfind.trans (find_ofInserts inserts d)
  rw [hresult]
  apply PrefixMap.isLastMatch_lastAt_iff hd ((walk_ofInserts inserts d).1 hsome)
  intro q hq d' hd'q hd'p
  exact hdeepest d' hd'p ((walk_ofInserts inserts d').2 (.inr ⟨q, hq, hd'q⟩))

/-- A value that the lookup returns was inserted at a prefix of the path, and then no inserted path makes a detour. -/
theorem findLastMatching_eq_some {inserts : List (Path × T)} {p : Path} {v : T}
    (h : (ofInserts inserts).findLastMatching p = some v) :
    PrefixMap.NoDetour (entriesOf inserts) p.components ∧
      ∃ path, (path, v) ∈ inserts ∧ path.components <+: p.components := by
  obtain ⟨d, hd, -, hdeepest, hfind⟩ := Node.findLastMatching_spec p.components (ofInserts inserts).root
  have hlast : PrefixMap.lastAt (entriesOf inserts) d = some v := by
    rw [← find_ofInserts, ← hfind]
    exact h
  have hmem := PrefixMap.mem_of_lastAt hlast
  constructor
  · refine .inr ⟨d, List.mem_map_of_mem hmem, hd, ?_⟩
    intro q hq d' hd'q hd'p
    exact hdeepest d' hd'p ((walk_ofInserts inserts d').2 (.inr ⟨q, hq, hd'q⟩))
  · obtain ⟨e, he, heq⟩ := List.mem_map.1 hmem
    obtain ⟨rfl, rfl⟩ := Prod.mk.inj heq
    exact ⟨e.1, he, hd⟩

/-- Without a detour the lookup finds a value below an inserted path. -/
theorem findLastMatching_isSome {inserts : List (Path × T)} {p path : Path} {v : T} (hmem : (path, v) ∈ inserts)
    (hpath : path.components <+: p.components) (hno : PrefixMap.NoDetour (entriesOf inserts) p.components) :
    ((ofInserts inserts).findLastMatching p).isSome = true := by
  have hlast := (findLastMatching_isLastMatch_iff inserts p).2 hno
  cases hfind : (ofInserts inserts).findLastMatching p with
  | some v => rfl
  | none =>
    rw [hfind] at hlast
    exact absurd hpath (hlast _ (List.mem_map.2 ⟨_, List.mem_map_of_mem hmem, rfl⟩))

end FileSystemTrie

end R4R
