import Mathlib.Logic.Relation
import R4R.RootLinks

/-!
# Aliases below root symlinks

The loop of `resolve_symlinks` over the map ends with the first name that it finds.  When no end of a root symlink lies
below another one there is at most one name to find, so that the order of the map makes no difference
(`candidate_perm`), and the set of aliases is closed under the root symlinks (`aliasesStable_of_apart`).
-/

namespace R4R

open FileTree

/-- The two ends of a symlink, in one order or the other. -/
def LinkEnds (e : Path × Path) (a b : Path) : Prop := e = (a, b) ∨ e = (b, a)

/-- No end of a symlink is a sub-path of another one, and no target is the root or ends with a separator. -/
structure Apart (symlinks : List (Path × Path)) : Prop where
  hasFilename : ∀ e ∈ symlinks, e.2.hasFilename = true
  eq_of_isSubPath : ∀ e ∈ symlinks, ∀ e' ∈ symlinks, ∀ a b a' b', LinkEnds e a b → LinkEnds e' a' b' →
    isSubPath b' b = true → e = e' ∧ b = b'

/-- `result.contains(p)` -/
abbrev Contains (names : List Path) (p : Path) : Prop := p.parts ∈ names.map Path.parts

namespace FileQueries

/-- The texts of symlinks, one after the other, that lead from a name to another one. -/
def Follows (q : FileQueries) : Path → Path → Prop :=
  Relation.ReflTransGen fun link text => q.readSymlink link = .ok text

/-- The names that the texts lead to from a file can be asked for their status, and a name below one end of a symlink
where nothing is comes with the name below the other end. -/
structure TextsPaired (q : FileQueries) (symlinks : List (Path × Path)) : Prop where
  isSymlink : ∀ p n, p.isAbsolute = true → q.existsAt p = .ok true → q.Follows p n → ∃ b, q.isSymlink n = .ok b
  paired : ∀ p n, p.isAbsolute = true → q.existsAt p = .ok true → q.Follows p n → q.existsAt n ≠ .ok true →
    ∀ e ∈ symlinks, ∀ a b rest, LinkEnds e a b → rest.isAbsolute = false → rest.native ≠ [] →
      n.parts = (b / rest).parts → ∃ n', q.Follows p n' ∧ n'.parts = (a / rest).parts

/-- An absolute name of a file, with a text that is led to from `p` if it has one, or a name that is led to itself. -/
def Reached (q : FileQueries) (p n : Path) : Prop :=
  (n.isAbsolute = true ∧ q.existsAt n = .ok true ∧ ∀ text, q.readSymlink n = .ok text → q.Follows p text) ∨
    q.Follows p n

private theorem Reached.follows {q : FileQueries} {p n text : Path} (h : q.Reached p n)
    (htext : q.readSymlink n = .ok text) :
    q.Follows p text := by
  rcases h with ⟨-, -, htexts⟩ | hfollows
  · exact htexts text htext
  · exact hfollows.tail htext

end FileQueries

theorem LinkEnds.symm {e : Path × Path} {a b : Path} (h : LinkEnds e a b) : LinkEnds e b a := Or.symm h

/-- At most one end is a prefix of a list. -/
private theorem Apart.eq_of_prefixes {symlinks : List (Path × Path)} (h : Apart symlinks) {e e' : Path × Path}
    (he : e ∈ symlinks) (he' : e' ∈ symlinks) {a b a' b' : Path} (hends : LinkEnds e a b) (hends' : LinkEnds e' a' b')
    {l : List (List Char)} (hb : b.parts <+: l) (hb' : b'.parts <+: l) : e = e' ∧ b = b' := by
  rcases List.prefix_or_prefix_of_prefix hb hb' with hpre | hpre
  · exact h.eq_of_isSubPath e he e' he' a b a' b' hends hends' ((isSubPath_iff _ _).2 hpre)
  · obtain ⟨rfl, rfl⟩ := h.eq_of_isSubPath e' he' e he a' b' a b hends' hends ((isSubPath_iff _ _).2 hpre)
    exact ⟨rfl, rfl⟩

namespace SymlinkResolver

variable {q : FileQueries} {r r' : SymlinkResolver} {p c : Path} {names : List Path}

/-! ### One candidate -/

/-- When no end lies below another one there is one name to find. -/
private theorem candidate_eq_some_iff (hapart : Apart r.symlinks) : r.candidate q p = some c ↔
    ∃ e ∈ r.symlinks, ∃ a b, LinkEnds e a b ∧ test q p a b = some c := by
  have hfound : ∀ {c}, r.candidate q p = some c →
      ∃ e ∈ r.symlinks, ∃ a b, LinkEnds e a b ∧ test q p a b = some c := by
    intro c h
    obtain ⟨e, he, htest | htest⟩ := test_of_candidate h
    · exact ⟨e, he, e.1, e.2, .inl rfl, htest⟩
    · exact ⟨e, he, e.2, e.1, .inr rfl, htest⟩
  refine ⟨hfound, ?_⟩
  rintro ⟨e, he, a, b, hends, htest⟩
  cases hcandidate : r.candidate q p with
  | none =>
    have hnone := List.findSome?_eq_none_iff.1 hcandidate e he
    rcases hends with rfl | rfl <;> simp [htest] at hnone
  | some c' =>
    obtain ⟨e', he', a', b', hends', htest'⟩ := hfound hcandidate
    obtain ⟨rfl, rfl⟩ := hapart.eq_of_prefixes he he' hends hends' (test_eq_some_iff.1 htest).1
      (test_eq_some_iff.1 htest').1
    have ha : a = a' := by
      rcases hends with rfl | rfl <;> rcases hends' with h | h <;> simp_all
    rw [ha, htest'] at htest
    exact htest

private theorem candidate_perm (hapart : Apart r.symlinks) (hperm : r'.symlinks.Perm r.symlinks) (p : Path) :
    r'.candidate q p = r.candidate q p := by
  have hmem : ∀ e, e ∈ r'.symlinks ↔ e ∈ r.symlinks := fun e => hperm.mem_iff
  have hapart' : Apart r'.symlinks := by
    constructor
    · exact fun e he => hapart.hasFilename e ((hmem e).1 he)
    · exact fun e he e' he' => hapart.eq_of_isSubPath e ((hmem e).1 he) e' ((hmem e').1 he')
  ext c
  rw [candidate_eq_some_iff hapart', candidate_eq_some_iff hapart]
  simp only [hmem]

/-- The order of the map makes no difference. -/
private theorem resolveSymlinks_perm (hapart : Apart r.symlinks) (hperm : r'.symlinks.Perm r.symlinks) (fuel : Nat)
    (path : Path) : r'.resolveSymlinks q fuel path = r.resolveSymlinks q fuel path := by
  have hsuccessors : r'.successors q = r.successors q := by
    funext p
    rw [successors, successors, candidate_perm hapart hperm]
  rw [resolveSymlinks, resolveSymlinks, hsuccessors]

end SymlinkResolver

namespace LinkedFiles

variable (fs : LinkedFiles) (cwd : Location (List Char))

/-- The answers of a kernel without limits to a process in the directory `cwd`. -/
noncomputable def unlimitedQueries : FileQueries := fs.queries (fs.unlimitedStat cwd) cwd

/-- For the path a set is returned, the same one for every order of the map, which has the name below a root symlink
exactly when it has the name below its target. -/
def AliasesStable (r : SymlinkResolver) (p : Path) : Prop :=
  ∃ turns, ∀ fuel, turns ≤ fuel → ∃ names, r.resolveSymlinks (fs.unlimitedQueries cwd) fuel p = .ok names ∧
    (∀ r' : SymlinkResolver, r'.symlinks.Perm r.symlinks →
      ∃ names', r'.resolveSymlinks (fs.unlimitedQueries cwd) fuel p = .ok names' ∧
        ∀ n, Contains names' n ↔ Contains names n) ∧
    ∀ e ∈ r.symlinks, ∀ rest : Path, rest.isAbsolute = false → rest.native ≠ [] →
      (Contains names (e.2 / rest) ↔ Contains names (e.1 / rest))

variable {fs cwd} {r r' : SymlinkResolver} {e : Path × Path} {a b c p n : Path} {follow : Bool}
  {loc : Location (List Char)} {elems : List (List Char)}

/-! ### Names below the ends of a root symlink -/

theorem RootLink.isAbsolute_of_ends (h : fs.RootLink e) (hends : LinkEnds e a b) :
    a.isAbsolute = true ∧ b.isAbsolute = true := by
  rcases hends with rfl | rfl
  · exact ⟨h.isAbsolute_link, h.isAbsolute⟩
  · exact ⟨h.isAbsolute, h.isAbsolute_link⟩

theorem leads_below_iff (hdir : a.isAbsolute = true) (hp : p.parts = a.components ++ elems) :
    fs.Leads cwd follow p loc ↔
      ∃ k, fs.Walks follow [] (a.directoryComponents ++ elems.map componentOf) k loc := by
  obtain ⟨habs, hcomponents⟩ := Path.lookupComponents_of_parts hdir hp
  unfold Leads
  rw [if_pos habs, hcomponents]
  exact and_iff_right (Path.native_ne_nil_of_isAbsolute habs)

/-- A name below one end leads where the name below the other end leads. -/
theorem RootLink.leads_other (h : fs.RootLink e) (hends : LinkEnds e a b) (helems : elems ≠ [])
    (hp : p.parts = b.components ++ elems) (hc : c.parts = a.components ++ elems) (hleads : fs.Leads cwd follow p loc) :
    fs.Leads cwd follow c loc := by
  obtain ⟨ha, hb⟩ := h.isAbsolute_of_ends hends
  have hne : elems.map componentOf ≠ [] := by simpa using helems
  obtain ⟨k, hw⟩ := (leads_below_iff hb hp).1 hleads
  refine (leads_below_iff ha hc).2 ?_
  rcases hends with rfl | rfl
  · exact h.toLink hne hw
  · obtain ⟨k', -, hw⟩ := h.toTarget hne hw
    exact ⟨k', hw⟩

/-- The answers are about the elements of a name. -/
theorem unlimitedStat_congr (h : p.parts = n.parts) :
    fs.unlimitedStat cwd follow p = fs.unlimitedStat cwd follow n := by
  have hnil : p.native = [] ↔ n.native = [] := by rw [Path.native_eq_nil_iff, Path.native_eq_nil_iff, h]
  have hcomponents : p.lookupComponents = n.lookupComponents := by
    rw [Path.lookupComponents, Path.lookupComponents, h]
  have hleads : fs.Leads cwd follow p = fs.Leads cwd follow n := by
    funext loc
    rw [Leads, Leads, Path.isAbsolute_congr h, hcomponents, ne_eq, ne_eq, hnil]
  have hmissing : fs.Missing cwd follow p = fs.Missing cwd follow n := by
    rw [Missing, Missing, Path.isAbsolute_congr h, hcomponents, hnil]
  unfold unlimitedStat
  rw [hleads, hmissing]

theorem existsAt_unlimited_iff : (fs.unlimitedQueries cwd).existsAt p = .ok true ↔ ∃ loc, fs.Leads cwd true p loc := by
  simp only [unlimitedQueries, existsAt_queries_iff, unlimitedStat_eq_some]

theorem readSymlink_unlimited_iff {text : Path} : (fs.unlimitedQueries cwd).readSymlink p = .ok text ↔
    ∃ loc, fs.Leads cwd false p loc ∧ fs.isSymlinkAt loc = true ∧ fs.text loc = text := by
  simp only [unlimitedQueries, readSymlink_queries_iff, unlimitedStat_eq_some]

/-- A name of a directory as its own entry is no symlink. -/
theorem isSymlink_of_dot (hdir : a.isAbsolute = true) (hp : p.parts = a.components ++ (elems ++ [['.']]))
    (hexists : (fs.unlimitedQueries cwd).existsAt p = .ok true) :
    (fs.unlimitedQueries cwd).isSymlink p = .ok false := by
  obtain ⟨loc, hleads⟩ := existsAt_unlimited_iff.1 hexists
  obtain ⟨k, hw⟩ := (leads_below_iff hdir hp).1 hleads
  rw [List.map_append, ← List.append_assoc] at hw
  obtain ⟨k₁, k₂, mid, rfl, hmid, hhere⟩ := hw.split rfl (.inr rfl)
  cases hhere with
  | here hnode hnil =>
    cases hnil
    have hw' : fs.Walks false [] (_ ++ [.here]) (k₁ + 0) loc :=
      hmid.append (.inl (List.cons_ne_nil _ _)) (.here hnode (.nil loc))
    have hstat : fs.unlimitedStat cwd false p = .ok (some loc) := by
      refine unlimitedStat_eq_some.2 ((leads_below_iff hdir hp).2 ⟨k₁ + 0, ?_⟩)
      rw [List.map_append, ← List.append_assoc]
      exact hw'
    simp [unlimitedQueries, queries, hstat, Except.map, isSymlinkAt, hnode]

/-- A file below one end is found below the other end. -/
theorem RootLink.test_eq_some (h : fs.RootLink e) (hends : LinkEnds e a b) (hb : b.components = b.parts)
    (hp : p.parts = b.parts ++ elems) (hne : elems ≠ []) (hslash : elems ≠ [[]])
    (hexists : (fs.unlimitedQueries cwd).existsAt p = .ok true) :
    ∃ c, SymlinkResolver.test (fs.unlimitedQueries cwd) p a b = some c ∧ c.parts = a.components ++ elems := by
  obtain ⟨haabs, hbabs⟩ := h.isAbsolute_of_ends hends
  obtain ⟨-, -, hparts⟩ := Path.parts_append_lexicallyRelative haabs hbabs hp
  rw [Path.below, if_neg (by simp [hne, hslash])] at hparts
  obtain ⟨loc, hleads⟩ := existsAt_unlimited_iff.1 hexists
  have hother := h.leads_other hends hne (hb ▸ hp) hparts hleads
  refine ⟨_, SymlinkResolver.test_eq_some_iff.2 ⟨⟨elems, hp.symm⟩, rfl, ?_, ?_⟩, hparts⟩
  · exact existsAt_unlimited_iff.2 ⟨loc, hother⟩
  · change fs.equivalentOf (fs.unlimitedStat cwd) _ _ = _
    rw [equivalentOf, unlimitedStat_eq_some.2 hother, unlimitedStat_eq_some.2 hleads]
    exact congrArg Except.ok (sameFile_self loc)

/-- What is found below the other end. -/
theorem RootLink.of_test (h : fs.RootLink e) (hends : LinkEnds e a b)
    (htest : SymlinkResolver.test (fs.unlimitedQueries cwd) p a b = some c) :
    ∃ elems, p.parts = b.parts ++ elems ∧ c.isAbsolute = true ∧ c.parts = a.components ++ Path.below elems ∧
      (fs.unlimitedQueries cwd).existsAt c = .ok true := by
  obtain ⟨haabs, hbabs⟩ := h.isAbsolute_of_ends hends
  obtain ⟨elems, hp, hcabs, hparts, hexists, -⟩ := SymlinkResolver.test_below haabs hbabs htest
  exact ⟨elems, hp, hcabs, hparts, hexists⟩

/-! ### What is reached -/

private theorem components_of_ends (hapart : Apart r.symlinks) (h : fs.RootLink e) (he : e ∈ r.symlinks)
    (hends : LinkEnds e a b) : b.components = b.parts := by
  rcases hends with rfl | rfl
  · exact Path.components_eq_of_hasFilename (hapart.hasFilename _ he)
  · exact h.components_link

/-- The successors of a name that is reached are reached. -/
private theorem reached_of_successors (hapart : Apart r.symlinks) (hlinks : ∀ e ∈ r.symlinks, fs.RootLink e)
    {names : List Path}
    (hn : (fs.unlimitedQueries cwd).Reached p n) (h : r.successors (fs.unlimitedQueries cwd) n = .ok names) :
    ∀ c ∈ names, (fs.unlimitedQueries cwd).Reached p c := by
  intro c hc
  rcases ((SymlinkResolver.successors_eq_ok h).2.2 c).1 hc with hcandidate | ⟨-, htext⟩
  · obtain ⟨e, he, a, b, hends, htest⟩ := (SymlinkResolver.candidate_eq_some_iff hapart).1 hcandidate
    obtain ⟨elems, hparts, hcabs, hcparts, hexists⟩ := (hlinks e he).of_test hends htest
    have hb := components_of_ends hapart (hlinks e he) he hends
    refine .inl ⟨hcabs, hexists, fun text htext => ?_⟩
    obtain ⟨loc, hleads, hsymlink, hloc⟩ := readSymlink_unlimited_iff.1 htext
    unfold Path.below at hcparts
    split at hcparts
    · -- the directory as its own entry is no symlink
      rw [← List.nil_append [['.']]] at hcparts
      have hdot := isSymlink_of_dot ((hlinks e he).isAbsolute_of_ends hends).1 hcparts hexists
      have hlink : (fs.unlimitedQueries cwd).isSymlink c = .ok true :=
        isSymlink_queries_iff.2 ⟨loc, unlimitedStat_eq_some.2 hleads, hsymlink⟩
      rw [hdot] at hlink
      cases hlink
    · -- the names are names of one symlink
      rename_i hne
      rw [← hb] at hparts
      have hother := (hlinks e he).leads_other hends.symm (fun h => hne (.inl h)) hcparts hparts hleads
      exact hn.follows (readSymlink_unlimited_iff.2 ⟨loc, hother, hsymlink, hloc⟩)
  · exact .inr (hn.follows htext)

/-- The keys of the names that are visited stay in a finite set. -/
private theorem exists_keys (cwd : Location (List Char)) (hapart : Apart r.symlinks)
    (hlinks : ∀ e ∈ r.symlinks, fs.RootLink e) (p : Path) :
    ∃ keys : Finset (List (List Char)), p.parts ∈ keys ∧ ∀ n names, n.parts ∈ keys →
      r.successors (fs.unlimitedQueries cwd) n = .ok names → ∀ c ∈ names, c.parts ∈ keys := by
  -- the path and the texts, and below the ends of the root symlinks what is behind the first elements of these
  let names : Set Path := insert p (fs.text '' {loc | (fs.node loc).isSome = true})
  let rests : Set (List (List Char)) := insert [['.']] (⋃ x ∈ names, {rest | rest <:+ x.parts})
  let dirs : Set (List (List Char)) := {dir | ∃ e ∈ r.symlinks, ∃ a b, LinkEnds e a b ∧ a.components = dir}
  have hnames : names.Finite := (fs.finite.image fs.text).insert p
  have hrests : rests.Finite := by
    refine (hnames.biUnion fun x _ => (List.finite_toSet x.parts.tails).subset ?_).insert _
    exact fun rest hrest => (List.mem_tails _ _).2 hrest
  have hdirs : dirs.Finite := by
    refine (List.finite_toSet (r.symlinks.flatMap fun e => [e.1.components, e.2.components])).subset ?_
    rintro _ ⟨e, he, a, b, rfl | rfl, rfl⟩
    · exact List.mem_flatMap.2 ⟨_, he, List.mem_cons_self ..⟩
    · exact List.mem_flatMap.2 ⟨_, he, by simp⟩
  have hkeys : (Path.parts '' names ∪ Set.image2 (· ++ ·) dirs rests).Finite :=
    (hnames.image _).union (hdirs.image2 _ hrests)
  obtain ⟨keys, hkeys⟩ := hkeys.exists_finset_coe
  have hmem : ∀ key, key ∈ keys ↔ key ∈ Path.parts '' names ∪ Set.image2 (· ++ ·) dirs rests := by
    intro key
    rw [← hkeys, Finset.mem_coe]
  refine ⟨keys, (hmem _).2 (.inl ⟨p, Set.mem_insert p _, rfl⟩), ?_⟩
  intro n names' hn hsuccessors c hc
  rw [hmem] at hn ⊢
  rcases ((SymlinkResolver.successors_eq_ok hsuccessors).2.2 c).1 hc with hcandidate | ⟨-, htext⟩
  · obtain ⟨e, he, a, b, hends, htest⟩ := (SymlinkResolver.candidate_eq_some_iff hapart).1 hcandidate
    obtain ⟨elems, hparts, -, hcparts, -⟩ := (hlinks e he).of_test hends htest
    have helems : elems ∈ rests := by
      rcases hn with ⟨x, hx, hxparts⟩ | ⟨_, ⟨e', he', b', a', hends', rfl⟩, rest, hrest, hrestparts⟩
      · exact .inr (Set.mem_biUnion hx ⟨b.parts, by rw [hxparts, hparts]⟩)
      · -- the name is below one end only
        rw [components_of_ends hapart (hlinks e' he') he' hends'.symm, hparts] at hrestparts
        have hsame := hapart.eq_of_prefixes he he' hends hends'.symm ⟨elems, rfl⟩ ⟨rest, hrestparts⟩
        rw [hsame.2, List.append_cancel_left_eq] at hrestparts
        exact hrestparts ▸ hrest
    rw [hcparts]
    refine .inr ⟨_, ⟨e, he, a, b, hends, rfl⟩, _, ?_, rfl⟩
    unfold Path.below
    split
    · exact Set.mem_insert _ _
    · exact helems
  · obtain ⟨loc, -, hsymlink, rfl⟩ := readSymlink_unlimited_iff.1 htext
    obtain ⟨absolute, target, hnode⟩ := isSymlinkAt_iff.1 hsymlink
    refine .inl ⟨_, .inr ⟨loc, ?_, rfl⟩, rfl⟩
    change (fs.node loc).isSome = true
    rw [hnode]
    rfl

/-! ### The set of aliases -/

theorem isSymlink_of_exists (h : (fs.unlimitedQueries cwd).existsAt n = .ok true) :
    ∃ b, (fs.unlimitedQueries cwd).isSymlink n = .ok b := by
  obtain ⟨loc, hne, k, hw⟩ := existsAt_unlimited_iff.1 h
  have hstat : ∃ loc', fs.unlimitedStat cwd false n = .ok (some loc') := by
    rcases hw.stop_or_link with hw | ⟨k₁, k₂, link, absolute, target, -, hw, -, -⟩
    · exact ⟨loc, unlimitedStat_eq_some.2 ⟨hne, k, hw⟩⟩
    · exact ⟨link, unlimitedStat_eq_some.2 ⟨hne, k₁, hw⟩⟩
  obtain ⟨loc', hloc'⟩ := hstat
  exact ⟨fs.isSymlinkAt loc', by simp [unlimitedQueries, queries, hloc', Except.map]⟩

/-- In a file system whose symlinks have absolute texts these lead to files only. -/
theorem textsPaired_of_isAbsolute (symlinks : List (Path × Path)) (htexts : ∀ link absolute target,
    fs.node link = some (.symlink absolute target) → (fs.text link).isAbsolute = true) :
    (fs.unlimitedQueries cwd).TextsPaired symlinks := by
  have hfile : ∀ p n, p.isAbsolute = true → (fs.unlimitedQueries cwd).existsAt p = .ok true →
      (fs.unlimitedQueries cwd).Follows p n →
        n.isAbsolute = true ∧ (fs.unlimitedQueries cwd).existsAt n = .ok true := by
    intro p n habs hexists hfollows
    induction hfollows with
    | refl => exact ⟨habs, hexists⟩
    | tail _ htext ih =>
      obtain ⟨loc, hleads⟩ := existsAt_unlimited_iff.1 ih.2
      obtain ⟨link, hlink, hsymlink, rfl⟩ := readSymlink_unlimited_iff.1 htext
      obtain ⟨absolute, target, hnode⟩ := isSymlinkAt_iff.1 hsymlink
      have htextabs := htexts link absolute target hnode
      exact ⟨htextabs, existsAt_unlimited_iff.2 ⟨loc, leads_text ih.1 hleads hlink hsymlink htextabs⟩⟩
  constructor
  · exact fun p n habs hexists hfollows => isSymlink_of_exists (hfile p n habs hexists hfollows).2
  · exact fun p n habs hexists hfollows hmissing => absurd (hfile p n habs hexists hfollows).2 hmissing

private theorem reached_self (habs : p.isAbsolute = true) (hexists : (fs.unlimitedQueries cwd).existsAt p = .ok true) :
    (fs.unlimitedQueries cwd).Reached p p :=
  .inl ⟨habs, hexists, fun _ htext => .single htext⟩

section Result

variable {fuel : Nat} {names : List Path}

/-- The successors of a name in the set are in the set. -/
theorem successors_of_mem (h : r.resolveSymlinks (fs.unlimitedQueries cwd) fuel p = .ok names) (hn : n ∈ names) :
    ∃ as, r.successors (fs.unlimitedQueries cwd) n = .ok as ∧ ∀ c ∈ as, Contains names c :=
  ((WorkList.loop_closed fuel h).2.2 n hn).resolve_left List.not_mem_nil

theorem contains_self (h : r.resolveSymlinks (fs.unlimitedQueries cwd) fuel p = .ok names) : Contains names p :=
  List.mem_map_of_mem (WorkList.mem_of_loop_singleton h)

/-- The set has what texts lead to. -/
theorem contains_of_follows (h : r.resolveSymlinks (fs.unlimitedQueries cwd) fuel p = .ok names)
    (hfollows : (fs.unlimitedQueries cwd).Follows p n) : Contains names n := by
  induction hfollows with
  | refl => exact contains_self h
  | @tail link text _ htext ih =>
    obtain ⟨m, hm, hparts⟩ := List.mem_map.1 ih
    have htext : (fs.unlimitedQueries cwd).readSymlink m = .ok text := by
      rw [readSymlink_unlimited_iff] at htext ⊢
      simpa only [← unlimitedStat_eq_some, unlimitedStat_congr hparts] using htext
    obtain ⟨as, has, hall⟩ := successors_of_mem h hm
    refine hall text (((SymlinkResolver.successors_eq_ok has).2.2 text).2 (.inr ⟨?_, htext⟩))
    exact isSymlink_queries_iff_readSymlink.2 ⟨text, htext⟩

/-- What is in the set is reached. -/
theorem reached_of_mem (hapart : Apart r.symlinks) (hlinks : ∀ e ∈ r.symlinks, fs.RootLink e)
    (habs : p.isAbsolute = true) (hexists : (fs.unlimitedQueries cwd).existsAt p = .ok true)
    (h : r.resolveSymlinks (fs.unlimitedQueries cwd) fuel p = .ok names) :
    ∀ n ∈ names, (fs.unlimitedQueries cwd).Reached p n := by
  refine WorkList.loop_invariant (fun n as hn has => reached_of_successors hapart hlinks hn has) fuel (by simp) ?_ h
  intro n hn
  obtain rfl := List.mem_singleton.1 hn
  exact reached_self habs hexists

/-- The set has the name below the other end of a root symlink. -/
private theorem contains_other (hlinks : ∀ e ∈ r.symlinks, fs.RootLink e) (hapart : Apart r.symlinks)
    (htexts : (fs.unlimitedQueries cwd).TextsPaired r.symlinks) (habs : p.isAbsolute = true)
    (hexists : (fs.unlimitedQueries cwd).existsAt p = .ok true)
    (h : r.resolveSymlinks (fs.unlimitedQueries cwd) fuel p = .ok names) (he : e ∈ r.symlinks) (hends : LinkEnds e a b)
    {rest : Path} (hrel : rest.isAbsolute = false) (hne : rest.native ≠ []) (hcontains : Contains names (b / rest)) :
    Contains names (a / rest) := by
  obtain ⟨n, hn, hparts⟩ := List.mem_map.1 hcontains
  by_cases hnexists : (fs.unlimitedQueries cwd).existsAt n = .ok true
  · obtain ⟨haabs, hbabs⟩ := (hlinks e he).isAbsolute_of_ends hends
    have hb := components_of_ends hapart (hlinks e he) he hends
    rw [Path.parts_append hbabs hrel hne, hb] at hparts
    obtain ⟨hrest, hslash⟩ := Path.parts_ne_of_relative hrel hne
    obtain ⟨c, htest, hcparts⟩ := (hlinks e he).test_eq_some hends hb hparts hrest hslash hnexists
    obtain ⟨as, has, hall⟩ := successors_of_mem h hn
    have hcandidate := (SymlinkResolver.candidate_eq_some_iff hapart).2 ⟨e, he, a, b, hends, htest⟩
    have hc := hall c (((SymlinkResolver.successors_eq_ok has).2.2 c).2 (.inl hcandidate))
    rwa [Contains, hcparts, ← Path.parts_append haabs hrel hne] at hc
  · -- nothing is there: the texts lead to both names
    have hfollows := (reached_of_mem hapart hlinks habs hexists h n hn).resolve_left fun h => hnexists h.2.1
    obtain ⟨n', hn', hparts'⟩ := htexts.paired p n habs hexists hfollows hnexists e he a b rest hends hrel hne hparts
    have hcontains' := contains_of_follows h hn'
    rwa [Contains, hparts'] at hcontains'

end Result

/-- The loop returns a set, after a number of turns that does not depend on the order of the map. -/
private theorem exists_names (hlinks : ∀ e ∈ r.symlinks, fs.RootLink e) (hapart : Apart r.symlinks)
    (htexts : (fs.unlimitedQueries cwd).TextsPaired r.symlinks) (habs : p.isAbsolute = true)
    (hexists : (fs.unlimitedQueries cwd).existsAt p = .ok true) :
    ∃ turns, ∀ fuel, turns ≤ fuel → ∃ names, r.resolveSymlinks (fs.unlimitedQueries cwd) fuel p = .ok names := by
  obtain ⟨keys, hp, hkeys⟩ := exists_keys cwd hapart hlinks p
  refine ⟨3 * keys.card + 1, fun fuel hfuel => ?_⟩
  have hwl : ∀ n ∈ [p], n.parts ∈ keys ∧ (fs.unlimitedQueries cwd).Reached p n := by
    intro n hn
    obtain rfl := List.mem_singleton.1 hn
    exact ⟨hp, reached_self habs hexists⟩
  refine WorkList.loop_terminates_of_invariant (U := keys) (m := 2) (fun n hn => hn.1) ?_ hwl hfuel
  rintro n ⟨hn, hreached⟩
  have hsymlink : ∃ b, (fs.unlimitedQueries cwd).isSymlink n = .ok b := by
    rcases hreached with ⟨-, hnexists, -⟩ | hfollows
    · exact isSymlink_of_exists hnexists
    · exact htexts.isSymlink p n habs hexists hfollows
  obtain ⟨names, hnames⟩ := SymlinkResolver.exists_successors r hsymlink isSymlink_queries_iff_readSymlink.1
  refine ⟨names, hnames, (SymlinkResolver.successors_eq_ok hnames).2.1, fun c hc => ?_⟩
  exact ⟨hkeys n names hn hnames c hc, reached_of_successors hapart hlinks hreached hnames c hc⟩

/-- When no end of a root symlink lies below another one the set is closed under the root symlinks and does not depend
on the order of the map. -/
theorem aliasesStable_of_apart (hlinks : ∀ e ∈ r.symlinks, fs.RootLink e) (hapart : Apart r.symlinks)
    (htexts : (fs.unlimitedQueries cwd).TextsPaired r.symlinks) (habs : p.isAbsolute = true)
    (hexists : (fs.unlimitedQueries cwd).existsAt p = .ok true) : fs.AliasesStable cwd r p := by
  obtain ⟨turns, hturns⟩ := exists_names hlinks hapart htexts habs hexists
  refine ⟨turns, fun fuel hfuel => ?_⟩
  obtain ⟨names, hnames⟩ := hturns fuel hfuel
  refine ⟨names, hnames, ?_, ?_⟩
  · intro r' hperm
    exact ⟨names, by rw [SymlinkResolver.resolveSymlinks_perm hapart hperm, hnames], fun _ => Iff.rfl⟩
  · intro e he rest hrel hne
    exact ⟨contains_other hlinks hapart htexts habs hexists hnames he (.inl rfl) hrel hne,
      contains_other hlinks hapart htexts habs hexists hnames he (.inr rfl) hrel hne⟩

end LinkedFiles

end R4R
