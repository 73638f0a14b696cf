import Mathlib.Algebra.Order.BigOperators.Group.List
import Mathlib.Algebra.Order.Group.Nat
import R4R.AliasClosure

/-!
# Aliases and the order of the map

When the set of aliases is closed under the root symlinks and is the same for every order of the map, no end of a root
symlink lies below another one: the order in which one symlink comes first returns the two names that it has for a
file, and both are below another end as well.  With `aliasesStable_of_apart` this says exactly when `resolve_symlinks`
is closed and does not depend on the order (`aliasesStable_iff`).
-/

namespace R4R

open FileTree

namespace Path

variable {a p : Path} {elems : List (List Char)}

/-- A name of a directory as its own entry, relative to a directory above it. -/
def dotted (elems : List (List Char)) : Path := (⟨[]⟩ : Path).joinAll (elems ++ [['.']])

private theorem parts_dotted (helems : ∀ s ∈ elems, s ≠ [] ∧ '/' ∉ s) : (dotted elems).isAbsolute = false ∧
    (dotted elems).native ≠ [] ∧ (dotted elems).parts = elems ++ [['.']] := by
  have hnames : ∀ s ∈ elems ++ [['.']], s ≠ [] ∧ '/' ∉ s := by
    intro s hs
    rcases List.mem_append.1 hs with hs | hs
    · exact helems s hs
    · rw [List.mem_singleton.1 hs]
      decide
  have hparts : (dotted elems).parts = elems ++ [['.']] := parts_joinAll (p := ⟨[]⟩) _ (by decide) hnames
  refine ⟨?_, fun h => ?_, hparts⟩
  · rw [← Bool.not_eq_true]
    intro habs
    rw [isAbsolute_iff_mem_parts, hparts] at habs
    exact (hnames _ habs).2 (List.mem_cons_self ..)
  · rw [native_eq_nil_iff, hparts] at h
    exact absurd h (by simp)

private theorem parts_append_dotted (ha : a.isAbsolute = true) (helems : ∀ s ∈ elems, s ≠ [] ∧ '/' ∉ s) :
    (a / dotted elems).parts = a.components ++ (elems ++ [['.']]) := by
  obtain ⟨hrel, hne, hparts⟩ := parts_dotted helems
  rw [parts_append ha hrel hne, hparts]

/-- What is behind the components of a directory is file names. -/
private theorem names_of_components (ha : a.isAbsolute = true) (hp : p.isAbsolute = true)
    (h : p.components = a.components ++ elems) : ∀ s ∈ elems, s ≠ [] ∧ '/' ∉ s := by
  rw [components_of_isAbsolute ha, components_of_isAbsolute hp, List.cons_append] at h
  intro s hs
  exact of_mem_filenames (p := p) ((List.cons.inj h).2 ▸ List.mem_append_right _ hs)

end Path

namespace SymlinkResolver

variable {q : FileQueries} {r : SymlinkResolver} {e : Path × Path} {p c : Path}

/-- The resolver whose map has the symlink first. -/
def withFirst (r : SymlinkResolver) (e : Path × Path) : SymlinkResolver := ⟨e :: r.symlinks.erase e⟩

private theorem perm_withFirst (he : e ∈ r.symlinks) : (r.withFirst e).symlinks.Perm r.symlinks :=
  (List.perm_cons_erase he).symm

private theorem candidate_withFirst
    (h : test q p e.1 e.2 = some c ∨ test q p e.1 e.2 = none ∧ test q p e.2 e.1 = some c) :
    (r.withFirst e).candidate q p = some c := by
  unfold candidate withFirst
  rcases h with h | ⟨hnone, h⟩
  · simp [h]
  · simp [hnone, h]

/-- Nothing is found for a path that is below no end. -/
private theorem candidate_eq_none (h : ∀ e ∈ r.symlinks, ¬ e.1.parts <+: p.parts ∧ ¬ e.2.parts <+: p.parts) :
    r.candidate q p = none := by
  cases hcandidate : r.candidate q p with
  | none => rfl
  | some c =>
    obtain ⟨e, he, htest | htest⟩ := test_of_candidate hcandidate
    · exact absurd (test_eq_some_iff.1 htest).1 (h e he).2
    · exact absurd (test_eq_some_iff.1 htest).1 (h e he).1

private theorem successors_of_not_isSymlink (h : q.isSymlink p = .ok false) :
    r.successors q p = .ok (r.candidate q p).toList := by
  unfold successors
  rw [h]
  rfl

end SymlinkResolver

namespace LinkedFiles

variable {fs : LinkedFiles} {cwd : Location (List Char)} {r : SymlinkResolver} {e k : Path × Path} {a b p : Path}
  {elems : List (List Char)}

/-- A directory as its own entry. -/
private theorem existsAt_dotted (ha : a.isAbsolute = true) (helems : ∀ s ∈ elems, s ≠ [] ∧ '/' ∉ s)
    (h : ∃ j loc, fs.Walks true [] (a.directoryComponents ++ (elems.map componentOf ++ [.here])) j loc) :
    (fs.unlimitedQueries cwd).existsAt (a / Path.dotted elems) = .ok true := by
  obtain ⟨j, loc, hw⟩ := h
  refine existsAt_unlimited_iff.2 ⟨loc, (leads_below_iff ha (Path.parts_append_dotted ha helems)).2 ⟨j, ?_⟩⟩
  rw [List.map_append]
  exact hw

private theorem existsAt_congr {n : Path} (h : p.parts = n.parts)
    (hexists : (fs.unlimitedQueries cwd).existsAt p = .ok true) :
    (fs.unlimitedQueries cwd).existsAt n = .ok true := by
  simp only [existsAt_unlimited_iff, ← unlimitedStat_eq_some, unlimitedStat_congr h] at hexists ⊢
  exact hexists

/-- The name below the other end is no symlink either. -/
private theorem RootLink.isSymlink_other {c : Path} (h : fs.RootLink e) (hends : LinkEnds e a b) (hne : elems ≠ [])
    (hp : p.parts = b.components ++ elems) (hc : c.parts = a.components ++ elems)
    (hexists : (fs.unlimitedQueries cwd).existsAt c = .ok true)
    (hfile : (fs.unlimitedQueries cwd).isSymlink p = .ok false) :
    (fs.unlimitedQueries cwd).isSymlink c = .ok false := by
  obtain ⟨symlink, hsymlink⟩ := isSymlink_of_exists hexists
  cases symlink with
  | false => exact hsymlink
  | true =>
    obtain ⟨text, htext⟩ := isSymlink_queries_iff_readSymlink.1 hsymlink
    obtain ⟨loc, hleads, hloc, htext⟩ := readSymlink_unlimited_iff.1 htext
    have hother := readSymlink_unlimited_iff.2 ⟨loc, h.leads_other hends.symm hne hc hp hleads, hloc, htext⟩
    rw [unlimitedQueries, isSymlink_queries_iff_readSymlink.2 ⟨text, hother⟩] at hfile
    cases hfile

/-- A root symlink has one name, and so it is the shorter one of two prefixes. -/
private theorem RootLink.below_of_prefixes (h : fs.RootLink e) (hb : b.isAbsolute = true) (hroot : b.filenames ≠ [])
    {l : List (List Char)} (hlink : e.1.parts <+: l) (hdir : b.components <+: l) : e.1.parts <+: b.components := by
  refine List.prefix_of_prefix_length_le hlink hdir ?_
  obtain ⟨n, -, hparts⟩ := h.name
  obtain ⟨f, fs, hnames⟩ := List.exists_cons_of_ne_nil hroot
  rw [hparts, Path.components_of_isAbsolute hb, hnames]
  simp

/-- A file below the target of the symlink that comes first, when it is no symlink itself, has two names. -/
private theorem resolveSymlinks_withFirst (r : SymlinkResolver) (h : fs.RootLink k) (hb : k.2.components = k.2.parts)
    (hroot : k.2.filenames ≠ []) (hp : p.parts = k.2.components ++ elems) (hne : elems ≠ []) (hslash : elems ≠ [[]])
    (hexists : (fs.unlimitedQueries cwd).existsAt p = .ok true)
    (hfile : (fs.unlimitedQueries cwd).isSymlink p = .ok false) (fuel : Nat) :
    (r.withFirst k).resolveSymlinks (fs.unlimitedQueries cwd) (fuel + 3) p =
        .ok [p, k.1 / p.lexicallyRelative k.2] ∧
      (k.1 / p.lexicallyRelative k.2).parts = k.1.components ++ elems := by
  -- from the target to the symlink
  obtain ⟨c, htest, hc⟩ := h.test_eq_some (.inl rfl) hb (hb ▸ hp) hne hslash hexists
  obtain ⟨-, -, -, -, hcexists⟩ := h.of_test (.inl rfl) htest
  rw [(SymlinkResolver.test_eq_some_iff.1 htest).2.1]
  have hpnext : (r.withFirst k).successors (fs.unlimitedQueries cwd) p = .ok [c] := by
    rw [SymlinkResolver.successors_of_not_isSymlink hfile, SymlinkResolver.candidate_withFirst (.inl htest)]
    rfl
  -- and back
  obtain ⟨p', htest', hp'⟩ := h.test_eq_some (.inr rfl) h.components_link (h.components_link ▸ hc) hne hslash hcexists
  have hnone : SymlinkResolver.test (fs.unlimitedQueries cwd) c k.1 k.2 = none := by
    cases htest : SymlinkResolver.test (fs.unlimitedQueries cwd) c k.1 k.2 with
    | none => rfl
    | some c' =>
      have hlink : k.1.parts <+: c.parts := ⟨_, (h.components_link ▸ hc).symm⟩
      have hbelow := (SymlinkResolver.test_eq_some_iff.1 htest).1
      exact absurd (h.below_of_prefixes h.isAbsolute hroot hlink (hb ▸ hbelow)) h.not_below
  have hcfile := h.isSymlink_other (.inl rfl) hne hp hc hcexists hfile
  have hcnext : (r.withFirst k).successors (fs.unlimitedQueries cwd) c = .ok [p'] := by
    rw [SymlinkResolver.successors_of_not_isSymlink hcfile, SymlinkResolver.candidate_withFirst (.inr ⟨hnone, htest'⟩)]
    rfl
  refine ⟨WorkList.loop_of_pair hpnext hcnext (hp'.trans hp.symm) ?_ fuel, hc⟩
  rw [hp, hc]
  intro heq
  exact h.not_below ((List.append_cancel_right heq) ▸ h.components_link ▸ List.prefix_refl _)

section Stable

variable (hlinks : ∀ e ∈ r.symlinks, fs.RootLink e)
  (hstable : ∀ p, p.isAbsolute = true → (fs.unlimitedQueries cwd).existsAt p = .ok true → fs.AliasesStable cwd r p)

include hlinks hstable

/-- The target of a root symlink is not the root directory: every name would have one more below the symlink. -/
private theorem filenames_ne_nil_of_stable (he : e ∈ r.symlinks) : e.2.filenames ≠ [] := by
  intro hroot
  have h := hlinks e he
  have hparts : e.2.parts = [['/']] := by
    rw [Path.parts, if_pos h.isAbsolute, hroot]
    rfl
  have hcomponents : e.2.components = [['/']] := by rw [Path.components, hparts]; rfl
  obtain ⟨n, hn, hlink⟩ := h.name
  have helems : ∀ s ∈ ([] : List (List Char)), s ≠ [] ∧ '/' ∉ s := by simp
  have hdotted := Path.parts_append_dotted h.isAbsolute helems
  have hexists : (fs.unlimitedQueries cwd).existsAt (e.2 / Path.dotted []) = .ok true :=
    existsAt_dotted h.isAbsolute helems h.isDirectory
  obtain ⟨turns, hturns⟩ := hstable _ (Path.isAbsolute_join h.isAbsolute _) hexists
  obtain ⟨_, _, hperm, _⟩ := hturns turns le_rfl
  obtain ⟨names, hnames, -⟩ := hperm _ (SymlinkResolver.perm_withFirst he)
  -- names of any length are in the set
  have hlong : ∀ m, ∃ p ∈ names, (fs.unlimitedQueries cwd).existsAt p = .ok true ∧
      ∃ elems, p.parts = e.2.parts ++ elems ∧ elems ≠ [] ∧ elems ≠ [[]] ∧ m ≤ elems.length := by
    intro m
    induction m with
    | zero =>
      obtain ⟨p, hp, hpparts⟩ := List.mem_map.1 (contains_self hnames)
      rw [hdotted, hcomponents, ← hparts] at hpparts
      refine ⟨p, hp, existsAt_congr ?_ hexists, _, hpparts, by simp, by simp, Nat.zero_le _⟩
      rw [hdotted, hpparts, hcomponents, hparts]
    | succ m ih =>
      obtain ⟨p, hp, hpexists, elems, hpparts, hne, hslash, hlen⟩ := ih
      obtain ⟨c, htest, hcparts⟩ := h.test_eq_some (.inl rfl) (hparts ▸ hcomponents) hpparts hne hslash hpexists
      obtain ⟨-, -, -, -, hcexists⟩ := h.of_test (.inl rfl) htest
      obtain ⟨as, has, hall⟩ := successors_of_mem hnames hp
      have hcandidate := SymlinkResolver.candidate_withFirst (r := r) (.inl htest)
      obtain ⟨c', hc', hsame⟩ := List.mem_map.1
        (hall c (((SymlinkResolver.successors_eq_ok has).2.2 c).2 (.inl hcandidate)))
      refine ⟨c', hc', existsAt_congr hsame.symm hcexists, n :: elems, ?_, by simp, by simp [hne], by simpa using hlen⟩
      rw [hsame, hcparts, h.components_link, hlink, hparts]
      rfl
  obtain ⟨p, hp, -, elems, hpparts, -, -, hlen⟩ := hlong ((names.map fun p => p.parts.length).sum)
  have hsum : p.parts.length ≤ (names.map fun p => p.parts.length).sum :=
    List.le_sum_of_mem (List.mem_map.2 ⟨p, hp, rfl⟩)
  have hlength : p.parts.length = 1 + elems.length := by rw [hpparts, hparts, List.length_append]; rfl
  omega

/-- The two names that a file has with one symlink are all that there is, so that the name below another target is one
of them, and so is the name below the symlink for that target. -/
private theorem names_of_stable (hk : k ∈ r.symlinks) (hb : k.2.components = k.2.parts)
    (helems : ∀ s ∈ elems, s ≠ [] ∧ '/' ∉ s)
    (hwalk : ∃ j loc, fs.Walks true [] (k.2.directoryComponents ++ (elems.map componentOf ++ [.here])) j loc)
    (he : e ∈ r.symlinks) {elems' : List (List Char)} (helems' : ∀ s ∈ elems', s ≠ [] ∧ '/' ∉ s)
    (hname : e.2.components ++ elems' = k.2.components ++ elems ∨ e.2.components ++ elems' = k.1.components ++ elems) :
    e.1.components ++ elems' = k.2.components ++ elems ∨ e.1.components ++ elems' = k.1.components ++ elems := by
  have h := hlinks k hk
  have hexists : (fs.unlimitedQueries cwd).existsAt (k.2 / Path.dotted elems) = .ok true :=
    existsAt_dotted h.isAbsolute helems hwalk
  have hroot := filenames_ne_nil_of_stable hlinks hstable hk
  obtain ⟨turns, hturns⟩ := hstable _ (Path.isAbsolute_join h.isAbsolute _) hexists
  obtain ⟨names, -, hperm, hclosed⟩ := hturns (turns + 3) (by omega)
  obtain ⟨names', hnames', hsame⟩ := hperm _ (SymlinkResolver.perm_withFirst hk)
  have hp := Path.parts_append_dotted h.isAbsolute helems
  have hslash : elems ++ [['.']] ≠ [[]] := by simp [List.append_eq_singleton_iff]
  obtain ⟨hpair, hc⟩ := resolveSymlinks_withFirst r h hb hroot hp (by simp) hslash hexists
    (isSymlink_of_dot h.isAbsolute hp hexists) turns
  rw [hpair] at hnames'
  obtain rfl := Except.ok.inj hnames'
  -- what the set has, as lists of elements
  have hcontains : ∀ a : Path, a.isAbsolute = true → (Contains names (a / Path.dotted elems') ↔
      a.components ++ elems' = k.2.components ++ elems ∨ a.components ++ elems' = k.1.components ++ elems) := by
    intro a ha
    rw [← hsame, Contains, Path.parts_append_dotted ha helems']
    simp only [List.map_cons, List.map_nil, List.mem_cons, List.not_mem_nil, or_false, hc, hp, ← List.append_assoc,
      List.append_cancel_right_eq]
  obtain ⟨hrel, hne, -⟩ := Path.parts_dotted helems'
  rw [← hcontains e.1 (hlinks e he).isAbsolute_link, ← hclosed e he _ hrel hne, hcontains e.2 (hlinks e he).isAbsolute]
  exact hname

section Targets

variable (hinj : ∀ e ∈ r.symlinks, ∀ e' ∈ r.symlinks, e.1.parts = e'.1.parts → e = e')
  (he : e ∈ r.symlinks) (hk : k ∈ r.symlinks) (hne : e ≠ k) (hb : k.2.components = k.2.parts)

include hinj he hk hne hb

omit hstable hb in
/-- One root symlink has no name below another one. -/
private theorem link_ne_link (rest : List (List Char)) : e.1.components ++ rest ≠ k.1.components := by
  intro h
  obtain ⟨n, -, hn⟩ := (hlinks e he).name
  obtain ⟨m, -, hm⟩ := (hlinks k hk).name
  rw [(hlinks e he).components_link, (hlinks k hk).components_link] at h
  have hlen := congrArg List.length h
  rw [List.length_append, hn, hm] at hlen
  obtain rfl : rest = [] := List.length_eq_zero_iff.1 (by simpa using hlen)
  rw [List.append_nil] at h
  exact hne (hinj e he k hk h)

/-- No target lies above another one. -/
private theorem target_not_above : ¬ e.2.components <+: k.2.components := by
  rintro ⟨rest, hrest⟩
  have hnil : ∀ s ∈ ([] : List (List Char)), s ≠ [] ∧ '/' ∉ s := nofun
  have hnames := Path.names_of_components (hlinks e he).isAbsolute (hlinks k hk).isAbsolute hrest.symm
  have hname : e.2.components ++ rest = k.2.components ++ [] := by rw [hrest, List.append_nil]
  rcases names_of_stable hlinks hstable hk hb hnil (hlinks k hk).isDirectory he hnames (.inl hname) with h | h
  · rw [← hname, List.append_cancel_right_eq] at h
    exact (hlinks e he).not_below (by rw [← h, (hlinks e he).components_link])
  · rw [List.append_nil] at h
    exact link_ne_link hlinks hinj he hk hne rest h

/-- No target lies below another one. -/
private theorem target_not_below : ¬ k.2.components <+: e.2.components := by
  rintro ⟨rest, hrest⟩
  have hnil : ∀ s ∈ ([] : List (List Char)), s ≠ [] ∧ '/' ∉ s := nofun
  have hnames := Path.names_of_components (hlinks k hk).isAbsolute (hlinks e he).isAbsolute hrest.symm
  have hwalk := (hlinks e he).isDirectory
  rw [Path.directoryComponents_of_components (hlinks e he).isAbsolute (hlinks k hk).isAbsolute hrest.symm,
    List.append_assoc] at hwalk
  have hname : e.2.components ++ [] = k.2.components ++ rest := by rw [hrest, List.append_nil]
  rcases names_of_stable hlinks hstable hk hb hnames hwalk he hnil (.inl hname) with h | h
  · rw [← hname, List.append_cancel_right_eq] at h
    exact (hlinks e he).not_below (by rw [← h, (hlinks e he).components_link])
  · rw [List.append_nil] at h
    exact link_ne_link hlinks hinj hk he hne.symm rest h.symm

/-- No target lies below another symlink. -/
private theorem target_not_below_link : ¬ k.1.parts <+: e.2.components := by
  intro hbelow
  obtain ⟨rest, hrest⟩ := hbelow
  rw [← (hlinks k hk).components_link] at hrest
  have hnil : ∀ s ∈ ([] : List (List Char)), s ≠ [] ∧ '/' ∉ s := nofun
  have hnames := Path.names_of_components (hlinks k hk).isAbsolute_link (hlinks e he).isAbsolute hrest.symm
  obtain ⟨j, loc, hw⟩ := (hlinks e he).isDirectory
  rw [Path.directoryComponents_of_components (hlinks e he).isAbsolute (hlinks k hk).isAbsolute_link hrest.symm,
    List.append_assoc] at hw
  obtain ⟨j', -, hw'⟩ := (hlinks k hk).toTarget (by simp) hw
  have hname : e.2.components ++ [] = k.1.components ++ rest := by rw [hrest, List.append_nil]
  rcases names_of_stable hlinks hstable hk hb hnames ⟨j', loc, hw'⟩ he hnil (.inr hname) with h | h
  · -- the two symlinks lead to each other
    rw [List.append_nil, (hlinks e he).components_link] at h
    have hroot := filenames_ne_nil_of_stable hlinks hstable hk
    have hprefix : e.1.parts <+: k.2.components :=
      (hlinks e he).below_of_prefixes (hlinks k hk).isAbsolute hroot (List.prefix_refl _) ⟨rest, h.symm⟩
    refine (hlinks k hk).not_mutual (hlinks e he) hprefix ⟨rest, ?_⟩
    rw [← (hlinks k hk).components_link, hrest]
  · rw [List.append_nil] at h
    exact link_ne_link hlinks hinj hk he hne.symm rest h.symm

end Targets

/-- Nothing is found for a target with a separator at its end when those on its way have none. -/
private theorem candidate_eq_none_of_separator
    (hinj : ∀ e ∈ r.symlinks, ∀ e' ∈ r.symlinks, e.1.parts = e'.1.parts → e = e') (he : e ∈ r.symlinks)
    (hfile : e.2.hasFilename = false)
    (hway : ∀ k ∈ r.symlinks, k.1.parts <+: e.2.components → k.2.hasFilename = true) :
    r.candidate (fs.unlimitedQueries cwd) (e.2 / Path.dotted []) = none := by
  have h := hlinks e he
  have hnil : ∀ s ∈ ([] : List (List Char)), s ≠ [] ∧ '/' ∉ s := nofun
  have hp := Path.parts_append_dotted h.isAbsolute hnil
  have hroot : ∀ k ∈ r.symlinks, k.2.filenames ≠ [] := fun k hk => filenames_ne_nil_of_stable hlinks hstable hk
  refine SymlinkResolver.candidate_eq_none fun k hk => ⟨fun hlink => ?_, fun htarget => ?_⟩
  · have hbelow := (hlinks k hk).below_of_prefixes h.isAbsolute (hroot e he) hlink (hp ▸ List.prefix_append _ _)
    have hne : e ≠ k := by
      rintro rfl
      exact h.not_below hbelow
    have hb := Path.components_eq_of_hasFilename (hway k hk hbelow)
    exact target_not_below_link hlinks hstable hinj he hk hne hb hbelow
  · cases hkfile : k.2.hasFilename with
    | true =>
      have hb := Path.components_eq_of_hasFilename hkfile
      have hne : e ≠ k := by
        rintro rfl
        rw [hfile] at hkfile
        cases hkfile
      rw [hp, List.nil_append, List.prefix_concat_iff] at htarget
      rcases htarget with heq | hbelow
      · exact target_not_above hlinks hstable hinj he hk hne hb ⟨[['.']], by rw [hb, heq]⟩
      · exact target_not_below hlinks hstable hinj he hk hne hb (hb ▸ hbelow)
    | false =>
      -- an empty element stands at the end of one list only
      have hmem := htarget.subset (Path.nil_mem_parts (hroot k hk) hkfile)
      rw [hp] at hmem
      simp [Path.components] at hmem

/-- No target has a separator at its end: nothing would be found for one that the fewest links lead to. -/
private theorem hasFilename_of_stable (hinj : ∀ e ∈ r.symlinks, ∀ e' ∈ r.symlinks, e.1.parts = e'.1.parts → e = e')
    (j : Nat) :
    ∀ e ∈ r.symlinks, RootLink.Depth fs e j → e.2.hasFilename = true := by
  induction j using Nat.strong_induction_on with
  | _ j ih =>
    intro e he hj
    by_contra hfile
    rw [Bool.not_eq_true] at hfile
    have h := hlinks e he
    have hnil : ∀ s ∈ ([] : List (List Char)), s ≠ [] ∧ '/' ∉ s := nofun
    have hp := Path.parts_append_dotted h.isAbsolute hnil
    have hexists : (fs.unlimitedQueries cwd).existsAt (e.2 / Path.dotted []) = .ok true :=
      existsAt_dotted h.isAbsolute hnil h.isDirectory
    -- fewer links lead to the target of a symlink on the way
    have hway : ∀ k ∈ r.symlinks, k.1.parts <+: e.2.components → k.2.hasFilename = true := by
      intro k hk hbelow
      obtain ⟨i, hi⟩ := (hlinks k hk).exists_depth
      exact ih i (h.depth_lt (hlinks k hk) hj hi hbelow) k hk hi
    have hnone := candidate_eq_none_of_separator hlinks hstable hinj he hfile hway
    have hnext : r.successors (fs.unlimitedQueries cwd) (e.2 / Path.dotted []) = .ok [] := by
      rw [SymlinkResolver.successors_of_not_isSymlink (isSymlink_of_dot h.isAbsolute hp hexists), hnone]
      rfl
    obtain ⟨turns, hturns⟩ := hstable _ (Path.isAbsolute_join h.isAbsolute _) hexists
    obtain ⟨names, hnames, -, hclosed⟩ := hturns (turns + 1) (by omega)
    have hsingle : r.resolveSymlinks (fs.unlimitedQueries cwd) (turns + 1) (e.2 / Path.dotted []) =
      .ok [e.2 / Path.dotted []] := WorkList.loop_of_nil hnext turns
    rw [hsingle] at hnames
    obtain rfl := Except.ok.inj hnames
    -- the name below the symlink is missing
    obtain ⟨hrel, hne, -⟩ := Path.parts_dotted hnil
    have hlink := (hclosed e he _ hrel hne).1 (List.mem_singleton.2 rfl)
    have hparts := List.mem_singleton.1 hlink
    rw [hp, Path.parts_append_dotted h.isAbsolute_link hnil, List.append_cancel_right_eq] at hparts
    exact h.not_below (by rw [← hparts, h.components_link])

/-- No end of a root symlink lies below another one. -/
private theorem apart_of_stable (hinj : ∀ e ∈ r.symlinks, ∀ e' ∈ r.symlinks, e.1.parts = e'.1.parts → e = e') :
    Apart r.symlinks := by
  have hfile : ∀ e ∈ r.symlinks, e.2.hasFilename = true := by
    intro e he
    obtain ⟨j, hj⟩ := (hlinks e he).exists_depth
    exact hasFilename_of_stable hlinks hstable hinj j e he hj
  have hcomponents : ∀ e ∈ r.symlinks, e.2.components = e.2.parts :=
    fun e he => Path.components_eq_of_hasFilename (hfile e he)
  have hlink : ∀ e ∈ r.symlinks, ∀ e' ∈ r.symlinks, ¬ e'.1.parts <+: e.2.parts := by
    intro e he k hk hbelow
    rw [← hcomponents e he] at hbelow
    by_cases hne : e = k
    · exact (hlinks e he).not_below (hne ▸ hbelow)
    · exact target_not_below_link hlinks hstable hinj he hk hne (hcomponents k hk) hbelow
  refine ⟨hfile, ?_⟩
  intro e he e' he' a b a' b' hends hends' hsub
  have hpre := (isSubPath_iff _ _).1 hsub
  rcases hends with rfl | rfl <;> rcases hends' with rfl | rfl
  · -- two targets
    by_cases hne : (a, b) = (a', b')
    · exact ⟨hne, congrArg Prod.snd hne⟩
    · refine absurd ?_ (target_not_above hlinks hstable hinj he he' hne (hcomponents _ he'))
      rw [hcomponents _ he, hcomponents _ he']
      exact hpre
  · -- a target above a symlink
    have hroot := filenames_ne_nil_of_stable hlinks hstable he
    have hbelow := (hlinks _ he').below_of_prefixes (hlinks _ he).isAbsolute hroot (List.prefix_refl _)
      (hcomponents _ he ▸ hpre)
    exact absurd (hcomponents _ he ▸ hbelow) (hlink _ he _ he')
  · exact absurd hpre (hlink _ he' _ he)
  · -- two symlinks
    by_cases hne : (b, a) = (b', a')
    · exact ⟨hne, congrArg Prod.fst hne⟩
    · obtain ⟨rest, hrest⟩ := hpre
      refine absurd ?_ (link_ne_link hlinks hinj he he' hne rest)
      rw [(hlinks _ he).components_link, (hlinks _ he').components_link]
      exact hrest

/-- What the texts of symlinks lead to is in the set, and so are the names that go with it. -/
private theorem textsPaired_of_stable (hapart : Apart r.symlinks) :
    (fs.unlimitedQueries cwd).TextsPaired r.symlinks := by
  constructor
  · intro p n habs hexists hfollows
    obtain ⟨turns, hturns⟩ := hstable p habs hexists
    obtain ⟨names, hnames, -, -⟩ := hturns turns le_rfl
    obtain ⟨m, hm, hparts⟩ := List.mem_map.1 (contains_of_follows hnames hfollows)
    obtain ⟨as, has, -⟩ := successors_of_mem hnames hm
    obtain ⟨b, hb⟩ := (SymlinkResolver.successors_eq_ok has).1
    refine ⟨b, ?_⟩
    rw [← hb]
    change (fs.unlimitedStat cwd false n).map _ = (fs.unlimitedStat cwd false m).map _
    rw [unlimitedStat_congr hparts]
  · intro p n habs hexists hfollows hmissing e he a b rest hends hrel hne hparts
    obtain ⟨turns, hturns⟩ := hstable p habs hexists
    obtain ⟨names, hnames, -, hclosed⟩ := hturns turns le_rfl
    have hn : Contains names (b / rest) := by
      rw [Contains, ← hparts]
      exact contains_of_follows hnames hfollows
    have hother : Contains names (a / rest) := by
      rcases hends with rfl | rfl
      · exact (hclosed _ he rest hrel hne).1 hn
      · exact (hclosed _ he rest hrel hne).2 hn
    obtain ⟨m, hm, hmparts⟩ := List.mem_map.1 hother
    refine ⟨m, (reached_of_mem hapart hlinks habs hexists hnames m hm).resolve_left ?_, hmparts⟩
    -- both names or neither of them lead to a file
    rintro ⟨-, hmexists, -⟩
    obtain ⟨loc, hleads⟩ := existsAt_unlimited_iff.1 hmexists
    obtain ⟨ha, hb⟩ := (hlinks e he).isAbsolute_of_ends hends
    rw [Path.parts_append ha hrel hne] at hmparts
    rw [Path.parts_append hb hrel hne] at hparts
    have hrest := (Path.parts_ne_of_relative hrel hne).1
    exact hmissing (existsAt_unlimited_iff.2 ⟨loc, (hlinks e he).leads_other hends.symm hrest hmparts hparts hleads⟩)

end Stable

/-- For every path the set of aliases is returned, is the same for every order of the map, and has both names below each
root symlink or none of them exactly when no end of a root symlink lies below another one and the names that the texts
of symlinks lead to come in pairs. -/
theorem aliasesStable_iff (fs : LinkedFiles) (cwd : Location (List Char)) {r : SymlinkResolver}
    (hr : fs.Resolves (fs.unlimitedStat cwd) cwd (.ofString "/") r) :
    (∀ p, p.isAbsolute = true → (fs.unlimitedQueries cwd).existsAt p = .ok true → fs.AliasesStable cwd r p) ↔
      Apart r.symlinks ∧ (fs.unlimitedQueries cwd).TextsPaired r.symlinks := by
  have hlinks : ∀ e ∈ r.symlinks, fs.RootLink e := fun e he => rootLink_of_mem hr he
  constructor
  · intro hstable
    obtain ⟨names, -, hnodup, -⟩ := rootSymlink_of_mem hr
    have hinj : ∀ e ∈ r.symlinks, ∀ e' ∈ r.symlinks, e.1.parts = e'.1.parts → e = e' :=
      fun e he e' he' => List.inj_on_of_nodup_map hnodup he he'
    have hapart := apart_of_stable hlinks hstable hinj
    exact ⟨hapart, textsPaired_of_stable hlinks hstable hapart⟩
  · rintro ⟨hapart, htexts⟩ p habs hexists
    exact aliasesStable_of_apart hlinks hapart htexts habs hexists

/-- The directory `/t` with the file `/t/f`, and the symlinks `/a` and `/b` to it. -/
def sharedTargetEntries : List (Location (List Char) × FileEntry) :=
  [([['t']], .directory), ([['f'], ['t']], .regular 1), ([['a']], .symlink (.ofString "/t")),
    ([['b']], .symlink (.ofString "/t"))]

def sharedTarget : LinkedFiles := ofEntries 100 sharedTargetEntries (by decide)

def sharedLinks : List (Path × Path) := [(.ofString "/a", .ofString "/t"), (.ofString "/b", .ofString "/t")]

private theorem resolves_sharedTarget :
    sharedTarget.Resolves (sharedTarget.unlimitedStat []) [] (.ofString "/") ⟨sharedLinks⟩ := by
  have hentry : ∀ n ∈ [['t'], ['a'], ['b']],
      sharedTarget.unlimitedStat [] false (.ofString "/" / (⟨n⟩ : Path)) = .ok (some [n]) := by
    intro n hn
    have hkernel : sharedTarget.stat [] false (.ofString "/" / (⟨n⟩ : Path)) = .ok (some [n]) := by
      revert n
      decide
    exact unlimitedStat_of_stat hkernel
  have htarget : sharedTarget.unlimitedStat [] true (.ofString "/t") = .ok (some [['t']]) :=
    unlimitedStat_of_stat (by decide)
  have hnames : namesIn sharedTargetEntries [] = [['t'], ['a'], ['b']] := by decide
  refine ⟨_, ⟨by decide, [], unlimitedStat_of_stat (by decide), fun _ => mem_namesIn⟩, _, ?_, .refl _⟩
  rw [hnames, populateSymlinks, List.foldlM_cons, populateStep_of_file (hentry _ (by decide)) (by decide),
    Except.ok_bind, List.foldlM_cons,
    populateStep_of_symlink (hentry _ (by decide)) (by decide) (by decide) htarget (by decide), Except.ok_bind,
    List.foldlM_cons, populateStep_of_symlink (hentry _ (by decide)) (by decide) (by decide) htarget (by decide)]
  decide

theorem aliasesStable_sharedTarget :
    (∀ p, p.isAbsolute = true → (sharedTarget.unlimitedQueries []).existsAt p = .ok true →
      sharedTarget.AliasesStable [] ⟨sharedLinks⟩ p) ↔
    Apart sharedLinks ∧ (sharedTarget.unlimitedQueries []).TextsPaired sharedLinks :=
  aliasesStable_iff sharedTarget [] resolves_sharedTarget

/-- The file `/t/f` is returned with the name below that symlink only which comes first in the map. -/
theorem resolveSymlinks_shared_target :
    sharedTarget.Resolves (sharedTarget.unlimitedStat []) [] (.ofString "/") ⟨sharedLinks⟩ ∧
    (sharedTarget.unlimitedQueries []).existsAt (.ofString "/t/f") = .ok true ∧
    (∀ fuel, SymlinkResolver.resolveSymlinks (sharedTarget.unlimitedQueries []) ⟨sharedLinks⟩ (fuel + 3)
      (.ofString "/t/f") = .ok [.ofString "/t/f", .ofString "/a/f"]) ∧
    (∀ fuel, SymlinkResolver.resolveSymlinks (sharedTarget.unlimitedQueries []) ⟨sharedLinks.reverse⟩ (fuel + 3)
      (.ofString "/t/f") = .ok [.ofString "/t/f", .ofString "/b/f"]) ∧
    ¬ sharedTarget.AliasesStable [] ⟨sharedLinks⟩ (.ofString "/t/f") := by
  have hexists : (sharedTarget.unlimitedQueries []).existsAt (.ofString "/t/f") = .ok true :=
    existsAt_queries_iff.2 ⟨[['f'], ['t']], unlimitedStat_of_stat (by decide)⟩
  have hfile : (sharedTarget.unlimitedQueries []).isSymlink (.ofString "/t/f") = .ok false := by
    have hstat : sharedTarget.unlimitedStat [] false (.ofString "/t/f") = .ok (some [['f'], ['t']]) :=
      unlimitedStat_of_stat (by decide)
    have hregular : sharedTarget.isSymlinkAt [['f'], ['t']] = false := by decide
    simp [unlimitedQueries, queries, hstat, Except.map, hregular]
  have hfirst : ∀ fuel, SymlinkResolver.resolveSymlinks (sharedTarget.unlimitedQueries []) ⟨sharedLinks⟩ (fuel + 3)
      (.ofString "/t/f") = .ok [.ofString "/t/f", .ofString "/a/f"] := by
    intro fuel
    have hlink := rootLink_of_mem resolves_sharedTarget (e := (.ofString "/a", .ofString "/t")) (by decide)
    exact (resolveSymlinks_withFirst ⟨sharedLinks⟩ hlink (by decide) (by decide) (by decide) (List.cons_ne_nil ['f'] [])
      (by decide) hexists hfile fuel).1
  have hsecond : ∀ fuel, SymlinkResolver.resolveSymlinks (sharedTarget.unlimitedQueries []) ⟨sharedLinks.reverse⟩
      (fuel + 3) (.ofString "/t/f") = .ok [.ofString "/t/f", .ofString "/b/f"] := by
    intro fuel
    have hlink := rootLink_of_mem resolves_sharedTarget (e := (.ofString "/b", .ofString "/t")) (by decide)
    exact (resolveSymlinks_withFirst ⟨sharedLinks⟩ hlink (by decide) (by decide) (by decide) (List.cons_ne_nil ['f'] [])
      (by decide) hexists hfile fuel).1
  refine ⟨resolves_sharedTarget, hexists, hfirst, hsecond, ?_⟩
  rintro ⟨turns, hturns⟩
  obtain ⟨names, hnames, -, hclosed⟩ := hturns (turns + 3) (by omega)
  rw [hfirst] at hnames
  obtain rfl := Except.ok.inj hnames
  -- below `/b` there is no name in the set
  have hb := hclosed (.ofString "/b", .ofString "/t") (by decide) (.ofString "f") (by decide) (by decide)
  exact absurd (hb.1 (by decide)) (by decide)

end LinkedFiles

end R4R
