import R4R.PathJoin
import R4R.RootSymlinks

/-!
# Are aliases names of the same file?

What `resolve_symlinks` collects for an absolute path: a name below another end of a root symlink is compared with the
path before it is kept, but the text of a symlink is taken as it stands, although the kernel looks a relative text up in
the directory of the symlink.  So all names are absolute and lead to the file of the path exactly when the texts of the
symlinks that lead there are absolute (`resolveSymlinks_sound_iff`).
-/

namespace R4R

open FileTree

namespace LinkedFiles

variable (fs : LinkedFiles) (cwd : Location (List Char))

/-- The answers of the kernel to a process in the directory `cwd`. -/
def kernelQueries : FileQueries := fs.queries (fs.stat cwd) cwd

/-- Both names lead to one file. -/
def SameFile (p p' : Path) : Prop :=
  ∃ loc loc', fs.stat cwd true p = .ok (some loc) ∧ fs.stat cwd true p' = .ok (some loc') ∧ fs.sameFile loc loc' = true

/-- For the path a set is returned, and all names in it are absolute and lead to the file of the path. -/
def AliasesSound (r : SymlinkResolver) (p : Path) : Prop :=
  ∃ turns, ∀ fuel, turns ≤ fuel → ∃ names, r.resolveSymlinks (fs.kernelQueries cwd) fuel p = .ok names ∧
    ∀ n ∈ names, n.isAbsolute = true ∧ fs.SameFile cwd n p

variable {fs cwd} {p p' p'' : Path} {r : SymlinkResolver} {root : Path}

private theorem SameFile.symm (h : fs.SameFile cwd p p') : fs.SameFile cwd p' p := by
  obtain ⟨loc, loc', hp, hp', hsame⟩ := h
  exact ⟨loc', loc, hp', hp, sameFile_symm hsame⟩

private theorem SameFile.trans (h : fs.SameFile cwd p p') (h' : fs.SameFile cwd p' p'') : fs.SameFile cwd p p'' := by
  obtain ⟨loc, loc₁, hp, hp₁, hsame⟩ := h
  obtain ⟨loc₂, loc', hp₂, hp'', hsame'⟩ := h'
  rw [hp₁] at hp₂
  cases hp₂
  exact ⟨loc, loc', hp, hp'', sameFile_trans hsame hsame'⟩

private theorem sameFile_of_equivalent (h : (fs.kernelQueries cwd).equivalent p p' = .ok true) :
    fs.SameFile cwd p p' := by
  change fs.equivalentOf (fs.stat cwd) p p' = .ok true at h
  unfold equivalentOf at h
  split at h
  · rename_i loc loc' hp hp'
    exact ⟨loc, loc', hp, hp', Except.ok.inj h⟩
  all_goals cases h

/-- A candidate is an absolute name of the file. -/
private theorem sound_of_candidate (hroot : root.isAbsolute = true) (hr : fs.Resolves (fs.stat cwd) cwd root r)
    {c : Path} (h : r.candidate (fs.kernelQueries cwd) p = some c) :
    c.isAbsolute = true ∧ fs.SameFile cwd c p := by
  have hends := fun e he => isAbsolute_of_mem (e := e) (fun _ _ _ => leads_of_stat) hroot hr he
  have htest : ∀ a b : Path, a.isAbsolute = true → b.isAbsolute = true →
      SymlinkResolver.test (fs.kernelQueries cwd) p a b = some c → c.isAbsolute = true ∧ fs.SameFile cwd c p := by
    intro a b ha hb h
    obtain ⟨-, -, habs, -, -, hequiv⟩ := SymlinkResolver.test_below ha hb h
    exact ⟨habs, sameFile_of_equivalent hequiv⟩
  obtain ⟨e, he, h | h⟩ := SymlinkResolver.test_of_candidate h
  · exact htest _ _ (hends e he).1 (hends e he).2 h
  · exact htest _ _ (hends e he).2 (hends e he).1 h

/-- What is pushed for an absolute name of a file, when the texts of the symlinks that lead to the file are absolute. -/
private theorem successors_sound (hroot : root.isAbsolute = true) (hr : fs.Resolves (fs.stat cwd) cwd root r)
    (htexts : ∀ link text, link.isAbsolute = true → fs.SameFile cwd link p →
      (fs.kernelQueries cwd).readSymlink link = .ok text → text.isAbsolute = true)
    {n : Path} (habs : n.isAbsolute = true) (hn : fs.SameFile cwd n p) :
    ∃ names, r.successors (fs.kernelQueries cwd) n = .ok names ∧ names.length ≤ 2 ∧
      ∀ c ∈ names, c.isAbsolute = true ∧ fs.SameFile cwd c p := by
  obtain ⟨loc, loc', hloc, hloc', hsame⟩ := hn
  obtain ⟨link, hlink⟩ := stat_false hloc
  have hsymlink : (fs.kernelQueries cwd).isSymlink n = .ok (fs.isSymlinkAt link) := by
    simp [kernelQueries, queries, hlink, Except.map]
  obtain ⟨names, hnames⟩ := SymlinkResolver.exists_successors r ⟨_, hsymlink⟩ isSymlink_queries_iff_readSymlink.1
  obtain ⟨-, hlen, hmem⟩ := SymlinkResolver.successors_eq_ok hnames
  refine ⟨names, hnames, hlen, fun c hc => ?_⟩
  rcases (hmem c).1 hc with hcandidate | ⟨-, htext⟩
  · obtain ⟨hcabs, hcn⟩ := sound_of_candidate hroot hr hcandidate
    exact ⟨hcabs, hcn.trans ⟨loc, loc', hloc, hloc', hsame⟩⟩
  · have hcabs := htexts n c habs ⟨loc, loc', hloc, hloc', hsame⟩ htext
    obtain ⟨link', hlink', hissymlink, rfl⟩ := readSymlink_queries_iff.1 htext
    rw [hlink] at hlink'
    cases hlink'
    exact ⟨hcabs, loc, loc', stat_text habs hloc hlink hissymlink hcabs, hloc', hsame⟩

/-- For every name of a file all its aliases are absolute names of that file exactly when every symlink that leads to
the file has an absolute text. -/
theorem resolveSymlinks_sound_iff (fs : LinkedFiles) (cwd : Location (List Char)) {root : Path}
    (hroot : root.isAbsolute = true) {r : SymlinkResolver} (hr : fs.Resolves (fs.stat cwd) cwd root r) (p : Path) :
    (∀ p', p'.isAbsolute = true → fs.SameFile cwd p' p → fs.AliasesSound cwd r p') ↔
      ∀ link text, link.isAbsolute = true → fs.SameFile cwd link p →
        (fs.kernelQueries cwd).readSymlink link = .ok text → text.isAbsolute = true := by
  constructor
  · intro hsound link text hlink hsame htext
    obtain ⟨turns, hturns⟩ := hsound link hlink hsame
    obtain ⟨names, hnames, hall⟩ := hturns turns le_rfl
    -- the link is visited, and so is its text
    have hclosed := (WorkList.loop_closed turns hnames).2.2 link (WorkList.mem_of_loop_singleton hnames)
    obtain ⟨as, has, hkeys⟩ := hclosed.resolve_left List.not_mem_nil
    have hmem : text ∈ as :=
      ((SymlinkResolver.successors_eq_ok has).2.2 text).2
        (.inr ⟨isSymlink_queries_iff_readSymlink.2 ⟨text, htext⟩, htext⟩)
    obtain ⟨n, hn, hparts⟩ := List.mem_map.1 (hkeys text hmem)
    rw [← Path.isAbsolute_congr hparts]
    exact (hall n hn).1
  · intro htexts p' hp' hsame
    have hfinite := (Path.finite_length_le fs.pathMax).image Path.parts
    obtain ⟨keys, hkeys⟩ := hfinite.exists_finset_coe
    have htexts' : ∀ link text, link.isAbsolute = true → fs.SameFile cwd link p' →
        (fs.kernelQueries cwd).readSymlink link = .ok text → text.isAbsolute = true :=
      fun link text hlink hlinksame => htexts link text hlink (hlinksame.trans hsame)
    have hnext : ∀ n, n.isAbsolute = true ∧ fs.SameFile cwd n p' →
        ∃ names, r.successors (fs.kernelQueries cwd) n = .ok names ∧ names.length ≤ 2 ∧
          ∀ c ∈ names, c.isAbsolute = true ∧ fs.SameFile cwd c p' :=
      fun n hn => successors_sound hroot hr htexts' hn.1 hn.2
    have hself : p'.isAbsolute = true ∧ fs.SameFile cwd p' p' := ⟨hp', hsame.trans hsame.symm⟩
    refine ⟨3 * keys.card + 1, fun fuel hfuel => ?_⟩
    have hwl : ∀ n ∈ [p'], n.isAbsolute = true ∧ fs.SameFile cwd n p' := fun n hn => List.mem_singleton.1 hn ▸ hself
    have hends : ∃ names, r.resolveSymlinks (fs.kernelQueries cwd) fuel p' = .ok names := by
      refine WorkList.loop_terminates_of_invariant (U := keys) ?_ hnext hwl hfuel
      rintro n ⟨-, loc, -, hloc, -⟩
      rw [← Finset.mem_coe, hkeys]
      exact ⟨n, (stat_eq_some.1 hloc).1.le, rfl⟩
    obtain ⟨names, hnames⟩ := hends
    refine ⟨names, hnames, WorkList.loop_invariant ?_ fuel (by simp) hwl hnames⟩
    intro n as hn has
    obtain ⟨names', hnames', -, hall⟩ := hnext n hn
    rw [hnames'] at has
    exact Except.ok.inj has ▸ hall

/-- The file `/d/f` with the symlink `/d/l` to it, the symlink `/s` to the directory, and another file `/f`. -/
def besideLinkEntries : List (Location (List Char) × FileEntry) :=
  [([['d']], .directory), ([['f'], ['d']], .regular 1), ([['l'], ['d']], .symlink (.ofString "f")),
    ([['f']], .regular 2), ([['s']], .symlink (.ofString "/d"))]

def besideLink : LinkedFiles := ofEntries 100 besideLinkEntries (by decide)

private theorem resolves_besideLink :
    besideLink.Resolves (besideLink.stat []) [] (.ofString "/") ⟨[(.ofString "/s", .ofString "/d")]⟩ := by
  refine ⟨namesIn besideLinkEntries [], ⟨by decide, [], by decide, fun _ => mem_namesIn⟩, _, ?_, .refl _⟩
  decide

theorem resolveSymlinks_sound_besideLink :
    (∀ p', p'.isAbsolute = true → besideLink.SameFile [] p' (.ofString "/f") →
      besideLink.AliasesSound [] ⟨[(.ofString "/s", .ofString "/d")]⟩ p') ↔
    ∀ link text, link.isAbsolute = true → besideLink.SameFile [] link (.ofString "/f") →
      (besideLink.kernelQueries []).readSymlink link = .ok text → text.isAbsolute = true :=
  resolveSymlinks_sound_iff besideLink [] (by decide) resolves_besideLink (.ofString "/f")

/-- Run from the root directory, the resolver takes the file `/f` for an alias of the link `/d/l`. -/
theorem resolveSymlinks_relative_text :
    besideLink.Resolves (besideLink.stat []) [] (.ofString "/") ⟨[(.ofString "/s", .ofString "/d")]⟩ ∧
    (besideLink.kernelQueries []).existsAt (.ofString "/d/l") = .ok true ∧
    SymlinkResolver.resolveSymlinks (besideLink.kernelQueries []) ⟨[(.ofString "/s", .ofString "/d")]⟩ 10
      (.ofString "/d/l") = .ok [.ofString "/d/l", .ofString "/s/l", .ofString "f"] ∧
    (Path.ofString "f").isAbsolute = false ∧ besideLink.SameFile [] (.ofString "f") (.ofString "/f") ∧
    ¬ besideLink.SameFile [] (.ofString "f") (.ofString "/d/l") := by
  refine ⟨resolves_besideLink, by decide, by decide, by decide, ⟨[['f']], [['f']], by decide, by decide, by decide⟩, ?_⟩
  rintro ⟨loc, loc', hloc, hloc', hsame⟩
  have hf : besideLink.stat [] true (.ofString "f") = .ok (some [['f']]) := by decide
  have hl : besideLink.stat [] true (.ofString "/d/l") = .ok (some [['f'], ['d']]) := by decide
  rw [hf] at hloc
  rw [hl] at hloc'
  cases hloc
  cases hloc'
  exact absurd hsame (by decide)

end LinkedFiles

end R4R
