import Mathlib.Data.Set.Finite.List
import R4R.Lib.Except
import R4R.Lib.WorkList
import R4R.SubPath

/-!
# Aliases of a path

`SymlinkResolver::resolve_symlinks` collects names of one file: it replaces a root symlink by its target or a target by
its root symlink where the other name is there and is the same file, and follows the path itself when it is a symlink.
The names are kept in a work list, which runs empty because only finitely many names can be looked up
(`resolveSymlinks_terminates`).
-/

namespace R4R

namespace Path

/-- `path::lexically_relative`. -/
def lexicallyRelative (p base : Path) : Path :=
  if p.isAbsolute ≠ base.isAbsolute then ⟨[]⟩
  else
    let (a, b) := mismatch p.parts base.parts
    if a.isEmpty && b.isEmpty then ⟨['.']⟩
    else
      let n : Int := b.foldl (fun n elem =>
        if elem = ['.', '.'] then n - 1 else if elem ≠ [] ∧ elem ≠ ['.'] then n + 1 else n) 0
      if n = 0 ∧ (a.isEmpty ∨ a.head? = some []) then ⟨['.']⟩
      else if 0 ≤ n then
        let up := (List.replicate n.toNat (⟨['.', '.']⟩ : Path)).foldl append ⟨[]⟩
        a.foldl (fun ret elem => append ret ⟨elem⟩) up
      else ⟨[]⟩

example : (ofString "/usr/lib/R").lexicallyRelative (ofString "/usr") = ofString "lib/R" := by decide

end Path

/-- What `std::filesystem` answers about names; the overloads with an error code say no on an error. -/
structure FileQueries where
  /-- `fs::exists` -/
  existsAt : Path → Except String Bool
  /-- `fs::equivalent` -/
  equivalent : Path → Path → Except String Bool
  /-- `fs::is_symlink` -/
  isSymlink : Path → Except String Bool
  /-- `fs::read_symlink` -/
  readSymlink : Path → Except String Path
  /-- `fs::is_regular_file` -/
  isRegularFile : Path → Except String Bool
  /-- `fs::is_directory` -/
  isDirectory : Path → Except String Bool
  /-- whether a `directory_iterator` can be made -/
  canIterate : Path → Bool
  /-- whether an `ifstream` opens the file -/
  canOpen : Path → Bool
  /-- `fs::absolute` -/
  absolute : Path → Except String Path

/-- The overload with an error code. -/
def orFalse : Except String Bool → Bool
  | .ok b => b
  | .error _ => false

theorem orFalse_eq_true {r : Except String Bool} : orFalse r = true ↔ r = .ok true := by
  cases r with
  | ok b => simp [orFalse]
  | error what => simp [orFalse]

/-- `SymlinkResolver`: the map `symlinks_`, in its iteration order. -/
structure SymlinkResolver where
  symlinks : List (Path × Path)

namespace SymlinkResolver

variable (q : FileQueries)

/-- The lambda `test`: the name of the file `p` below `a` instead of `b`, if it is one. -/
def test (p a b : Path) : Option Path :=
  if isSubPath p b then
    let candidate := a / p.lexicallyRelative b
    if orFalse (q.existsAt candidate) && orFalse (q.equivalent candidate p) then some candidate else none
  else none

/-- The loop over `symlinks_`, which ends with the first name that is found. -/
def candidate (r : SymlinkResolver) (p : Path) : Option Path :=
  r.symlinks.findSome? fun (symlink, target) => (test q p symlink target).orElse fun _ => test q p target symlink

/-- What the loop of `resolve_symlinks` pushes when it visits a path. -/
def successors (r : SymlinkResolver) (p : Path) : Except String (List Path) := do
  let names := (r.candidate q p).toList
  if ← q.isSymlink p then return names ++ [← q.readSymlink p] else return names

/-- `SymlinkResolver::resolve_symlinks`, in the order in which the paths are inserted. -/
def resolveSymlinks (r : SymlinkResolver) (fuel : Nat) (path : Path) : Except (WorkList.Failure String) (List Path) :=
  WorkList.loop Path.parts (r.successors q) fuel [] [path]

end SymlinkResolver

namespace FileQueries

/-- A name that can be looked up, with or without following a symlink at its end. -/
def Found (q : FileQueries) (p : Path) : Prop := q.existsAt p = .ok true ∨ q.isSymlink p = .ok true

/-- The status queries do not throw. -/
structure NoThrow (q : FileQueries) : Prop where
  isSymlink : ∀ p, ∃ b, q.isSymlink p = .ok b
  isRegularFile : ∀ p, ∃ b, q.isRegularFile p = .ok b
  readSymlink : ∀ p, q.isSymlink p = .ok true → ∃ t, q.readSymlink p = .ok t

end FileQueries

namespace SymlinkResolver

variable {q : FileQueries}

/-- The name is there, and it is a name of the same file. -/
theorem test_eq_some_iff {p a b c : Path} : test q p a b = some c ↔
    b.parts <+: p.parts ∧ a / p.lexicallyRelative b = c ∧ q.existsAt c = .ok true ∧ q.equivalent c p = .ok true := by
  rw [← isSubPath_iff]
  unfold test
  by_cases hsub : isSubPath p b = true
  · rw [if_pos hsub]
    dsimp only
    split
    · rename_i hc
      simp only [Bool.and_eq_true, orFalse_eq_true] at hc
      simp only [Option.some.injEq, hsub, true_and]
      constructor
      · rintro rfl
        exact ⟨rfl, hc⟩
      · exact fun h => h.1
    · rename_i hc
      simp only [Bool.and_eq_true, orFalse_eq_true] at hc
      simp only [hsub, true_and, reduceCtorEq, false_iff, not_and]
      rintro rfl hex hequiv
      exact hc ⟨hex, hequiv⟩
  · simp [hsub]

/-- A candidate is a name below one end of a symlink instead of the other. -/
theorem test_of_candidate {r : SymlinkResolver} {p c : Path} (h : r.candidate q p = some c) :
    ∃ e ∈ r.symlinks, test q p e.1 e.2 = some c ∨ test q p e.2 e.1 = some c := by
  obtain ⟨e, hmem, he⟩ := List.exists_of_findSome?_eq_some h
  refine ⟨e, hmem, ?_⟩
  cases htest : test q p e.1 e.2 with
  | some c' =>
    simp only [htest, Option.orElse_some, Option.some.injEq] at he
    exact .inl (congrArg some he)
  | none =>
    simp only [htest, Option.orElse_none] at he
    exact .inr he

private theorem existsAt_of_candidate {r : SymlinkResolver} {p c : Path} (h : r.candidate q p = some c) :
    q.existsAt c = .ok true := by
  obtain ⟨e, -, htest | htest⟩ := test_of_candidate h
  · exact (test_eq_some_iff.1 htest).2.2.1
  · exact (test_eq_some_iff.1 htest).2.2.1

/-- What is pushed: the candidate, and the text of a symlink. -/
theorem successors_eq_ok {r : SymlinkResolver} {p : Path} {names : List Path} (h : r.successors q p = .ok names) :
    (∃ b, q.isSymlink p = .ok b) ∧ names.length ≤ 2 ∧
      ∀ c, c ∈ names ↔ r.candidate q p = some c ∨ q.isSymlink p = .ok true ∧ q.readSymlink p = .ok c := by
  have hlen : (r.candidate q p).toList.length ≤ 1 := by cases r.candidate q p <;> simp
  unfold successors at h
  obtain ⟨b, hb, h⟩ := Except.bind_eq_ok h
  cases b with
  | false =>
    obtain rfl := Except.ok.inj h
    refine ⟨⟨false, hb⟩, by omega, fun c => ?_⟩
    simp [hb]
  | true =>
    obtain ⟨text, htext, h⟩ := Except.bind_eq_ok h
    obtain rfl := Except.ok.inj h
    refine ⟨⟨true, hb⟩, by simp, fun c => ?_⟩
    simp [hb, htext, eq_comm]

/-- The successors are found when the status and the text of the name are. -/
theorem exists_successors (r : SymlinkResolver) {p : Path} (hsymlink : ∃ b, q.isSymlink p = .ok b)
    (htext : q.isSymlink p = .ok true → ∃ t, q.readSymlink p = .ok t) : ∃ names, r.successors q p = .ok names := by
  obtain ⟨b, hb⟩ := hsymlink
  unfold successors
  rw [hb]
  cases b with
  | false => exact ⟨_, rfl⟩
  | true =>
    obtain ⟨t, ht⟩ := htext hb
    rw [ht]
    exact ⟨_, rfl⟩

/-- The names that the work list can hold: the path, what can be looked up, and the texts of the symlinks there. -/
def MayVisit (q : FileQueries) (path p : Path) : Prop :=
  p = path ∨ q.Found p ∨ ∃ link, q.Found link ∧ q.readSymlink link = .ok p

private theorem mayVisit_of_mem_successors {r : SymlinkResolver} {p : Path} {names : List Path}
    (h : r.successors q p = .ok names) (path : Path) : ∀ c ∈ names, MayVisit q path c := by
  intro c hc
  rcases ((successors_eq_ok h).2.2 c).1 hc with hcandidate | ⟨hsymlink, htext⟩
  · exact .inr (.inl (.inl (existsAt_of_candidate hcandidate)))
  · exact .inr (.inr ⟨p, .inr hsymlink, htext⟩)

/-- An exception is one of a status query. -/
private theorem successors_eq_error {r : SymlinkResolver} {p : Path} {what : String}
    (h : r.successors q p = .error what) :
    q.isSymlink p = .error what ∨ q.isSymlink p = .ok true ∧ q.readSymlink p = .error what := by
  unfold successors at h
  cases hb : q.isSymlink p with
  | error e =>
    rw [hb] at h
    cases h
    exact .inl rfl
  | ok b =>
    rw [hb] at h
    cases b with
    | false => cases h
    | true =>
      cases ht : q.readSymlink p with
      | ok t =>
        rw [ht] at h
        cases h
      | error e =>
        rw [ht] at h
        cases h
        exact .inr ⟨rfl, rfl⟩

/-- Besides the path, the keys of the names that the work list can hold are in a finite set. -/
private theorem exists_keys (hfinite : {p | q.Found p}.Finite) : ∃ keys : Finset (List (List Char)),
    ∀ path p, MayVisit q path p → p.parts ∈ insert path.parts keys := by
  obtain ⟨found, hfound⟩ := hfinite.exists_finset_coe
  have hmem : ∀ p, q.Found p → p ∈ found := fun p hp => by
    rw [← Finset.mem_coe, hfound]
    exact hp
  let text : Path → Path := fun p => match q.readSymlink p with
    | .ok t => t
    | .error _ => p
  refine ⟨(found ∪ found.image text).image Path.parts, fun path p hp => ?_⟩
  rcases hp with rfl | hp | ⟨link, hlink, htext⟩
  · exact Finset.mem_insert_self ..
  · exact Finset.mem_insert_of_mem (Finset.mem_image_of_mem _ (Finset.mem_union_left _ (hmem p hp)))
  · have hp : text link = p := by simp only [text, htext]
    refine Finset.mem_insert_of_mem (Finset.mem_image_of_mem _ (Finset.mem_union_right _ ?_))
    rw [← hp]
    exact Finset.mem_image_of_mem _ (hmem link hlink)

/-- Where only finitely many names can be looked up the work list runs empty, or a query throws, after a number of
turns that does not depend on the path. -/
private theorem resolveSymlinks_ne_outOfFuel (hfinite : {p | q.Found p}.Finite) (r : SymlinkResolver) :
    ∃ turns, ∀ fuel, turns ≤ fuel → ∀ path, r.resolveSymlinks q fuel path ≠ .error .outOfFuel := by
  obtain ⟨keys, hkeys⟩ := exists_keys hfinite
  refine ⟨3 * (keys.card + 1) + 1, fun fuel hfuel path => ?_⟩
  have hcard : (insert path.parts keys).card ≤ keys.card + 1 := Finset.card_insert_le _ _
  refine WorkList.loop_ends (m := 2) (hkeys path) (fun p names _ hnames => ?_) ?_ (by simp; omega)
  · exact ⟨(successors_eq_ok hnames).2.1, mayVisit_of_mem_successors hnames path⟩
  · exact List.forall_mem_singleton.2 (.inl rfl)

/-- An exception that leaves the loop is one of a status query. -/
private theorem exists_of_resolveSymlinks_raised {r : SymlinkResolver} {fuel : Nat} {path : Path} {what : String}
    (h : r.resolveSymlinks q fuel path = .error (.raised what)) : ∃ p, MayVisit q path p ∧
      (q.isSymlink p = .error what ∨ q.isSymlink p = .ok true ∧ q.readSymlink p = .error what) := by
  obtain ⟨p, hvisit, hp⟩ := WorkList.exists_of_loop_raised (I := MayVisit q path)
    (fun _ _ _ hnames => mayVisit_of_mem_successors hnames path) fuel (List.forall_mem_singleton.2 (.inl rfl)) h
  exact ⟨p, hvisit, successors_eq_error hp⟩

/-- The loop ends with one outcome, however much longer it may run: the names, among them the path, or an exception
of a status query. -/
theorem resolveSymlinks_ends (hfinite : {p | q.Found p}.Finite) (r : SymlinkResolver) : ∃ turns, ∀ path, ∃ outcome,
    (∀ fuel, turns ≤ fuel → r.resolveSymlinks q fuel path = outcome) ∧
      ((∃ names, outcome = .ok names ∧ path ∈ names) ∨
        ∃ what p, outcome = .error (.raised what) ∧ MayVisit q path p ∧
          (q.isSymlink p = .error what ∨ q.isSymlink p = .ok true ∧ q.readSymlink p = .error what)) := by
  obtain ⟨turns, hturns⟩ := resolveSymlinks_ne_outOfFuel hfinite r
  refine ⟨turns, fun path => ⟨r.resolveSymlinks q turns path, fun fuel hfuel => ?_, ?_⟩⟩
  · obtain ⟨k, rfl⟩ := Nat.exists_eq_add_of_le hfuel
    exact WorkList.loop_add turns k rfl (hturns turns (Nat.le_refl _) path)
  · cases h : r.resolveSymlinks q turns path with
    | ok names => exact .inl ⟨names, rfl, WorkList.mem_of_loop_singleton h⟩
    | error e =>
      cases e with
      | outOfFuel => exact absurd h (hturns turns (Nat.le_refl _) path)
      | raised what =>
        obtain ⟨p, hp⟩ := exists_of_resolveSymlinks_raised h
        exact .inr ⟨what, p, rfl, hp⟩

/-- Two symlinks to each other. -/
def cyclicLinks : FileQueries where
  existsAt := fun p => if p.native = "/a".toList ∨ p.native = "/b".toList
    then .error "Too many levels of symbolic links" else .ok (p.native == "/".toList)
  equivalent := fun p p' => .ok (p == p')
  isSymlink := fun p => .ok (p.native == "/a".toList || p.native == "/b".toList)
  readSymlink := fun p => if p.native = "/a".toList then .ok (.ofString "/b")
    else if p.native = "/b".toList then .ok (.ofString "/a") else .error "Invalid argument"
  isRegularFile := fun _ => .ok false
  isDirectory := fun p => .ok (p.native == "/".toList)
  canIterate := fun p => p.native == "/".toList
  canOpen := fun _ => false
  absolute := .ok

private theorem finite_found_cyclicLinks : {p | cyclicLinks.Found p}.Finite := by
  have hfinite : ({⟨"/".toList⟩, ⟨"/a".toList⟩, ⟨"/b".toList⟩} : Set Path).Finite := Set.toFinite _
  refine hfinite.subset ?_
  rintro ⟨name⟩ (h | h)
  · simp only [cyclicLinks] at h
    split at h
    · cases h
    · exact .inl (congrArg _ (beq_iff_eq.1 (Except.ok.inj h)))
  · simp only [cyclicLinks, Except.ok.injEq, Bool.or_eq_true, beq_iff_eq] at h
    exact .inr (h.imp (congrArg _) (congrArg _))

theorem resolveSymlinks_ends_cyclicLinks : ∃ turns, ∀ path, ∃ outcome,
    (∀ fuel, turns ≤ fuel → (⟨[]⟩ : SymlinkResolver).resolveSymlinks cyclicLinks fuel path = outcome) ∧
      ((∃ names, outcome = .ok names ∧ path ∈ names) ∨
        ∃ what p, outcome = .error (.raised what) ∧ MayVisit cyclicLinks path p ∧
          (cyclicLinks.isSymlink p = .error what ∨
            cyclicLinks.isSymlink p = .ok true ∧ cyclicLinks.readSymlink p = .error what)) :=
  resolveSymlinks_ends finite_found_cyclicLinks ⟨[]⟩

example : (⟨[]⟩ : SymlinkResolver).resolveSymlinks cyclicLinks 3 (.ofString "/a") =
    .ok [.ofString "/a", .ofString "/b"] := by decide

/-- Where no query throws the loop returns the names. -/
theorem resolveSymlinks_terminates (hq : q.NoThrow) (hfinite : {p | q.Found p}.Finite) (r : SymlinkResolver) :
    ∃ turns, ∀ fuel, turns ≤ fuel → ∀ path, ∃ names, r.resolveSymlinks q fuel path = .ok names := by
  obtain ⟨turns, hturns⟩ := resolveSymlinks_ne_outOfFuel hfinite r
  refine ⟨turns, fun fuel hfuel path => ?_⟩
  cases h : r.resolveSymlinks q fuel path with
  | ok names => exact ⟨names, rfl⟩
  | error e =>
    cases e with
    | outOfFuel => exact absurd h (hturns fuel hfuel path)
    | raised what =>
      obtain ⟨p, -, hp | ⟨hsymlink, hp⟩⟩ := exists_of_resolveSymlinks_raised h
      · obtain ⟨b, hb⟩ := hq.isSymlink p
        rw [hp] at hb
        cases hb
      · obtain ⟨t, ht⟩ := hq.readSymlink p hsymlink
        rw [hp] at ht
        cases ht

/-- The paths that `resolve_symlinks` returns. -/
def Alias (q : FileQueries) (r : SymlinkResolver) (path name : Path) : Prop :=
  ∃ fuel names, r.resolveSymlinks q fuel path = .ok names ∧ name ∈ names

end SymlinkResolver

/-- File systems with a bound on the length of the names that can be looked up: `PATH_MAX`. -/
structure PosixFiles extends FileQueries where
  pathMax : Nat
  length_le : ∀ p, toFileQueries.Found p → p.native.length ≤ pathMax

private theorem finite_char : Finite Char :=
  Finite.of_injective (fun c : Char => (⟨c.val.toNat, c.val.toNat_lt⟩ : Fin (2 ^ 32))) fun _ _ h =>
    Char.ext (UInt32.toNat_inj.1 (Fin.mk.inj h))

theorem Path.finite_length_le (n : Nat) : {p : Path | p.native.length ≤ n}.Finite := by
  have := finite_char
  have htexts := (List.finite_length_le Char n).image fun text => (⟨text⟩ : Path)
  exact htexts.subset fun p hp => ⟨p.native, hp, rfl⟩

/-- Only finitely many names can be looked up. -/
theorem PosixFiles.finite_found (q : PosixFiles) : {p | q.toFileQueries.Found p}.Finite :=
  (Path.finite_length_le q.pathMax).subset fun p hp => q.length_le p hp

end R4R
