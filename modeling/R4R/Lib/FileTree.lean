import Mathlib.Data.List.Induction

/-!
# Trees of files with symbolic links

A tree of directories, files and symbolic links over arbitrary names, the walk that looks a list of components up in it,
and the lexical normal form of a list of components, in which `..` cancels the name before it.  The normal form is
looked up like the list itself when each `..` leads back to the directory in which the name it cancels was looked up
(`walks_normalForm`).
-/

namespace FileTree

universe u

/-- A component of a path. -/
inductive Component (ν : Type u) where
  | here
  | up
  | name (n : ν)
deriving DecidableEq

/-- A place in a tree: the names that lead to it, the last one first. -/
abbrev Location (ν : Type u) := List ν

inductive Node (ν : Type u) where
  | directory
  | regular (inode : Nat)
  | symlink (absolute : Bool) (target : List (Component ν))
deriving DecidableEq

/-- A tree of files: what stands at each location, where everything stands in a directory. -/
structure LinkTree (ν : Type u) where
  node : Location ν → Option (Node ν)
  root : node [] = some .directory
  parent : ∀ n d, (node (n :: d)).isSome = true → node d = some .directory

variable {ν : Type u}

/-- Why a list of components leads nowhere. -/
inductive LookupError where
  | missing
  | notDirectory
  | loop
deriving DecidableEq

namespace LinkTree

variable (t : LinkTree ν)

def isDirectory (loc : Location ν) : Bool :=
  match t.node loc with
  | some .directory => true
  | some (.regular _) => false
  | some (.symlink _ _) => false
  | none => false

theorem isDirectory_iff {t : LinkTree ν} {loc : Location ν} :
    t.isDirectory loc = true ↔ t.node loc = some .directory := by
  unfold isDirectory
  split <;> simp_all

/-- The walk over the components up to the next symbolic link that is followed; `next` walks on from there.  A link at
the end is followed when `follow` says so. -/
def walkWith (follow : Bool) (next : Location ν → List (Component ν) → Except LookupError (Location ν)) :
    Location ν → List (Component ν) → Except LookupError (Location ν)
  | cur, [] => .ok cur
  | cur, c :: cs =>
    if t.isDirectory cur then
      match c with
      | .here => walkWith follow next cur cs
      | .up => walkWith follow next cur.tail cs
      | .name n =>
        match t.node (n :: cur) with
        | none => .error .missing
        | some .directory => walkWith follow next (n :: cur) cs
        | some (.regular _) => walkWith follow next (n :: cur) cs
        | some (.symlink absolute target) =>
          if cs.isEmpty && !follow then .ok (n :: cur) else next (if absolute then [] else cur) (target ++ cs)
    else .error .notDirectory

/-- The walk that follows at most `links` symbolic links. -/
def walk (follow : Bool) : Nat → Location ν → List (Component ν) → Except LookupError (Location ν)
  | 0 => t.walkWith follow fun _ _ => .error .loop
  | links + 1 => t.walkWith follow (walk follow links)

/-- The walk over the components from `cur` follows `k` symbolic links and ends at `loc`. -/
inductive Walks (follow : Bool) : Location ν → List (Component ν) → Nat → Location ν → Prop
  | nil (cur) : Walks follow cur [] 0 cur
  | here {cur cs k loc} (hdir : t.node cur = some .directory) (h : Walks follow cur cs k loc) :
      Walks follow cur (.here :: cs) k loc
  | up {cur cs k loc} (hdir : t.node cur = some .directory) (h : Walks follow cur.tail cs k loc) :
      Walks follow cur (.up :: cs) k loc
  | directory {cur n cs k loc} (hdir : t.node cur = some .directory) (hn : t.node (n :: cur) = some .directory)
      (h : Walks follow (n :: cur) cs k loc) : Walks follow cur (.name n :: cs) k loc
  | regular {cur n cs k loc inode} (hdir : t.node cur = some .directory)
      (hn : t.node (n :: cur) = some (.regular inode)) (h : Walks follow (n :: cur) cs k loc) :
      Walks follow cur (.name n :: cs) k loc
  | stop {cur n absolute target} (hdir : t.node cur = some .directory)
      (hn : t.node (n :: cur) = some (.symlink absolute target)) (hfollow : follow = false) :
      Walks follow cur [.name n] 0 (n :: cur)
  | link {cur n cs k loc absolute target} (hdir : t.node cur = some .directory)
      (hn : t.node (n :: cur) = some (.symlink absolute target)) (hfollow : cs ≠ [] ∨ follow = true)
      (h : Walks follow (if absolute then [] else cur) (target ++ cs) k loc) :
      Walks follow cur (.name n :: cs) (k + 1) loc

variable {t} {follow : Bool} {cur loc : Location ν} {cs : List (Component ν)} {k : Nat}

/-- A walk step by step, with what `next` answers. -/
private theorem walkWith_eq_ok {next : Location ν → List (Component ν) → Except LookupError (Location ν)}
    {P : Nat → Prop}
    (hzero : P 0) (hnext : ∀ cur cs loc, next cur cs = .ok loc → ∃ k, P (k + 1) ∧ t.Walks follow cur cs k loc)
    (cs : List (Component ν)) : ∀ cur, t.walkWith follow next cur cs = .ok loc →
      ∃ k, P k ∧ t.Walks follow cur cs k loc := by
  induction cs with
  | nil =>
    intro cur h
    obtain rfl := Except.ok.inj h
    exact ⟨0, hzero, .nil _⟩
  | cons c cs ih =>
    intro cur h
    unfold walkWith at h
    by_cases hcur : t.isDirectory cur = true
    · have hdir := isDirectory_iff.1 hcur
      rw [if_pos hcur] at h
      cases c with
      | here =>
        obtain ⟨k, hk, hw⟩ := ih cur h
        exact ⟨k, hk, .here hdir hw⟩
      | up =>
        obtain ⟨k, hk, hw⟩ := ih cur.tail h
        exact ⟨k, hk, .up hdir hw⟩
      | name n =>
        dsimp only at h
        cases hn : t.node (n :: cur) with
        | none =>
          rw [hn] at h
          cases h
        | some nd =>
          rw [hn] at h
          cases nd with
          | directory =>
            obtain ⟨k, hk, hw⟩ := ih (n :: cur) h
            exact ⟨k, hk, .directory hdir hn hw⟩
          | regular inode =>
            obtain ⟨k, hk, hw⟩ := ih (n :: cur) h
            exact ⟨k, hk, .regular hdir hn hw⟩
          | symlink absolute target =>
            dsimp only at h
            split at h
            · rename_i hstop
              simp only [Bool.and_eq_true, List.isEmpty_iff, Bool.not_eq_true'] at hstop
              obtain ⟨rfl, hfollow⟩ := hstop
              obtain rfl := Except.ok.inj h
              exact ⟨0, hzero, .stop hdir hn hfollow⟩
            · rename_i hstop
              obtain ⟨k, hk, hw⟩ := hnext _ _ _ h
              refine ⟨k + 1, hk, .link hdir hn ?_ hw⟩
              simp only [Bool.and_eq_true, List.isEmpty_iff, Bool.not_eq_true', not_and_or, Bool.not_eq_false] at hstop
              exact hstop
    · rw [if_neg hcur] at h
      cases h

private theorem exists_walks_of_walk (links : Nat) : ∀ cur cs loc, t.walk follow links cur cs = .ok loc →
    ∃ k ≤ links, t.Walks follow cur cs k loc := by
  induction links with
  | zero =>
    intro cur cs loc h
    exact walkWith_eq_ok (P := fun k => k ≤ 0) (Nat.le_refl 0) (fun _ _ _ h => by cases h) cs cur h
  | succ links ih =>
    intro cur cs loc h
    refine walkWith_eq_ok (P := fun k => k ≤ links + 1) (Nat.zero_le _) (fun cur cs loc h => ?_) cs cur h
    obtain ⟨k, hk, hw⟩ := ih cur cs loc h
    exact ⟨k, Nat.succ_le_succ hk, hw⟩

/-- One component of a walk. -/
theorem walk_cons {c : Component ν} (hdir : t.node cur = some .directory) (links : Nat) :
    t.walk follow links cur (c :: cs) =
      match c with
      | .here => t.walk follow links cur cs
      | .up => t.walk follow links cur.tail cs
      | .name n =>
        match t.node (n :: cur) with
        | none => .error .missing
        | some .directory => t.walk follow links (n :: cur) cs
        | some (.regular _) => t.walk follow links (n :: cur) cs
        | some (.symlink absolute target) =>
          if cs.isEmpty && !follow then .ok (n :: cur)
          else match links with
            | 0 => .error .loop
            | links + 1 => t.walk follow links (if absolute then [] else cur) (target ++ cs) := by
  cases links with
  | zero => cases c <;> simp only [walk, walkWith, isDirectory_iff.2 hdir, if_true]
  | succ links => cases c <;> simp only [walk, walkWith, isDirectory_iff.2 hdir, if_true]

@[simp] theorem walk_nil (links : Nat) : t.walk follow links cur [] = .ok cur := by
  cases links <;> rfl

private theorem isFollowed (h : cs ≠ [] ∨ follow = true) : (cs.isEmpty && !follow) = false := by
  rcases h with hne | hfollow
  · simp [hne]
  · simp [hfollow]

theorem walk_of_walks (h : t.Walks follow cur cs k loc) : ∀ links, k ≤ links →
    t.walk follow links cur cs = .ok loc := by
  induction h with
  | nil cur => exact fun links _ => walk_nil links
  | here hdir _ ih =>
    intro links hk
    rw [walk_cons hdir]
    exact ih links hk
  | up hdir _ ih =>
    intro links hk
    rw [walk_cons hdir]
    exact ih links hk
  | directory hdir hn _ ih =>
    intro links hk
    rw [walk_cons hdir]
    simp only [hn]
    exact ih links hk
  | regular hdir hn _ ih =>
    intro links hk
    rw [walk_cons hdir]
    simp only [hn]
    exact ih links hk
  | stop hdir hn hfollow =>
    intro links _
    rw [walk_cons hdir]
    simp [hn, hfollow]
  | @link cur n cs k loc absolute target hdir hn hfollow _ ih =>
    intro links hk
    obtain ⟨links, rfl⟩ : ∃ m, links = m + 1 := ⟨links - 1, by omega⟩
    rw [walk_cons hdir]
    simp only [hn, isFollowed hfollow]
    exact ih links (Nat.le_of_succ_le_succ hk)

/-- A walk ends at `loc` when it follows few enough links there. -/
theorem walk_eq_ok_iff {links : Nat} :
    t.walk follow links cur cs = .ok loc ↔ ∃ k ≤ links, t.Walks follow cur cs k loc :=
  ⟨exists_walks_of_walk links cur cs loc, fun ⟨_, hk, hw⟩ => walk_of_walks hw links hk⟩

/-! ### Walks of joined lists -/

theorem Walks.append {a b : List (Component ν)} {k₁ k₂ : Nat} {mid : Location ν} (h : t.Walks true cur a k₁ mid)
    (hb : b ≠ [] ∨ follow = true) (h' : t.Walks follow mid b k₂ loc) : t.Walks follow cur (a ++ b) (k₁ + k₂) loc := by
  induction h with
  | nil cur => simpa using h'
  | here hdir _ ih => exact .here hdir (ih h')
  | up hdir _ ih => exact .up hdir (ih h')
  | directory hdir hn _ ih => exact .directory hdir hn (ih h')
  | regular hdir hn _ ih => exact .regular hdir hn (ih h')
  | stop _ _ hfollow => cases hfollow
  | @link cur n cs k loc absolute target hdir hn _ _ ih =>
    have hw := ih h'
    rw [List.append_assoc] at hw
    rw [Nat.add_right_comm]
    refine .link hdir hn ?_ hw
    exact hb.imp_left fun hne he => hne (List.append_eq_nil_iff.1 he).2

/-- The walk over a joined list passes through the end of the first one. -/
theorem Walks.split (h : t.Walks follow cur cs k loc) : ∀ {a b : List (Component ν)}, cs = a ++ b →
    b ≠ [] ∨ follow = true →
      ∃ k₁ k₂ mid, k = k₁ + k₂ ∧ t.Walks true cur a k₁ mid ∧ t.Walks follow mid b k₂ loc := by
  have hnil : ∀ {cur cs k loc b}, t.Walks follow cur cs k loc → cs = [] ++ b →
      ∃ k₁ k₂ mid, k = k₁ + k₂ ∧ t.Walks true cur [] k₁ mid ∧ t.Walks follow mid b k₂ loc := by
    rintro cur cs k loc b h rfl
    exact ⟨0, k, cur, (Nat.zero_add k).symm, .nil cur, h⟩
  induction h with
  | nil cur =>
    intro a b heq _
    obtain ⟨rfl, rfl⟩ := List.append_eq_nil_iff.1 heq.symm
    exact hnil (.nil cur) rfl
  | here hdir hw ih =>
    intro a b heq hb
    cases a with
    | nil => exact hnil (.here hdir hw) heq
    | cons c a =>
      obtain ⟨rfl, rfl⟩ := List.cons.inj heq
      obtain ⟨k₁, k₂, mid, hk, hw₁, hw₂⟩ := ih rfl hb
      exact ⟨k₁, k₂, mid, hk, .here hdir hw₁, hw₂⟩
  | up hdir hw ih =>
    intro a b heq hb
    cases a with
    | nil => exact hnil (.up hdir hw) heq
    | cons c a =>
      obtain ⟨rfl, rfl⟩ := List.cons.inj heq
      obtain ⟨k₁, k₂, mid, hk, hw₁, hw₂⟩ := ih rfl hb
      exact ⟨k₁, k₂, mid, hk, .up hdir hw₁, hw₂⟩
  | directory hdir hn hw ih =>
    intro a b heq hb
    cases a with
    | nil => exact hnil (.directory hdir hn hw) heq
    | cons c a =>
      obtain ⟨rfl, rfl⟩ := List.cons.inj heq
      obtain ⟨k₁, k₂, mid, hk, hw₁, hw₂⟩ := ih rfl hb
      exact ⟨k₁, k₂, mid, hk, .directory hdir hn hw₁, hw₂⟩
  | regular hdir hn hw ih =>
    intro a b heq hb
    cases a with
    | nil => exact hnil (.regular hdir hn hw) heq
    | cons c a =>
      obtain ⟨rfl, rfl⟩ := List.cons.inj heq
      obtain ⟨k₁, k₂, mid, hk, hw₁, hw₂⟩ := ih rfl hb
      exact ⟨k₁, k₂, mid, hk, .regular hdir hn hw₁, hw₂⟩
  | stop hdir hn hfollow =>
    intro a b heq hb
    cases a with
    | nil => exact hnil (.stop hdir hn hfollow) heq
    | cons c a =>
      -- a link at the end is followed when something comes after it
      obtain ⟨rfl, rfl⟩ := List.append_eq_nil_iff.1 (List.cons.inj heq).2.symm
      rcases hb with hne | htrue
      · exact absurd rfl hne
      · rw [hfollow] at htrue
        cases htrue
  | link hdir hn hfollow hw ih =>
    intro a b heq hb
    cases a with
    | nil => exact hnil (.link hdir hn hfollow hw) heq
    | cons c a =>
      obtain ⟨rfl, rfl⟩ := List.cons.inj heq
      obtain ⟨k₁, k₂, mid, hk, hw₁, hw₂⟩ := ih (List.append_assoc ..).symm hb
      exact ⟨k₁ + 1, k₂, mid, by omega, .link hdir hn (.inr rfl) hw₁, hw₂⟩

/-- The list of names that leads to a location. -/
def namesOf (loc : Location ν) : List (Component ν) := loc.reverse.map .name

@[simp] theorem namesOf_cons (n : ν) (loc : Location ν) : namesOf (n :: loc) = namesOf loc ++ [.name n] := by
  simp [namesOf]

theorem walks_namesOf_directory : ∀ {loc : Location ν}, t.node loc = some .directory →
    t.Walks true [] (namesOf loc) 0 loc
  | [], _ => .nil []
  | n :: d, h => by
    have hd : t.node d = some .directory := t.parent n d (by rw [h]; rfl)
    rw [namesOf_cons]
    exact (walks_namesOf_directory hd).append (.inr rfl) (.directory hd h (.nil _))

/-- A regular file is found under its names. -/
theorem walks_namesOf_regular {inode : Nat} (h : t.node loc = some (.regular inode)) :
    t.Walks true [] (namesOf loc) 0 loc := by
  cases loc with
  | nil =>
    rw [t.root] at h
    cases h
  | cons n d =>
    have hd : t.node d = some .directory := t.parent n d (by rw [h]; rfl)
    rw [namesOf_cons]
    exact (walks_namesOf_directory hd).append (.inr rfl) (.regular hd h (.nil _))

end LinkTree

/-! ### The lexical normal form -/

/-- One component: the names kept so far, the last one first, and whether the list ends in a directory by its form. -/
def normalStep : List ν × Bool → Component ν → List ν × Bool
  | (names, _), .here => (names, true)
  | ([], _), .up => ([], false)
  | (_ :: names, _), .up => (names, true)
  | (names, _), .name n => (n :: names, false)

def normalize (cs : List (Component ν)) : List ν × Bool := cs.foldl normalStep ([], false)

/-- The names that are kept; behind them the directory itself when the list asks for a directory. -/
def normalForm (cs : List (Component ν)) : List (Component ν) :=
  LinkTree.namesOf (normalize cs).1 ++ if (normalize cs).2 && !(normalize cs).1.isEmpty then [.here] else []

@[simp] theorem normalize_concat (cs : List (Component ν)) (c : Component ν) :
    normalize (cs ++ [c]) = normalStep (normalize cs) c := by
  simp [normalize]

theorem normalize_namesOf (loc : Location ν) : normalize (LinkTree.namesOf loc) = (loc, false) := by
  induction loc with
  | nil => rfl
  | cons n loc ih => rw [LinkTree.namesOf_cons, normalize_concat, ih]; rfl

namespace LinkTree

/-- Each `..` leads back to the directory in which the name that it cancels is looked up. -/
def StepsBack (t : LinkTree ν) (links : Nat) (cs : List (Component ν)) : Prop :=
  ∀ init, init ++ [.up] <+: cs → ∀ n names, (normalize init).1 = n :: names →
    ∀ k d k' e, k + k' ≤ links → t.Walks true [] (namesOf names) k d → t.Walks true d [.name n] k' e →
      t.node e = some .directory → e.tail = d

/-- Every name that leads to a directory leads to one right below the directory in which it is looked up. -/
def LeadsBack (t : LinkTree ν) (links : Nat) : Prop :=
  ∀ d n k e, k ≤ links → t.node d = some .directory → t.Walks true d [.name n] k e →
    t.node e = some .directory → e.tail = d

variable {t : LinkTree ν} {follow : Bool} {cur loc : Location ν} {cs : List (Component ν)} {k links : Nat}

theorem Walks.directory_cons {c : Component ν} (h : t.Walks follow cur (c :: cs) k loc) :
    t.node cur = some .directory := by
  cases h with
  | here hdir _ => exact hdir
  | up hdir _ => exact hdir
  | directory hdir _ _ => exact hdir
  | regular hdir _ _ => exact hdir
  | stop hdir _ _ => exact hdir
  | link hdir _ _ _ => exact hdir

theorem LeadsBack.stepsBack (h : t.LeadsBack links) (cs : List (Component ν)) : t.StepsBack links cs := by
  intro init _ n names _ k d k' e hk _ hn he
  exact h d n k' e (by omega) hn.directory_cons hn he

theorem directory_tail (h : t.node loc = some .directory) : t.node loc.tail = some .directory := by
  cases loc with
  | nil => exact t.root
  | cons n d => exact t.parent n d (by rw [h]; rfl)

/-- The kept names lead where the normal form leads. -/
theorem walks_namesOf_normalize (h : t.Walks true [] (normalForm cs) k loc) :
    t.Walks true [] (namesOf (normalize cs).1) k loc := by
  unfold normalForm at h
  split at h
  · obtain ⟨k₁, k₂, mid, rfl, hw, hhere⟩ := h.split rfl (.inr rfl)
    cases hhere with
    | here _ hnil =>
      cases hnil
      exact hw
  · rwa [List.append_nil] at h

/-- A walk to a directory, as a walk over a normal form that asks for one. -/
theorem walks_normalForm_directory {names : List ν} (h : t.Walks true [] (namesOf names) k loc)
    (hdir : t.node loc = some .directory) (hcs : normalize cs = (names, true)) :
    t.Walks follow [] (normalForm cs) k loc := by
  unfold normalForm
  rw [hcs]
  cases names with
  | nil =>
    cases h
    exact .nil []
  | cons n names => exact h.append (.inl (by simp)) (.here hdir (.nil loc))

/-- The normal form of a list in which every `..` leads back is walked like the list. -/
theorem walks_normalForm (hback : t.StepsBack links cs) : ∀ {follow k loc}, t.Walks follow [] cs k loc → k ≤ links →
    ∃ k' ≤ k, t.Walks follow [] (normalForm cs) k' loc := by
  induction cs using List.reverseRecOn with
  | nil => exact fun h _ => ⟨_, Nat.le_refl _, h⟩
  | append_singleton init c ih =>
    intro follow k loc h hk
    have hinit : t.StepsBack links init := fun init' hpre => hback init' (hpre.trans (List.prefix_append init [c]))
    obtain ⟨k₁, k₂, mid, rfl, hw₁, hw₂⟩ := h.split rfl (.inl (by simp))
    obtain ⟨k₁', hk₁, hnormal⟩ := ih hinit hw₁ (by omega)
    have hnames := walks_namesOf_normalize hnormal
    have hmid := hw₂.directory_cons
    cases c with
    | here =>
      cases hw₂ with
      | here _ hnil =>
        cases hnil
        refine ⟨k₁', hk₁, walks_normalForm_directory hnames hmid ?_⟩
        rw [normalize_concat]
        rfl
    | up =>
      cases hw₂ with
      | up _ hnil =>
        cases hnil
        cases hstack : (normalize init).1 with
        | nil =>
          rw [hstack] at hnames
          cases hnames
          refine ⟨0, Nat.zero_le _, ?_⟩
          have hform : normalForm (init ++ [.up]) = [] := by
            have hpair : normalize init = ([], (normalize init).2) := Prod.ext hstack rfl
            rw [normalForm, normalize_concat, hpair]
            rfl
          rw [hform]
          exact .nil []
        | cons n names =>
          rw [hstack, namesOf_cons] at hnames
          obtain ⟨ka, kb, d, rfl, hd, hn⟩ := hnames.split rfl (.inr rfl)
          have htail : mid.tail = d :=
            hback init (List.prefix_refl _) n names hstack ka d kb mid (by omega) hd hn hmid
          rw [htail]
          refine ⟨ka, by omega, walks_normalForm_directory hd (htail ▸ directory_tail hmid) ?_⟩
          have hpair : normalize init = (n :: names, (normalize init).2) := Prod.ext hstack rfl
          rw [normalize_concat, hpair]
          rfl
    | name n =>
      have hform : normalForm (init ++ [.name n]) = namesOf (normalize init).1 ++ [.name n] := by
        rw [normalForm, normalize_concat]
        simp [normalStep]
      rw [hform]
      exact ⟨k₁' + k₂, by omega, hnames.append (.inl (by simp)) hw₂⟩

/-- A name that leads to a directory elsewhere, and `..` behind it, are not walked like their normal form. -/
theorem walks_up_of_not_leadsBack {d e : Location ν} {n : ν} (hd : t.node d = some .directory)
    (hn : t.Walks true d [.name n] k e) (he : t.node e = some .directory) :
    t.Walks true [] (namesOf d ++ [.name n, .up]) k e.tail ∧
      t.Walks true [] (normalForm (namesOf d ++ [.name n, .up])) 0 d := by
  have hd₀ := walks_namesOf_directory hd
  constructor
  · have hup : t.Walks true d ([.name n] ++ [.up]) (k + 0) e.tail := hn.append (.inr rfl) (.up he (.nil _))
    have hw := hd₀.append (.inr rfl) hup
    rwa [Nat.zero_add] at hw
  · refine walks_normalForm_directory hd₀ hd ?_
    rw [← List.singleton_append, ← List.append_assoc, normalize_concat, normalize_concat, normalize_namesOf]
    rfl

/-! ### A new file -/

/-- Before a regular file is made, the components that lead to it end at a name that is missing. -/
theorem walk_before_regular {t' : LinkTree ν} {new : Location ν} {inode : Nat}
    (hothers : ∀ l ≠ new, t.node l = t'.node l) (hbefore : t.node new = none)
    (hnew : t'.node new = some (.regular inode)) (h : t'.Walks follow cur cs k loc) :
    cs ≠ [] → loc = new → ∀ links, k ≤ links → t.walk follow links cur cs = .error .missing := by
  have hdirectory : ∀ {l}, t'.node l = some .directory → t.node l = some .directory := by
    intro l hl
    rw [hothers l, hl]
    rintro rfl
    rw [hnew] at hl
    cases hl
  -- a walk that has come to a directory goes on
  have hrest : ∀ {cur cs k}, t'.node cur = some .directory → t'.Walks follow cur cs k new → cs ≠ [] := by
    rintro cur cs k hdir hw rfl
    cases hw
    rw [hnew] at hdir
    cases hdir
  induction h with
  | nil cur => exact fun hne => absurd rfl hne
  | here hdir hw ih =>
    rintro - rfl links hk
    rw [walk_cons (hdirectory hdir)]
    exact ih (hrest hdir hw) rfl links hk
  | up hdir hw ih =>
    rintro - rfl links hk
    rw [walk_cons (hdirectory hdir)]
    exact ih (hrest (directory_tail hdir) hw) rfl links hk
  | directory hdir hn hw ih =>
    rintro - rfl links hk
    rw [walk_cons (hdirectory hdir)]
    simp only [hdirectory hn]
    exact ih (hrest hn hw) rfl links hk
  | @regular cur n cs k loc _ hdir hn hw ih =>
    rintro - rfl links hk
    rw [walk_cons (hdirectory hdir)]
    -- the file that is walked to is the new one: nothing leads on from a file
    have hend : n :: cur = loc := by
      cases cs with
      | nil => cases hw; rfl
      | cons c cs =>
        have := hw.directory_cons
        rw [hn] at this
        cases this
    simp only [hend, hbefore]
  | stop hdir hn _ =>
    rintro - rfl links hk
    rw [hnew] at hn
    cases hn
  | @link cur n cs k loc absolute target hdir hn hfollow hw ih =>
    rintro - rfl links hk
    obtain ⟨links, rfl⟩ : ∃ m, links = m + 1 := ⟨links - 1, by omega⟩
    have hnode : t.node (n :: cur) = some (.symlink absolute target) := by
      rw [hothers (n :: cur), hn]
      rintro rfl
      rw [hnew] at hn
      cases hn
    have hfrom : t'.node (if absolute = true then [] else cur) = some .directory := by
      split
      · exact t'.root
      · exact hdir
    rw [walk_cons (hdirectory hdir)]
    simp only [hnode, isFollowed hfollow]
    exact ih (hrest hfrom hw) rfl links (Nat.le_of_succ_le_succ hk)

/-! ### Where a walk ends -/

/-- A walk has one end and follows one number of links. -/
theorem Walks.unique (h : t.Walks follow cur cs k loc) : ∀ {k' loc'}, t.Walks follow cur cs k' loc' →
    k = k' ∧ loc = loc' := by
  induction h with
  | nil cur =>
    intro k' loc' h'
    cases h'
    exact ⟨rfl, rfl⟩
  | here hdir _ ih =>
    intro k' loc' h'
    cases h' with
    | here _ h' => exact ih h'
  | up hdir _ ih =>
    intro k' loc' h'
    cases h' with
    | up _ h' => exact ih h'
  | directory hdir hn _ ih =>
    intro k' loc' h'
    cases h' with
    | directory _ _ h' => exact ih h'
    | regular _ hn' _ => rw [hn] at hn'; cases hn'
    | stop _ hn' _ => rw [hn] at hn'; cases hn'
    | link _ hn' _ _ => rw [hn] at hn'; cases hn'
  | regular hdir hn _ ih =>
    intro k' loc' h'
    cases h' with
    | directory _ hn' _ => rw [hn] at hn'; cases hn'
    | regular _ _ h' => exact ih h'
    | stop _ hn' _ => rw [hn] at hn'; cases hn'
    | link _ hn' _ _ => rw [hn] at hn'; cases hn'
  | stop hdir hn hfollow =>
    intro k' loc' h'
    cases h' with
    | directory _ hn' _ => rw [hn] at hn'; cases hn'
    | regular _ hn' _ => rw [hn] at hn'; cases hn'
    | stop _ _ _ => exact ⟨rfl, rfl⟩
    | link _ _ hfollow' _ => simp [hfollow] at hfollow'
  | link hdir hn hfollow _ ih =>
    intro k' loc' h'
    cases h' with
    | directory _ hn' _ => rw [hn] at hn'; cases hn'
    | regular _ hn' _ => rw [hn] at hn'; cases hn'
    | stop _ _ hfollow' => simp [hfollow'] at hfollow
    | link _ hn' _ h' =>
      rw [hn] at hn'
      cases hn'
      obtain ⟨rfl, rfl⟩ := ih h'
      exact ⟨rfl, rfl⟩

/-- A walk that follows all links stops at a link at its end first, if there is one, and goes on behind its target. -/
theorem Walks.stop_or_link (h : t.Walks true cur cs k loc) : t.Walks false cur cs k loc ∨
    ∃ k₁ k₂ link absolute target, k = k₁ + 1 + k₂ ∧ t.Walks false cur cs k₁ link ∧
      t.node link = some (.symlink absolute target) ∧
      t.Walks true (if absolute then [] else link.tail) target k₂ loc := by
  induction h with
  | nil cur => exact .inl (.nil cur)
  | here hdir _ ih =>
    rcases ih with h | ⟨k₁, k₂, link, absolute, target, hk, hw, hrest⟩
    · exact .inl (.here hdir h)
    · exact .inr ⟨k₁, k₂, link, absolute, target, hk, .here hdir hw, hrest⟩
  | up hdir _ ih =>
    rcases ih with h | ⟨k₁, k₂, link, absolute, target, hk, hw, hrest⟩
    · exact .inl (.up hdir h)
    · exact .inr ⟨k₁, k₂, link, absolute, target, hk, .up hdir hw, hrest⟩
  | directory hdir hn _ ih =>
    rcases ih with h | ⟨k₁, k₂, link, absolute, target, hk, hw, hrest⟩
    · exact .inl (.directory hdir hn h)
    · exact .inr ⟨k₁, k₂, link, absolute, target, hk, .directory hdir hn hw, hrest⟩
  | regular hdir hn _ ih =>
    rcases ih with h | ⟨k₁, k₂, link, absolute, target, hk, hw, hrest⟩
    · exact .inl (.regular hdir hn h)
    · exact .inr ⟨k₁, k₂, link, absolute, target, hk, .regular hdir hn hw, hrest⟩
  | stop _ _ hfollow => cases hfollow
  | @link cur n cs k loc absolute target hdir hn _ hw ih =>
    by_cases hcs : cs = []
    · subst hcs
      rw [List.append_nil] at hw
      exact .inr ⟨0, k, n :: cur, absolute, target, by omega, .stop hdir hn rfl, hn, hw⟩
    · rcases ih with h | ⟨k₁, k₂, link, absolute', target', hk, hw', hrest⟩
      · exact .inl (.link hdir hn (.inl hcs) h)
      · exact .inr ⟨k₁ + 1, k₂, link, absolute', target', by omega, .link hdir hn (.inl hcs) hw', hrest⟩

/-- What holds of directories, of regular files and of the links that are not followed holds where a walk ends. -/
theorem Walks.node_of {P : Option (Node ν) → Prop} (hdirectory : P (some .directory))
    (hregular : ∀ inode, P (some (.regular inode)))
    (hsymlink : follow = false → ∀ absolute target, P (some (.symlink absolute target)))
    (h : t.Walks follow cur cs k loc) (hcur : P (t.node cur)) : P (t.node loc) := by
  induction h with
  | nil cur => exact hcur
  | here hdir _ ih => exact ih (hdir ▸ hdirectory)
  | up hdir _ ih => exact ih (directory_tail hdir ▸ hdirectory)
  | directory hdir hn _ ih => exact ih (hn ▸ hdirectory)
  | regular hdir hn _ ih => exact ih (hn ▸ hregular _)
  | stop hdir hn hfollow => exact hn ▸ hsymlink hfollow _ _
  | link hdir _ _ _ ih =>
    apply ih
    split
    · exact t.root ▸ hdirectory
    · exact hdir ▸ hdirectory

/-- No walk that follows all links ends at one. -/
theorem Walks.ends_at_file (h : t.Walks true cur cs k loc)
    (hcur : ∀ absolute target, t.node cur ≠ some (.symlink absolute target)) :
    ∀ absolute target, t.node loc ≠ some (.symlink absolute target) := by
  refine h.node_of (P := fun node => ∀ absolute target, node ≠ some (.symlink absolute target)) ?_ ?_ ?_ hcur
  · rintro absolute target ⟨⟩
  · rintro inode absolute target ⟨⟩
  · rintro ⟨⟩

/-- A walk from a place in the tree ends at one. -/
theorem Walks.node_isSome (h : t.Walks follow cur cs k loc) (hcur : (t.node cur).isSome = true) :
    (t.node loc).isSome = true :=
  h.node_of (P := fun node => node.isSome = true) rfl (fun _ => rfl) (fun _ _ _ => rfl) hcur

/-- A directory that is asked for before the walk goes on makes no difference. -/
theorem walks_insert_here {a b : List (Component ν)} (hb : b ≠ []) :
    t.Walks follow cur (a ++ .here :: b) k loc ↔ t.Walks follow cur (a ++ b) k loc := by
  constructor
  · intro h
    obtain ⟨k₁, k₂, mid, rfl, h₁, h₂⟩ := h.split rfl (.inl (List.cons_ne_nil _ _))
    cases h₂ with
    | here _ h₂ => exact h₁.append (.inl hb) h₂
  · intro h
    obtain ⟨k₁, k₂, mid, rfl, h₁, h₂⟩ := h.split rfl (.inl hb)
    obtain ⟨c, cs, rfl⟩ := List.exists_cons_of_ne_nil hb
    exact h₁.append (.inl (List.cons_ne_nil _ _)) (.here h₂.directory_cons h₂)

/-- A link that a walk stops at is the one before its target. -/
theorem Walks.target_of_link {k₁ : Nat} {link : Location ν} {absolute : Bool} {target : List (Component ν)}
    (h : t.Walks true [] cs k loc) (hstop : t.Walks false [] cs k₁ link)
    (hlink : t.node link = some (.symlink absolute target)) :
    ∃ k₂, k = k₁ + 1 + k₂ ∧ t.Walks true (if absolute then [] else link.tail) target k₂ loc := by
  rcases h.stop_or_link with hw | ⟨k₁', k₂, link', absolute', target', hk, hw, hlink', hrest⟩
  · obtain ⟨-, rfl⟩ := hw.unique hstop
    refine absurd hlink (h.ends_at_file ?_ absolute target)
    rintro _ _ he
    rw [t.root] at he
    cases he
  · obtain ⟨rfl, rfl⟩ := hw.unique hstop
    rw [hlink] at hlink'
    cases hlink'
    exact ⟨k₂, hk, hrest⟩

end LinkTree

end FileTree
