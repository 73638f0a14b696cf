import R4R.Lib.FileTree
import R4R.SubPath

/-!
# Looking up paths

How the kernel looks a path up in a file system, and what `lexically_normal` makes of it.  Permissions and the limits on
the length of names and paths are left out.
-/

namespace R4R

open FileTree

/-- A file name as a component. -/
def componentOf (s : List Char) : Component (List Char) :=
  if s = [] ∨ s = ['.'] then .here else if s = ['.', '.'] then .up else .name s

/-- The components that are looked up: a separator at the end asks for a directory. -/
def Path.lookupComponents (p : Path) : List (Component (List Char)) :=
  (p.parts.filter fun s => s != ['/']).map componentOf

/-- A name that a file can have. -/
structure IsName (s : List Char) : Prop where
  ne_nil : s ≠ []
  no_slash : '/' ∉ s
  ne_dot : s ≠ ['.']
  ne_dots : s ≠ ['.', '.']

/-- Directories, regular files and symbolic links. -/
structure FileSystem extends LinkTree (List Char) where
  isName : ∀ n d, (node (n :: d)).isSome = true → IsName n

/-- The absolute path of a location. -/
def pathOf : Location (List Char) → Path
  | [] => ⟨['/']⟩
  | n :: d => pathOf d / ⟨n⟩

/-- `MAXSYMLINKS` of the kernel. -/
def maxSymlinks : Nat := 40

namespace FileSystem

variable (fs : FileSystem)

/-- The lookup of a path by a process, from the directory `start`. -/
def lookupAt (follow : Bool) (start : Location (List Char)) (p : Path) : Except LookupError (Location (List Char)) :=
  if p.native.isEmpty then .error .missing
  else fs.walk follow maxSymlinks (if p.isAbsolute then [] else start) p.lookupComponents

/-- The lookup of an absolute path. -/
def lookup (follow : Bool) (p : Path) : Except LookupError (Location (List Char)) := fs.lookupAt follow [] p

/-- Hard links lead to the same file. -/
def sameFile (loc loc' : Location (List Char)) : Bool :=
  match fs.node loc, fs.node loc' with
  | some (.regular inode), some (.regular inode') => inode == inode'
  | _, _ => loc == loc'

end FileSystem

/-! ### Components -/

namespace Path

private theorem notMem_of_mem_splitOn {c : Char} (l : List Char) : ∀ s ∈ l.splitOn c, c ∉ s := by
  induction l with
  | nil => simp
  | cons x l ih =>
    intro s hs
    obtain ⟨t, ts, ht⟩ := List.exists_cons_of_ne_nil (List.splitOn_ne_nil c l)
    rw [List.splitOn_cons_eq_if_modifyHead, ht] at hs
    rw [ht] at ih
    split at hs
    · rcases List.mem_cons.1 hs with rfl | hs
      · exact List.not_mem_nil
      · exact ih s hs
    · rename_i hx
      rcases List.mem_cons.1 hs with rfl | hs
      · have hxc : c ≠ x := by
          rintro rfl
          simp at hx
        simp [hxc, ih t (List.mem_cons_self ..)]
      · exact ih s (List.mem_cons_of_mem t hs)

theorem slash_notMem_filenames {p : Path} {s : List Char} (h : s ∈ p.filenames) : '/' ∉ s :=
  notMem_of_mem_splitOn p.native s (List.mem_filter.1 h).1

theorem isAbsolute_iff_mem_parts {p : Path} : p.isAbsolute = true ↔ ['/'] ∈ p.parts := by
  constructor
  · intro h
    simp [parts, h]
  · intro h
    by_contra hp
    unfold parts at h
    rw [if_neg hp, List.nil_append] at h
    rcases List.mem_append.1 h with h | h
    · exact slash_notMem_filenames h (List.mem_cons_self ..)
    · split at h
      · cases List.mem_singleton.1 h
      · cases h

theorem isAbsolute_congr {p q : Path} (h : p.parts = q.parts) : p.isAbsolute = q.isAbsolute := by
  rw [Bool.eq_iff_iff, isAbsolute_iff_mem_parts, isAbsolute_iff_mem_parts, h]

theorem lookupComponents_eq (p : Path) : p.lookupComponents =
    p.filenames.map componentOf ++ if !p.filenames.isEmpty && !p.hasFilename then [.here] else [] := by
  have hnames : (p.filenames.filter fun s => s != ['/']) = p.filenames := by
    rw [List.filter_eq_self]
    intro s hs
    have := slash_notMem_filenames hs
    simp only [bne_iff_ne, ne_eq]
    rintro rfl
    exact this (List.mem_cons_self ..)
  unfold lookupComponents parts
  rw [List.filter_append, List.filter_append, hnames, List.map_append, List.map_append]
  have hroot : ((if p.isAbsolute then [['/']] else []).filter fun s => s != ['/']) = [] := by
    split <;> rfl
  rw [hroot, List.map_nil, List.nil_append]
  split <;> rfl

theorem native_ne_nil_of_isAbsolute {p : Path} (h : p.isAbsolute = true) : p.native ≠ [] := by
  intro he
  simp [isAbsolute, he] at h

/-- What is joined to an absolute path is absolute. -/
theorem isAbsolute_join {dir : Path} (hdir : dir.isAbsolute = true) (name : Path) : (dir / name).isAbsolute = true := by
  cases hrel : name.isAbsolute with
  | true =>
    have hjoin : dir / name = name := if_pos hrel
    rw [hjoin, hrel]
  | false => rw [isAbsolute_append hrel (native_ne_nil_of_isAbsolute hdir), hdir]

/-- A joined path ends like the name that was joined. -/
theorem hasFilename_append {dir name : Path} (hrel : name.isAbsolute = false) (hne : name.native ≠ []) :
    (dir / name).hasFilename = name.hasFilename := by
  obtain ⟨init, c, hc⟩ := (List.eq_nil_or_concat name.native).resolve_left hne
  rw [List.concat_eq_append] at hc
  rw [append_of_relative hrel]
  have hempty : ∀ l : List Char, (l ++ [c]).isEmpty = false := fun l => by simp
  split
  · simp only [hasFilename, hc, ← List.cons_append, ← List.append_assoc, List.getLast?_concat, hempty]
  · simp only [hasFilename, hc, ← List.append_assoc, List.getLast?_concat, hempty]

/-- A separator at the end is joined with the empty name. -/
theorem hasFilename_append_nil (dir : Path) : (dir / (⟨[]⟩ : Path)).hasFilename = false := by
  rw [append_of_relative rfl]
  split
  · simp [hasFilename]
  · rename_i h
    simpa using h

theorem lookupComponents_append {dir name : Path} (hrel : name.isAbsolute = false) (hne : name.native ≠ []) :
    (dir / name).lookupComponents = dir.filenames.map componentOf ++ name.lookupComponents := by
  have hnames := filenames_ne_nil hrel hne
  rw [lookupComponents_eq, lookupComponents_eq, filenames_append hrel, hasFilename_append hrel hne, List.map_append,
    List.append_assoc]
  simp [hnames]

end Path

theorem componentOf_of_isName {s : List Char} (h : IsName s) : componentOf s = .name s := by
  unfold componentOf
  rw [if_neg (by simp [h.ne_nil, h.ne_dot]), if_neg h.ne_dots]

/-! ### Paths of locations -/

section PathOf

variable {loc : Location (List Char)}

theorem IsName.isAbsolute {n : List Char} (h : IsName n) : (⟨n⟩ : Path).isAbsolute = false := by
  obtain ⟨c, cs, rfl⟩ := List.exists_cons_of_ne_nil h.ne_nil
  have hc : c ≠ '/' := fun he => h.no_slash (he ▸ List.mem_cons_self ..)
  simp [Path.isAbsolute, hc]

theorem IsName.filenames {n : List Char} (h : IsName n) : (⟨n⟩ : Path).filenames = [n] := by
  simp [Path.filenames, List.splitOn_eq_singleton h.no_slash, h.ne_nil]

private theorem IsName.hasFilename {n : List Char} (h : IsName n) : (⟨n⟩ : Path).hasFilename = true := by
  have hlast : n.getLast? ≠ some '/' := fun he => h.no_slash (List.mem_of_getLast? he)
  simp [Path.hasFilename, h.ne_nil, hlast]

theorem isAbsolute_pathOf : ∀ {loc}, (∀ n ∈ loc, IsName n) → (pathOf loc).isAbsolute = true
  | [], _ => rfl
  | n :: d, h => by
    have hd : (pathOf d).isAbsolute = true := isAbsolute_pathOf fun m hm => h m (List.mem_cons_of_mem n hm)
    exact Path.isAbsolute_join hd _

theorem filenames_pathOf : ∀ {loc}, (∀ n ∈ loc, IsName n) → (pathOf loc).filenames = loc.reverse
  | [], _ => rfl
  | n :: d, h => by
    have hn := h n (List.mem_cons_self ..)
    rw [pathOf, Path.filenames_append hn.isAbsolute, hn.filenames,
      filenames_pathOf fun m hm => h m (List.mem_cons_of_mem n hm), List.reverse_cons]

theorem map_componentOf_filenames_pathOf (h : ∀ n ∈ loc, IsName n) :
    (pathOf loc).filenames.map componentOf = LinkTree.namesOf loc := by
  rw [filenames_pathOf h, LinkTree.namesOf]
  refine List.map_congr_left fun n hn => componentOf_of_isName (h n (List.mem_reverse.1 hn))

theorem hasFilename_pathOf_cons {n : List Char} (h : IsName n) (d : Location (List Char)) :
    (pathOf (n :: d)).hasFilename = true := by
  rw [pathOf, Path.hasFilename_append h.isAbsolute h.ne_nil, h.hasFilename]

private theorem lookupComponents_pathOf (h : ∀ n ∈ loc, IsName n) :
    (pathOf loc).lookupComponents = LinkTree.namesOf loc := by
  cases loc with
  | nil => rfl
  | cons n d =>
    rw [Path.lookupComponents_eq, map_componentOf_filenames_pathOf h,
      hasFilename_pathOf_cons (h n (List.mem_cons_self ..))]
    simp

/-- A path that asks for the directory of a location. -/
private theorem lookupComponents_pathOf_append_nil (h : ∀ n ∈ loc, IsName n) (hne : loc ≠ []) :
    (pathOf loc / (⟨[]⟩ : Path)).lookupComponents = LinkTree.namesOf loc ++ [.here] := by
  have hnames : (pathOf loc / (⟨[]⟩ : Path)).filenames = (pathOf loc).filenames := by
    rw [Path.filenames_append rfl]
    exact List.append_nil _
  rw [Path.lookupComponents_eq, Path.hasFilename_append_nil, hnames, map_componentOf_filenames_pathOf h,
    filenames_pathOf h]
  simp [hne]

private theorem intercalate_concat (sep x : List Char) {xs : List (List Char)} (hne : xs ≠ []) :
    sep.intercalate (xs ++ [x]) = sep.intercalate xs ++ sep ++ x := by
  induction xs with
  | nil => exact absurd rfl hne
  | cons y xs ih =>
    cases xs with
    | nil => simp
    | cons z xs =>
      rw [List.cons_append, List.intercalate_cons_of_ne_nil (by simp), ih (List.cons_ne_nil z xs),
        List.intercalate_cons_of_ne_nil (List.cons_ne_nil z xs)]
      simp

/-- The text of the path of a location. -/
private theorem native_pathOf : ∀ {loc}, (∀ n ∈ loc, IsName n) → (pathOf loc).native = '/' ::
    ['/'].intercalate loc.reverse
  | [], _ => rfl
  | n :: d, h => by
    have hn := h n (List.mem_cons_self ..)
    have hd := fun m hm => h m (List.mem_cons_of_mem n hm)
    rw [pathOf, Path.append_of_relative hn.isAbsolute]
    cases d with
    | nil => simp [pathOf, Path.hasFilename]
    | cons m d =>
      rw [if_pos (hasFilename_pathOf_cons (hd m (List.mem_cons_self ..)) d), native_pathOf hd,
        List.reverse_cons (a := n), intercalate_concat _ _ (by simp)]
      simp

end PathOf

/-! ### The lexical normal form of a path -/

section LexicallyNormal

variable {names : List (List Char)} {trailing : Bool}

private theorem componentOf_eq_name {s n : List Char} (hslash : '/' ∉ s) (h : componentOf s = .name n) : IsName n := by
  unfold componentOf at h
  split at h
  · cases h
  · rename_i hdot
    split at h
    · cases h
    · rename_i hdots
      cases h
      exact ⟨fun he => hdot (.inl he), hslash, fun he => hdot (.inr he), hdots⟩

/-- On names the elements of a path are taken like components. -/
private theorem normalStep_eq (hnames : ∀ n ∈ names, IsName n) {s : List Char} (hslash : '/' ∉ s) :
    Path.normalStep true (names, trailing) s = FileTree.normalStep (names, trailing) (componentOf s) := by
  have hroot : s ≠ ['/'] := by
    rintro rfl
    exact hslash (List.mem_cons_self ..)
  unfold Path.normalStep componentOf
  dsimp only
  rw [if_neg hroot]
  by_cases hdot : s = [] ∨ s = ['.']
  · rw [if_pos hdot, if_pos hdot]
    rfl
  · rw [if_neg hdot, if_neg hdot]
    by_cases hdots : s = ['.', '.']
    · rw [if_pos hdots, if_pos hdots]
      cases names with
      | nil => rfl
      | cons n names =>
        simp only [(hnames n (List.mem_cons_self ..)).ne_dots, if_false]
        rfl
    · rw [if_neg hdots, if_neg hdots]
      rfl

private theorem isName_of_mem_normalStep (hnames : ∀ n ∈ names, IsName n) {s : List Char} (hslash : '/' ∉ s) :
    ∀ n ∈ (FileTree.normalStep (names, trailing) (componentOf s)).1, IsName n := by
  cases hc : componentOf s with
  | here => exact hnames
  | up =>
    cases names with
    | nil => exact hnames
    | cons m names => exact fun n hn => hnames n (List.mem_cons_of_mem m hn)
  | name m =>
    intro n hn
    rcases List.mem_cons.1 hn with rfl | hn
    · exact componentOf_eq_name hslash hc
    · exact hnames n hn

private theorem foldl_normalStep (elems : List (List Char)) :
    ∀ {acc : List (List Char) × Bool}, (∀ s ∈ elems, '/' ∉ s) → (∀ n ∈ acc.1, IsName n) →
      elems.foldl (Path.normalStep true) acc = (elems.map componentOf).foldl FileTree.normalStep acc ∧
        ∀ n ∈ ((elems.map componentOf).foldl FileTree.normalStep acc).1, IsName n := by
  induction elems with
  | nil => exact fun _ hacc => ⟨rfl, hacc⟩
  | cons s elems ih =>
    intro acc hslash hacc
    have hs := hslash s (List.mem_cons_self ..)
    rw [List.foldl_cons, List.map_cons, List.foldl_cons, normalStep_eq hacc hs]
    exact ih (fun s' hs' => hslash s' (List.mem_cons_of_mem s hs')) (isName_of_mem_normalStep hacc hs)

namespace Path

variable {p : Path}

/-- The elements behind the root directory. -/
theorem parts_of_isAbsolute (habs : p.isAbsolute = true) :
    ∃ elems, p.parts = ['/'] :: elems ∧ (∀ s ∈ elems, '/' ∉ s) ∧ elems.map componentOf = p.lookupComponents := by
  refine ⟨p.filenames ++ if !p.filenames.isEmpty && !p.hasFilename then [[]] else [], ?_, ?_, ?_⟩
  · rw [parts, if_pos habs]
    rfl
  · intro s hs
    rcases List.mem_append.1 hs with hs | hs
    · exact slash_notMem_filenames hs
    · split at hs
      · rw [List.mem_singleton.1 hs]
        exact List.not_mem_nil
      · cases hs
  · rw [lookupComponents_eq, List.map_append]
    split <;> rfl

theorem foldl_normalStep_parts (habs : p.isAbsolute = true) :
    p.parts.foldl (normalStep p.isAbsolute) ([], false) = normalize p.lookupComponents ∧
      ∀ n ∈ (normalize p.lookupComponents).1, IsName n := by
  obtain ⟨elems, hparts, hslash, hcomponents⟩ := parts_of_isAbsolute habs
  rw [hparts, habs, ← hcomponents]
  exact foldl_normalStep elems hslash fun n hn => absurd hn List.not_mem_nil

/-- The lexical normal form of an absolute path is the path of the names that are kept, as a directory when a separator
follows them. -/
theorem lexicallyNormal_eq (habs : p.isAbsolute = true) :
    p.lexicallyNormal =
      if (normalize p.lookupComponents).2 && !(normalize p.lookupComponents).1.isEmpty
      then pathOf (normalize p.lookupComponents).1 / (⟨[]⟩ : Path)
      else pathOf (normalize p.lookupComponents).1 := by
  obtain ⟨hfold, hnames⟩ := foldl_normalStep_parts habs
  have hne := native_ne_nil_of_isAbsolute habs
  unfold lexicallyNormal
  rw [hfold]
  generalize normalize p.lookupComponents = acc at hnames ⊢
  obtain ⟨names, trailing⟩ := acc
  rw [if_neg (by simpa using hne)]
  dsimp only at hnames ⊢
  cases names with
  | nil => simp [habs, pathOf]
  | cons n names =>
    have hdots : n ≠ ['.', '.'] := (hnames n (List.mem_cons_self ..)).ne_dots
    have hdir : pathOf (n :: names) / (⟨[]⟩ : Path) = ⟨(pathOf (n :: names)).native ++ ['/']⟩ := by
      have hfile := hasFilename_pathOf_cons (hnames n (List.mem_cons_self ..)) names
      rw [append_of_relative rfl, if_pos hfile]
    rw [hdir, native_pathOf hnames, if_pos habs]
    cases trailing with
    | true => simp [hdots]
    | false =>
      have htext : pathOf (n :: names) = ⟨'/' :: ['/'].intercalate (n :: names).reverse⟩ := by
        rw [← native_pathOf hnames]
      simp [htext]

theorem lookupComponents_lexicallyNormal (habs : p.isAbsolute = true) :
    p.lexicallyNormal.lookupComponents = normalForm p.lookupComponents := by
  have hnames := (foldl_normalStep_parts habs).2
  rw [lexicallyNormal_eq habs, normalForm]
  split
  · rename_i hdir
    simp only [Bool.and_eq_true, Bool.not_eq_true', List.isEmpty_eq_false_iff] at hdir
    rw [lookupComponents_pathOf_append_nil hnames hdir.2]
  · rw [lookupComponents_pathOf hnames, List.append_nil]

theorem isAbsolute_lexicallyNormal (habs : p.isAbsolute = true) : p.lexicallyNormal.isAbsolute = true := by
  have hroot := isAbsolute_pathOf (foldl_normalStep_parts habs).2
  rw [lexicallyNormal_eq habs]
  split
  · exact isAbsolute_join hroot _
  · exact hroot

end Path

end LexicallyNormal

/-! ### Lookups -/

namespace FileSystem

variable {fs : FileSystem} {follow : Bool} {p : Path} {loc start : Location (List Char)}

theorem isName_of_isSome (fs : FileSystem) :
    ∀ {loc : Location (List Char)}, (fs.node loc).isSome = true → ∀ n ∈ loc, IsName n
  | [], _ => fun n hn => absurd hn List.not_mem_nil
  | m :: d, h => by
    intro n hn
    rcases List.mem_cons.1 hn with rfl | hn
    · exact fs.isName n d h
    · exact isName_of_isSome fs (by rw [fs.parent m d h]; rfl) n hn

theorem lookup_eq (habs : p.isAbsolute = true) :
    fs.lookup follow p = fs.walk follow maxSymlinks [] p.lookupComponents := by
  have hne := Path.native_ne_nil_of_isAbsolute habs
  unfold lookup lookupAt
  rw [if_neg (by simpa using hne), if_pos habs]

/-- A lookup depends on the elements of the path. -/
theorem lookup_congr {q : Path} (habs : p.isAbsolute = true) (h : p.parts = q.parts) :
    q.isAbsolute = true ∧ fs.lookup follow q = fs.lookup follow p := by
  have hq : q.isAbsolute = true := by rw [← Path.isAbsolute_congr h, habs]
  refine ⟨hq, ?_⟩
  rw [lookup_eq hq, lookup_eq habs, Path.lookupComponents, Path.lookupComponents, h]

/-- The location has its own path. -/
theorem lookup_pathOf {inode : Nat} (h : fs.node loc = some (.regular inode)) :
    fs.lookup true (pathOf loc) = .ok loc := by
  have hnames : ∀ n ∈ loc, IsName n := isName_of_isSome fs (by rw [h]; rfl)
  rw [lookup_eq (isAbsolute_pathOf hnames), lookupComponents_pathOf hnames]
  exact LinkTree.walk_of_walks (LinkTree.walks_namesOf_regular h) _ (Nat.zero_le _)

/-- The normal form of a path in which every `..` leads back is looked up like the path. -/
theorem lookup_lexicallyNormal (habs : p.isAbsolute = true) (hback : fs.StepsBack maxSymlinks p.lookupComponents)
    (h : fs.lookup follow p = .ok loc) : fs.lookup follow p.lexicallyNormal = .ok loc := by
  rw [lookup_eq habs] at h
  obtain ⟨k, hk, hw⟩ := LinkTree.walk_eq_ok_iff.1 h
  obtain ⟨k', hk', hw'⟩ := LinkTree.walks_normalForm hback hw hk
  rw [lookup_eq (Path.isAbsolute_lexicallyNormal habs), Path.lookupComponents_lexicallyNormal habs]
  exact LinkTree.walk_of_walks hw' _ (by omega)

/-- A relative path that is found has a text and is looked up in a directory. -/
theorem directory_of_lookupAt (hrel : p.isAbsolute = false) (h : fs.lookupAt follow start p = .ok loc) :
    p.native ≠ [] ∧ p.lookupComponents ≠ [] ∧ fs.node start = some .directory := by
  unfold lookupAt at h
  split at h
  · cases h
  · rename_i hne
    have hne : p.native ≠ [] := by simpa using hne
    have hcomponents : p.lookupComponents ≠ [] := by
      rw [Path.lookupComponents_eq]
      simp [Path.filenames_ne_nil hrel hne]
    refine ⟨hne, hcomponents, ?_⟩
    rw [if_neg (by simp [hrel])] at h
    obtain ⟨k, hk, hw⟩ := LinkTree.walk_eq_ok_iff.1 h
    obtain ⟨c, cs, hc⟩ := List.exists_cons_of_ne_nil hcomponents
    rw [hc] at hw
    exact hw.directory_cons

theorem isAbsolute_pathOf_directory (h : fs.node loc = some .directory) : (pathOf loc).isAbsolute = true :=
  isAbsolute_pathOf (isName_of_isSome fs (by rw [h]; rfl))

/-- A path relative to a directory is looked up like the path joined to that of the directory. -/
theorem lookup_append (hrel : p.isAbsolute = false) (h : fs.lookupAt follow start p = .ok loc) :
    (pathOf start / p).isAbsolute = true ∧
      (pathOf start / p).lookupComponents = LinkTree.namesOf start ++ p.lookupComponents ∧
      fs.lookup follow (pathOf start / p) = .ok loc := by
  obtain ⟨hne, hcomponents, hstart⟩ := directory_of_lookupAt hrel h
  have hroot := isAbsolute_pathOf_directory hstart
  have habs : (pathOf start / p).isAbsolute = true := Path.isAbsolute_join hroot p
  have hjoined : (pathOf start / p).lookupComponents = LinkTree.namesOf start ++ p.lookupComponents := by
    rw [Path.lookupComponents_append hrel hne,
      map_componentOf_filenames_pathOf (isName_of_isSome fs (by rw [hstart]; rfl))]
  refine ⟨habs, hjoined, ?_⟩
  unfold lookupAt at h
  rw [if_neg (by simpa using hne), if_neg (by simp [hrel])] at h
  obtain ⟨k, hk, hw⟩ := LinkTree.walk_eq_ok_iff.1 h
  have hjoint := (LinkTree.walks_namesOf_directory hstart).append (.inl hcomponents) hw
  rw [lookup_eq habs, hjoined]
  exact LinkTree.walk_of_walks hjoint _ (by omega)

end FileSystem

end R4R
