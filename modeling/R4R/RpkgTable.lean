import R4R.RpkgParse

/-!
# The table of installed packages

What a table of installed packages says, and that `RpkgDatabase::from_stream` reads it so: of each name the first row
that is not skipped, with the dependencies that are in the database (`fromStream_find`).
-/

namespace R4R

open Delimited Lines

/-! ### Tables -/

/-- An entry of a dependency list: a name, and perhaps a constraint in parentheses behind some blanks. -/
structure DependencyEntry where
  before : List Char
  name : List Char
  constraint : Option (List Char × List Char)
  after : List Char
  before_blank : ∀ c ∈ before, isSpace c = true
  name_free : ∀ c ∈ name, isSpace c = false ∧ c ≠ ',' ∧ c ≠ '(' ∧ c ≠ ')'
  constraint_free : ∀ k ∈ constraint, (∀ c ∈ k.1, isSpace c = true) ∧ ',' ∉ k.2
  after_blank : ∀ c ∈ after, isSpace c = true

namespace DependencyEntry

/-- The text behind the name. -/
def tail (e : DependencyEntry) : List Char :=
  match e.constraint with
  | none => e.after
  | some (blanks, constraint) => blanks ++ '(' :: (constraint ++ ')' :: e.after)

def text (e : DependencyEntry) : List Char := e.before ++ (e.name ++ e.tail)

end DependencyEntry

def entriesText (entries : List DependencyEntry) : List Char := [','].intercalate (entries.map DependencyEntry.text)

/-- A dependency field: the text `NA`, or a list. -/
inductive DependencyField where
  | na
  | list (entries : List DependencyEntry) (h : entriesText entries ≠ "NA".toList)

namespace DependencyField

def text : DependencyField → List Char
  | na => "NA".toList
  | list entries _ => entriesText entries

def names : DependencyField → List (List Char)
  | na => []
  | list entries _ => entries.map DependencyEntry.name

end DependencyField

/-- The twelve fields of a row. -/
structure RowFields where
  name : List Char
  libPath : List Char
  version : List Char
  depends : DependencyField
  imports : DependencyField
  linkingTo : DependencyField
  priority : List Char
  needsCompilation : List Char
  remoteType : List Char
  org : List Char
  repo : List Char
  ref : List Char

def RowFields.texts (r : RowFields) : List (List Char) :=
  [r.name, r.libPath, r.version, r.depends.text, r.imports.text, r.linkingTo.text, r.priority, r.needsCompilation,
    r.remoteType, r.org, r.repo, r.ref]

structure TableRow extends RowFields where
  free : ∀ field ∈ toRowFields.texts, ¬ kDelimUtf8 <:+: field
  name_head : ∀ c ∈ name.head?, isSpace c = false
  ref_last : ∀ c ∈ ref.getLast?, isSpace c = false

namespace TableRow

def text (r : TableRow) : List Char := kDelimUtf8.intercalate r.texts

/-- The row is about a package from GitHub. -/
def isGitHub (r : TableRow) : Bool := r.remoteType.map Char.toLower == "github".toList

def isMissing (s : List Char) : Bool := s.isEmpty || s == "NA".toList

/-- The row names its GitHub repository if it has to. -/
def survives (r : TableRow) : Bool := !r.isGitHub || !(isMissing r.org || isMissing r.repo)

def repository (r : TableRow) : Repository :=
  if r.isGitHub then
    .gitHub ⟨.ofList r.org, .ofList r.repo, .ofList (if isMissing r.ref then "HEAD".toList else r.ref)⟩
  else .cran

/-- The row names `n` as a package that it depends on; `R` itself is no package. -/
def DependsOn (r : TableRow) (n : List Char) : Prop :=
  n ∈ r.depends.names ++ r.imports.names ++ r.linkingTo.names ∧ n ≠ [] ∧ n ≠ "R".toList

end TableRow

/-- A line of the table. -/
inductive TableLine where
  | blank (text : List Char) (h : ∀ c ∈ text, isSpace c = true)
  | row (r : TableRow)

namespace TableLine

def text : TableLine → List Char
  | blank text _ => text
  | row r => r.text

def survivor : TableLine → Option TableRow
  | blank _ _ => none
  | row r => if r.survives then some r else none

end TableLine

/-- The package is what the row says, with the dependencies that the database has. -/
structure IsPackageOf (db : RpkgDatabase) (r : TableRow) (pkg : RPackage) : Prop where
  name : pkg.name = .ofList r.name
  libPath : pkg.libPath = ⟨r.libPath⟩
  version : pkg.version = .ofList r.version
  isBase : pkg.isBase = true ↔ r.priority = "base".toList
  needsCompilation : pkg.needsCompilation = true ↔ r.needsCompilation = "yes".toList
  repository : pkg.repository = r.repository
  dependencies : ∀ d, d ∈ pkg.dependencies ↔ (∃ n, r.DependsOn n ∧ d = .ofList n) ∧ (db.find d).isSome = true

/-! ### Dependency fields -/

namespace DependencyEntry

/-- The characters that end a name. -/
def stops (x : Char) : Bool := x == '(' || isSpace x

private theorem stops_tail (e : DependencyEntry) : ∀ c ∈ e.tail.head?, stops c = true := by
  intro c hc
  have hblank : ∀ ws rest : List Char, (∀ c ∈ ws, isSpace c = true) → (∀ c ∈ rest.head?, stops c = true) →
      ∀ c ∈ (ws ++ rest).head?, stops c = true := by
    intro ws rest hws hrest c hc
    cases ws with
    | nil => exact hrest c hc
    | cons w ws =>
      obtain rfl := Option.some.inj hc
      simp [stops, hws w (List.mem_cons_self ..)]
  unfold tail at hc
  split at hc
  · exact hblank e.after [] e.after_blank (by simp) c (by simpa using hc)
  · rename_i blanks constraint heq
    refine hblank blanks _ (e.constraint_free _ heq).1 ?_ c hc
    rintro c ⟨⟩
    rfl

private theorem takeWhile_stops {s : List Char} (h : ∀ c ∈ s.head?, stops c = true) :
    s.takeWhile (fun x => !stops x) = [] := by
  cases s with
  | nil => rfl
  | cons c s => exact List.takeWhile_cons_of_neg (by simp [h c rfl])

/-- Up to the first character that ends a name, a trimmed entry is its name. -/
private theorem takeWhile_trim_text (e : DependencyEntry) : (trim e.text).takeWhile (fun x => !stops x) = e.name := by
  unfold text
  rw [trim_blank_append e.before_blank]
  cases hname : e.name with
  | nil =>
    -- the trimmed text is empty or starts with the parenthesis
    rw [List.nil_append]
    unfold tail
    split
    · rw [trim_eq_nil e.after_blank]
      rfl
    · rename_i blanks constraint heq
      rw [trim_blank_append (e.constraint_free _ heq).1, ← List.singleton_append, trim_append_of_getLast (by simp)
        (by decide) (by decide)]
      exact takeWhile_stops (by simp [stops])
  | cons c name =>
    have hspace : ∀ x ∈ c :: name, isSpace x = false := fun x hx => (e.name_free x (hname ▸ hx)).1
    rw [trim_append_of_getLast (by simp) (by simp [hspace]) (hspace _ (List.getLast_mem _)),
      List.takeWhile_append_of_pos]
    · have hstop : (e.tail.rdropWhile isSpace).takeWhile (fun x => !stops x) = [] := by
        refine takeWhile_stops fun x hx => e.stops_tail x ?_
        obtain ⟨t, ht⟩ := List.rdropWhile_prefix isSpace e.tail
        rw [← ht]
        cases hr : e.tail.rdropWhile isSpace with
        | nil => rw [hr] at hx; cases hx
        | cons y ys => rw [hr] at hx; exact hx
      rw [hstop, List.append_nil]
    · intro x hx
      have hfree := e.name_free x (hname ▸ hx)
      simp [stops, hfree]

/-- What is found in an entry is its name, unless that is empty or `R`. -/
private theorem dependencyName_text (e : DependencyEntry) (n : List Char) :
    RpkgDatabase.dependencyName e.text = some n ↔ n = e.name ∧ n ≠ [] ∧ n ≠ "R".toList := by
  have hname : trim e.name = e.name := trim_eq_self
    (fun c hc => (e.name_free c (List.mem_of_head? hc)).1) (fun c hc => (e.name_free c (List.mem_of_getLast? hc)).1)
  have hspec : RpkgDatabase.dependencyName e.text =
      if e.text.isEmpty then none else if e.name.isEmpty || e.name == "R".toList then none else some e.name := by
    have htake := e.takeWhile_trim_text
    unfold stops at htake
    simp only [RpkgDatabase.dependencyName, htake, hname]
  rw [hspec]
  split
  · rename_i hempty
    have htext := List.isEmpty_iff.1 hempty
    simp only [text, List.append_eq_nil_iff] at htext
    constructor
    · rintro ⟨⟩
    · rintro ⟨rfl, hne, -⟩
      exact absurd htext.2.1 hne
  · split
    · rename_i hskip
      constructor
      · rintro ⟨⟩
      · rintro ⟨rfl, hne, hR⟩
        simp only [Bool.or_eq_true, List.isEmpty_iff, beq_iff_eq] at hskip
        exact (hskip.elim hne hR).elim
    · rename_i hkeep
      simp only [Bool.or_eq_true, List.isEmpty_iff, beq_iff_eq, not_or] at hkeep
      constructor
      · rintro ⟨⟩
        exact ⟨rfl, hkeep⟩
      · rintro ⟨rfl, -⟩
        rfl

private theorem comma_notMem_text (e : DependencyEntry) : ',' ∉ e.text := by
  have hblank : ∀ ws : List Char, (∀ c ∈ ws, isSpace c = true) → ',' ∉ ws := fun ws h hc =>
    absurd (h ',' hc) (by decide)
  have hname : ',' ∉ e.name := fun hc => (e.name_free ',' hc).2.1 rfl
  have htail : ',' ∉ e.tail := by
    unfold tail
    split
    · exact hblank e.after e.after_blank
    · rename_i blanks constraint heq
      obtain ⟨hblanks, hconstraint⟩ := e.constraint_free _ heq
      simp [hblank blanks hblanks, hconstraint, hblank e.after e.after_blank]
  simp [text, hblank e.before e.before_blank, hname, htail]

end DependencyEntry

namespace RpkgDatabase

@[simp] theorem mem_insertName {name d : String} {target : List String} :
    d ∈ insertName name target ↔ d ∈ target ∨ d = name := by
  unfold insertName
  split
  · rename_i hmem
    exact ⟨.inl, fun h => h.elim id fun he => he ▸ hmem⟩
  · rw [List.mem_orderedInsert, or_comm]

private theorem mem_addDependency {tmp : List Char} {d : String} {target : List String} :
    d ∈ addDependency tmp target ↔ d ∈ target ∨ ∃ n, dependencyName tmp = some n ∧ d = .ofList n := by
  unfold addDependency
  cases dependencyName tmp with
  | none => simp
  | some name => simp

private theorem mem_foldl_addDependency {d : String} (entries : List DependencyEntry) : ∀ target : List String,
    d ∈ entries.foldl (fun target e => addDependency e.text target) target ↔
      d ∈ target ∨ ∃ n ∈ entries.map DependencyEntry.name, n ≠ [] ∧ n ≠ "R".toList ∧ d = .ofList n := by
  induction entries with
  | nil => simp
  | cons e entries ih =>
    intro target
    rw [List.foldl_cons, ih, mem_addDependency]
    simp only [DependencyEntry.dependencyName_text, List.map_cons, List.mem_cons, or_assoc, exists_eq_or_imp]
    refine or_congr_right (or_congr_left ⟨?_, fun h => ⟨e.name, ⟨rfl, h.1, h.2.1⟩, h.2.2⟩⟩)
    rintro ⟨n, ⟨rfl, hne, hR⟩, rfl⟩
    exact ⟨hne, hR, rfl⟩

/-- Up to the next comma the loop collects an entry. -/
private theorem dependencyLoop_append {chunk : List Char} (h : ',' ∉ chunk) (rest : List Char) (target : List String) :
    ∀ tmp, dependencyLoop tmp (chunk ++ rest) target = dependencyLoop (tmp ++ chunk) rest target := by
  induction chunk with
  | nil => simp
  | cons c chunk ih =>
    intro tmp
    rw [List.mem_cons, not_or] at h
    rw [List.cons_append, dependencyLoop, if_neg (Ne.symm h.1), ih h.2, List.append_assoc]
    rfl

/-- The loop inserts the names of the entries one after the other. -/
private theorem dependencyLoop_entriesText (entries : List DependencyEntry) : ∀ target,
    dependencyLoop [] (entriesText entries) target =
      entries.foldl (fun target e => addDependency e.text target) target := by
  induction entries with
  | nil => exact fun target => rfl
  | cons e entries ih =>
    intro target
    cases entries with
    | nil =>
      have hloop := dependencyLoop_append e.comma_notMem_text [] target []
      rw [List.append_nil] at hloop
      simp only [entriesText, List.map_cons, List.map_nil, List.intercalate_singleton, List.foldl_cons, List.foldl_nil]
      rw [hloop]
      rfl
    | cons e' entries =>
      have htext : entriesText (e :: e' :: entries) = e.text ++ (',' :: entriesText (e' :: entries)) := by
        simp [entriesText]
      rw [htext, dependencyLoop_append e.comma_notMem_text, dependencyLoop, if_pos rfl, ih]
      rfl

/-- A dependency field adds its names. -/
private theorem mem_parseDependencyField (f : DependencyField) (d : String) (target : List String) :
    d ∈ parseDependencyField f.text target ↔
      d ∈ target ∨ ∃ n ∈ f.names, n ≠ [] ∧ n ≠ "R".toList ∧ d = .ofList n := by
  cases f with
  | na => simp [parseDependencyField, DependencyField.text, DependencyField.names]
  | list entries h =>
    rw [parseDependencyField, DependencyField.text, if_neg h, dependencyLoop_entriesText, mem_foldl_addDependency]
    rfl

end RpkgDatabase

/-! ### Rows -/

namespace TableRow

/-- The package of the row before the dependencies that are missing are taken out. -/
def unpruned (r : TableRow) : RPackage where
  name := .ofList r.name
  libPath := ⟨r.libPath⟩
  version := .ofList r.version
  dependencies := RpkgDatabase.parseDependencyField r.linkingTo.text
    (RpkgDatabase.parseDependencyField r.imports.text (RpkgDatabase.parseDependencyField r.depends.text []))
  isBase := r.priority == "base".toList
  needsCompilation := r.needsCompilation == "yes".toList
  repository := r.repository

private theorem mem_dependencies_unpruned (r : TableRow) (d : String) :
    d ∈ r.unpruned.dependencies ↔ ∃ n, r.DependsOn n ∧ d = .ofList n := by
  simp only [unpruned, RpkgDatabase.mem_parseDependencyField, DependsOn, List.mem_append, List.not_mem_nil, false_or]
  constructor
  · rintro ((⟨n, hn, hne, hR, rfl⟩ | ⟨n, hn, hne, hR, rfl⟩) | ⟨n, hn, hne, hR, rfl⟩)
    · exact ⟨n, ⟨.inl (.inl hn), hne, hR⟩, rfl⟩
    · exact ⟨n, ⟨.inl (.inr hn), hne, hR⟩, rfl⟩
    · exact ⟨n, ⟨.inr hn, hne, hR⟩, rfl⟩
  · rintro ⟨n, ⟨(hn | hn) | hn, hne, hR⟩, rfl⟩
    · exact .inl (.inl ⟨n, hn, hne, hR, rfl⟩)
    · exact .inl (.inr ⟨n, hn, hne, hR, rfl⟩)
    · exact .inr ⟨n, hn, hne, hR, rfl⟩

private theorem trim_text (r : TableRow) : trim r.text = r.text := by
  have htext : r.text = r.name ++ (kDelimUtf8 ++ kDelimUtf8.intercalate r.texts.tail) := by
    simp [text, RowFields.texts]
  have hlast : ∃ before, r.text = before ++ kDelimUtf8 ++ r.ref :=
    ⟨kDelimUtf8.intercalate r.texts.dropLast, by simp [text, RowFields.texts]⟩
  refine trim_eq_self (fun c hc => ?_) (fun c hc => ?_)
  · cases hname : r.name with
    | nil =>
      rw [htext, hname] at hc
      obtain rfl := Option.some.inj hc
      rfl
    | cons x name =>
      rw [htext, hname] at hc
      exact r.name_head c (by rw [hname]; exact hc)
  · obtain ⟨before, hbefore⟩ := hlast
    rw [hbefore, List.getLast?_append] at hc
    cases href : r.ref.getLast? with
    | none =>
      rw [href, Option.none_or, List.getLast?_append] at hc
      obtain rfl := Option.some.inj hc
      rfl
    | some x =>
      rw [href, Option.some_or] at hc
      exact r.ref_last c (by rw [href]; exact hc)

private theorem packageOfFields_texts (r : TableRow) :
    RpkgDatabase.packageOfFields r.texts = if r.survives then some r.unpruned else none := by
  have hgithub : stringIequals r.remoteType "github".toList = r.isGitHub := by
    have hlower : "github".toList.map Char.toLower = "github".toList := by decide
    rw [Bool.eq_iff_iff, stringIequals_iff, hlower]
    simp [isGitHub]
  have hrepo : RpkgDatabase.parseGithubRepo r.org r.repo r.ref =
      if isMissing r.org then none else if isMissing r.repo then none else
        some ⟨.ofList r.org, .ofList r.repo, .ofList (if isMissing r.ref then "HEAD".toList else r.ref)⟩ := rfl
  simp only [RowFields.texts, RpkgDatabase.packageOfFields, hgithub, hrepo, survives, unpruned, repository]
  by_cases hg : r.isGitHub = true
  · simp only [hg, if_true, Bool.not_true, Bool.false_or]
    cases isMissing r.org <;> cases isMissing r.repo <;> rfl
  · simp [hg]

private theorem parseLine_text (r : TableRow) :
    RpkgDatabase.parseLine r.text = if r.survives then some r.unpruned else none := by
  have hsplit : stringSplitN 12 r.text kDelimUtf8 = some r.texts :=
    splitN_intercalate kDelimUtf8_ne_nil unbordered_kDelimUtf8 r.texts.tail r.name r.free
  have hne : r.text.isEmpty = false := by simp [text, RowFields.texts, kDelimUtf8]
  simp only [RpkgDatabase.parseLine, trim_text, hne, hsplit, Option.bind_some, packageOfFields_texts]
  rfl

end TableRow

/-! ### The database of a table -/

namespace RpkgDatabase

/-- The rows that are not skipped. -/
def survivors (lines : List TableLine) : List TableRow := lines.filterMap TableLine.survivor

private theorem filterMap_parseLine (lines : List TableLine) :
    (lines.map TableLine.text).filterMap parseLine = (survivors lines).map TableRow.unpruned := by
  rw [survivors, List.filterMap_map, List.map_filterMap]
  refine List.filterMap_congr fun line _ => ?_
  cases line with
  | blank text h =>
    have hblank : parseLine text = none := by simp [parseLine, trim_eq_nil h]
    exact hblank
  | row r =>
    show parseLine r.text = (if r.survives then some r else none).map TableRow.unpruned
    rw [TableRow.parseLine_text]
    split <;> rfl

private theorem find_fromStream {lines : List TableLine} {text : List Char}
    (h : getLines text = lines.map TableLine.text) (n : String) : (fromStream text).find n =
      ((survivors lines).find? fun r => decide (String.ofList r.name = n)).map fun r =>
        pruned (parseLines text) r.unpruned := by
  have hparse : (parseLines text).find? (fun p => decide (p.name = n)) =
      ((survivors lines).find? fun r => decide (String.ofList r.name = n)).map TableRow.unpruned := by
    rw [parseLines_eq, h, filterMap_parseLine, Emplace.find?_foldl_emplace, List.nil_append, List.find?_map]
    rfl
  have hfind : (fromStream text).find n = ((parseLines text).find? fun p => decide (p.name = n)).map
      (pruned (parseLines text)) := by
    simp only [find, fromStream, List.find?_map]
    rfl
  rw [hfind, hparse, Option.map_map]
  rfl

private theorem isPackageOf_pruned (text : List Char) (r : TableRow) :
    IsPackageOf (fromStream text) r (pruned (parseLines text) r.unpruned) where
  name := rfl
  libPath := rfl
  version := rfl
  isBase := beq_iff_eq
  needsCompilation := beq_iff_eq
  repository := rfl
  dependencies := by
    intro d
    rw [isSome_find_fromStream, ← TableRow.mem_dependencies_unpruned]
    simp [pruned]

/-- From every text whose lines are those of a table, `from_stream` makes the database with one package for each name
that has a row that is not skipped: the package of the first one. -/
theorem fromStream_find (lines : List TableLine) (text : List Char) (h : getLines text = lines.map TableLine.text) :
    (∀ pkg ∈ (fromStream text).packages, (fromStream text).find pkg.name = some pkg) ∧
      ∀ n : String, match (survivors lines).find? fun r => decide (String.ofList r.name = n) with
        | none => (fromStream text).find n = none
        | some r => ∃ pkg, (fromStream text).find n = some pkg ∧ IsPackageOf (fromStream text) r pkg := by
  constructor
  · intro pkg hpkg
    have hsome : ((fromStream text).find pkg.name).isSome = true :=
      List.find?_isSome.2 ⟨pkg, hpkg, beq_self_eq_true _⟩
    obtain ⟨pkg', hpkg'⟩ := Option.isSome_iff_exists.1 hsome
    rw [hpkg', eq_of_name_eq _ (find_mem hpkg') hpkg (find_name hpkg')]
  · intro n
    have hfind := find_fromStream h n
    cases hrow : (survivors lines).find? fun r => decide (String.ofList r.name = n) with
    | none =>
      rw [hrow] at hfind
      exact hfind
    | some r =>
      rw [hrow] at hfind
      exact ⟨_, hfind, isPackageOf_pruned text r⟩

/-- The entry `name (constraint)` behind a blank. -/
def entryB : DependencyEntry where
  before := [' ']
  name := ['B']
  constraint := some ([' '], ">= 1.0".toList)
  after := []
  before_blank := List.all_eq_true.1 (by decide)
  name_free := by
    intro c hc
    obtain rfl := List.mem_singleton.1 hc
    decide
  constraint_free := by
    rintro k ⟨⟩
    exact ⟨List.all_eq_true.1 (by decide), by decide +kernel⟩
  after_blank := by simp

def entryR : DependencyEntry :=
  { entryB with
    name := ['R']
    name_free := by
      intro c hc
      obtain rfl := List.mem_singleton.1 hc
      decide }

/-- The package `A`, which depends on `B` and on `R`. -/
def rowA : TableRow where
  name := ['A']
  libPath := "/usr/lib/R/library".toList
  version := "1.1".toList
  depends := .list [entryR] (by decide +kernel)
  imports := .list [entryB] (by decide +kernel)
  linkingTo := .na
  priority := "NA".toList
  needsCompilation := "yes".toList
  remoteType := "NA".toList
  org := "NA".toList
  repo := "NA".toList
  ref := ['N', 'A']
  free := by decide +kernel
  name_head := by
    rintro c ⟨⟩
    decide
  ref_last := by
    rintro c ⟨⟩
    decide

/-- The package `B` from GitHub, of an organisation that is not given. -/
def rowB : TableRow :=
  { rowA with
    name := ['B']
    imports := .na
    remoteType := "GitHub".toList
    free := by decide +kernel
    name_head := by
      rintro c ⟨⟩
      decide }

/-- The table with `A`, a blank line, `B` without its organisation, `B` from CRAN, and `A` again. -/
def tableAB : List TableLine :=
  [.row rowA, .blank [' '] (List.all_eq_true.1 (by decide)), .row rowB,
    .row { rowB with remoteType := "NA".toList, free := by decide +kernel },
    .row { rowA with version := "2.0".toList, free := by decide +kernel }]

theorem fromStream_find_tableAB :
    ∃ pkg, (fromStream (unlines (tableAB.map TableLine.text))).find "A" = some pkg ∧
      IsPackageOf (fromStream (unlines (tableAB.map TableLine.text))) rowA pkg :=
  (fromStream_find tableAB (unlines (tableAB.map TableLine.text))
    (getLines_unlines (by decide +kernel))).2 "A"

end RpkgDatabase

end R4R
