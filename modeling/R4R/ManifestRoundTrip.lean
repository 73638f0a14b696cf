import R4R.ManifestSection

/-!
# Reading a saved manifest

What `load_manifest` makes of the text that `save_manifest` writes: every copied or result file comes back under its
path up to the first comment sign and without the white space at its end.
-/

namespace R4R

open Lines

namespace ManifestFormat

/-! ### Lines -/

private theorem comment_notMem_takeWhile (l : List Char) : comment ∉ l.takeWhile (· ≠ comment) := by
  intro h
  have := List.mem_takeWhile_imp h
  simp at this

theorem comment_notMem_stripLine (l : List Char) : comment ∉ stripLine l :=
  fun h => comment_notMem_takeWhile l (trim_subset _ _ h)

/-- Nothing is left of a comment. -/
theorem stripLine_comment (ws : List Char) (hws : ws.all isSpace = true) (rest : List Char) :
    stripLine (ws ++ comment :: rest) = [] := by
  apply trim_eq_nil
  intro c hc
  rw [List.takeWhile_append_of_pos] at hc
  · simp at hc
    exact List.all_eq_true.1 hws c hc
  · intro d hd
    have : d ≠ comment := by
      rintro rfl
      exact absurd (List.all_eq_true.1 hws _ hd) (by decide)
    simpa using this

/-- A line that goes to the content of a section. -/
structure IsContent (t : List Char) : Prop where
  ne_nil : t ≠ []
  not_header : isSectionHeader t = false
  newline_notMem : '\n' ∉ t

/-- A content with the given lines. -/
structure ContentOf (content : List Char) (ts : List (List Char)) : Prop where
  lines : getLines content = ts
  last : content.getLast? ≠ some '\n'

private theorem contentOf_nil : ContentOf [] [] := ⟨rfl, by simp⟩

private theorem appendLine_spec {t : List Char} (ht : IsContent t) (hcomment : comment ∉ t) {s : Section}
    {ts : List (List Char)} (hs : ContentOf s.content ts) :
    (appendLine t s).name = s.name ∧ ContentOf (appendLine t s).content (ts ++ [t]) := by
  have hhead : t.head? ≠ some comment := by
    intro h
    exact hcomment (List.mem_of_mem_head? h)
  have hlast : t.getLast? ≠ some '\n' := by
    intro h
    exact ht.newline_notMem (List.mem_of_getLast? h)
  have happend : appendLine t s = { s with content := (if s.content.isEmpty then s.content
      else s.content ++ ['\n']) ++ t } := by
    simp only [appendLine, if_neg hhead, if_neg hcomment]
  rw [happend]
  refine ⟨rfl, ?_, ?_⟩
  · have hline := getLines_singleton ht.ne_nil ht.newline_notMem
    cases hc : s.content with
    | nil =>
      have hts : [] = ts := by
        have := hs.lines
        rwa [hc] at this
      simp [← hts, hline]
    | cons c cs =>
      have hne : s.content ≠ [] := by simp [hc]
      have h := linesFrom_append_newline t s.content hne hs.last []
      rw [hline] at h
      rw [← hc, ← hs.lines]
      simpa [hne, getLines] using h
  · simp [List.getLast?_append, ht.ne_nil, hlast]

/-! ### Reading the lines -/

private theorem readLine_blank (st : ManifestFormat × Bool) {l : List Char} (h : stripLine l = []) :
    readLine st l = .ok st := by
  simp [readLine, h]

theorem foldlM_readLine_blank {ls : List (List Char)} (h : ∀ l ∈ ls, stripLine l = []) (st : ManifestFormat × Bool) :
    ls.foldlM readLine st = .ok st := by
  induction ls with
  | nil => rfl
  | cons l ls ih =>
    rw [List.foldlM_cons, readLine_blank st (h l (by simp)), Except.ok_bind]
    exact ih fun l' hl' => h l' (by simp [hl'])

/-- The body of the only section. -/
private theorem foldlM_readLine_body {ls : List (List Char)} (h : ∀ l ∈ ls, stripLine l = [] ∨ IsContent (stripLine l))
    (preamble : List Char) : ∀ {s : Section} {ts : List (List Char)}, ContentOf s.content ts →
    ∃ content, ls.foldlM readLine (⟨preamble, [s]⟩, true) = .ok (⟨preamble, [⟨s.name, content⟩]⟩, true) ∧
      ContentOf content (ts ++ (ls.map stripLine).filter (!·.isEmpty)) := by
  induction ls with
  | nil =>
    intro s ts hs
    exact ⟨s.content, rfl, by simpa using hs⟩
  | cons l ls ih =>
    intro s ts hs
    have hls : ∀ l' ∈ ls, stripLine l' = [] ∨ IsContent (stripLine l') := fun l' hl' => h l' (by simp [hl'])
    rw [List.foldlM_cons]
    rcases h l (by simp) with hl | hl
    · obtain ⟨content, hread, hcontent⟩ := ih hls hs
      refine ⟨content, by rw [readLine_blank _ hl, Except.ok_bind]; exact hread, ?_⟩
      simpa [hl] using hcontent
    · obtain ⟨hname, hs'⟩ := appendLine_spec hl (comment_notMem_stripLine l) hs
      have hne : (stripLine l).isEmpty = false := by simpa using hl.ne_nil
      have hstep : readLine (⟨preamble, [s]⟩, true) l = .ok (⟨preamble, [appendLine (stripLine l) s]⟩, true) := by
        simp [readLine, hne, hl.not_header]
        rfl
      obtain ⟨content, hread, hcontent⟩ := ih hls hs'
      rw [hname] at hread
      refine ⟨content, by rw [hstep, Except.ok_bind]; exact hread, ?_⟩
      simpa [hl.ne_nil, List.append_assoc] using hcontent

/-- A text with one section. -/
private theorem foldlM_readLine_section {start ls finish : List (List Char)} {header name : List Char}
    (hstart : ∀ l ∈ start, stripLine l = []) (hfinish : ∀ l ∈ finish, stripLine l = [])
    (hheader : readLine ({}, false) header = .ok (⟨[], [⟨name, []⟩]⟩, true))
    (h : ∀ l ∈ ls, stripLine l = [] ∨ IsContent (stripLine l)) :
    ∃ content, (start ++ header :: (ls ++ finish)).foldlM readLine ({}, false) =
        .ok (⟨[], [⟨name, content⟩]⟩, true) ∧ ContentOf content ((ls.map stripLine).filter (!·.isEmpty)) := by
  obtain ⟨content, hread, hcontent⟩ := foldlM_readLine_body h [] (s := ⟨name, []⟩) contentOf_nil
  refine ⟨content, ?_, hcontent⟩
  rw [List.foldlM_append, foldlM_readLine_blank hstart, Except.ok_bind, List.foldlM_cons, hheader, Except.ok_bind,
    List.foldlM_append, hread, Except.ok_bind, foldlM_readLine_blank hfinish]

end ManifestFormat

namespace CopyFilesManifestSection

/-- The files that the copy section is about. -/
def IsCopied (e : Path × FileStatus) : Prop := e.2 = .copy ∨ e.2 = .result

instance (e : Path × FileStatus) : Decidable (IsCopied e) := inferInstanceAs (Decidable (_ ∨ _))

/-- What comes back of a path. -/
def keptPath (p : Path) : Path := ⟨(p.native.takeWhile (· ≠ ManifestFormat.comment)).rdropWhile isSpace⟩

/-- The line of a file, without indentation and comment. -/
def entryLine (e : Path × FileStatus) : List Char :=
  (if e.2 = .copy then 'C' else 'R') :: ' ' :: (keptPath e.1).native

private theorem keptPath_head {p : Path} (h : p.isAbsolute = true) :
    ∃ rest, p.native.takeWhile (· ≠ ManifestFormat.comment) = '/' :: rest ∧
      ∃ kept, (keptPath p).native = '/' :: kept := by
  obtain ⟨native⟩ := p
  cases native with
  | nil => cases h
  | cons c native =>
    have hc : c = '/' := by simpa [Path.isAbsolute] using h
    subst hc
    have htake : List.takeWhile (· ≠ ManifestFormat.comment) ('/' :: native) =
        '/' :: native.takeWhile (· ≠ ManifestFormat.comment) := rfl
    refine ⟨_, htake, ?_⟩
    have hne := rdropWhile_ne_nil (p := isSpace) (List.mem_cons_self (a := '/')
      (l := native.takeWhile (· ≠ ManifestFormat.comment))) rfl
    have hkept : (keptPath ⟨'/' :: native⟩).native =
        ('/' :: native.takeWhile (· ≠ ManifestFormat.comment)).rdropWhile isSpace := by
      rw [keptPath, htake]
    obtain ⟨rest, hrest⟩ := List.rdropWhile_prefix isSpace ('/' :: native.takeWhile (· ≠ ManifestFormat.comment))
    rw [hkept]
    cases hd : ('/' :: native.takeWhile (· ≠ ManifestFormat.comment)).rdropWhile isSpace with
    | nil => exact absurd hd hne
    | cons d kept =>
      rw [hd] at hrest
      exact ⟨kept, by rw [(List.cons.inj hrest).1]⟩

private theorem stripLine_entry {p : Path} (h : p.isAbsolute = true) {c : Char} (hc : isSpace c = false)
    (hcomment : c ≠ ManifestFormat.comment) :
    ManifestFormat.stripLine ("  ".toList ++ (c :: ' ' :: p.native)) = c :: ' ' :: (keptPath p).native := by
  obtain ⟨rest, htake, kept, hkept⟩ := keptPath_head h
  have hwhole : ("  ".toList ++ (c :: ' ' :: p.native)).takeWhile (· ≠ ManifestFormat.comment) =
      "  ".toList ++ c :: [' '] ++ p.native.takeWhile (· ≠ ManifestFormat.comment) := by
    have hblank : ' ' ≠ ManifestFormat.comment := by decide
    show List.takeWhile _ (' ' :: ' ' :: c :: ' ' :: p.native) = ' ' :: ' ' :: c :: ' ' :: _
    simp [hblank, hcomment]
  have hne : (p.native.takeWhile (· ≠ ManifestFormat.comment)).rdropWhile isSpace ≠ [] := by
    have : (keptPath p).native ≠ [] := by simp [hkept]
    exact this
  unfold ManifestFormat.stripLine
  rw [hwhole, trim_append (by decide) hc hne]
  rfl

/-- A line of a file is no section header: it has a blank. -/
private theorem isContent_entry {p : Path} (h : p.isAbsolute = true) (hnl : '\n' ∉ p.native) {c : Char}
    (hc : c ≠ '\n') :
    ManifestFormat.IsContent (c :: ' ' :: (keptPath p).native) := by
  obtain ⟨-, -, kept, hkept⟩ := keptPath_head h
  refine ⟨by simp, ?_, ?_⟩
  · unfold ManifestFormat.isSectionHeader
    have hvalid : ManifestFormat.isValidSectionName (c :: ' ' :: (keptPath p).native).dropLast = false := by
      rw [hkept]
      simp [ManifestFormat.isValidSectionName]
    rw [hvalid, Bool.and_false]
  · simp only [List.mem_cons, not_or]
    refine ⟨fun he => hc he.symm, by decide, fun hmem => hnl ?_⟩
    have hmem' := (List.rdropWhile_prefix _ _).subset hmem
    exact (List.takeWhile_prefix _).subset hmem'

/-- A line is loaded as the file it was written for. -/
private theorem loadLine_entry (files : Files) {e : Path × FileStatus} (he : IsCopied e)
    (habs : e.1.isAbsolute = true) :
    loadLine files (entryLine e) = files.emplace (keptPath e.1) e.2 := by
  obtain ⟨p, st⟩ := e
  obtain ⟨-, -, kept, hkept⟩ := keptPath_head habs
  have htrim : trim (' ' :: (keptPath p).native) = (keptPath p).native := by
    have hidem : (keptPath p).native.rdropWhile isSpace = (keptPath p).native :=
      List.rdropWhile_idempotent isSpace _
    unfold trim
    have hdrop : (' ' :: (keptPath p).native).dropWhile isSpace = (keptPath p).native := by
      rw [hkept]
      rfl
    rw [hdrop, hidem]
  have hpath : ∀ c : Char, pathOfLine (c :: ' ' :: (keptPath p).native) = some (keptPath p) := by
    intro c
    have hquote : (keptPath p).native.head? ≠ some '"' := by simp [hkept]
    unfold pathOfLine
    simp only [List.drop_succ_cons, List.drop_zero, htrim, if_neg hquote]
  rcases he with hst | hst
  · obtain rfl : st = .copy := hst
    simp only [loadLine, entryLine, if_true, List.head?_cons, hpath]
  · obtain rfl : st = .result := hst
    simp only [loadLine, entryLine, hpath]
    rfl

/-! ### The text of the section -/

/-- The lines of a file in the section. -/
def fileLines (e : Path × FileStatus) : List (List Char) :=
  match e.2 with
  | .copy => ["C ".toList ++ e.1.native]
  | .result => ["R ".toList ++ e.1.native]
  | .ignoreNoLongerExist => []
  | status => [ManifestFormat.comment :: ' ' :: e.1.native ++ [' ', ManifestFormat.comment, ' '] ++ status.text]

def sectionLines (files : Files) : List (List Char) :=
  helpLines.map (ManifestFormat.prefixedComment ++ ·) ++ (sortedFiles files).flatMap fileLines

private theorem fileText_eq (e : Path × FileStatus) : fileText e = unlines (fileLines e) := by
  obtain ⟨p, st⟩ := e
  cases st <;> simp [fileText, fileLines]

private theorem newline_notMem_fileLines {e : Path × FileStatus} (h : '\n' ∉ e.1.native) :
    ∀ l ∈ fileLines e, '\n' ∉ l := by
  obtain ⟨p, st⟩ := e
  have htext : ∀ st : FileStatus, '\n' ∉ st.text := by
    intro st
    cases st <;> decide
  intro l hl
  cases st with
  | copy =>
    obtain rfl := List.mem_singleton.1 hl
    simpa using h
  | result =>
    obtain rfl := List.mem_singleton.1 hl
    simpa using h
  | ignoreNoLongerExist => cases hl
  | _ =>
    obtain rfl := List.mem_singleton.1 hl
    simpa [ManifestFormat.comment, htext] using h

/-- A string, by its characters. -/
private theorem newline_notMem_string {text : List Char} (h : text.contains '\n' = false) :
    '\n' ∉ (String.ofList text).toList := by
  rw [String.toList_ofList]
  exact fun hmem => absurd (List.contains_iff_mem.2 hmem) (by rw [h]; decide)

private theorem newline_notMem_helpLines : ∀ l ∈ helpLines, '\n' ∉ l := by
  unfold helpLines
  simp only [List.forall_mem_cons]
  exact ⟨newline_notMem_string rfl, newline_notMem_string rfl, newline_notMem_string rfl,
    newline_notMem_string rfl, fun _ h => absurd h List.not_mem_nil⟩

private theorem newline_notMem_comment {l : List Char} (h : '\n' ∉ l) :
    '\n' ∉ ManifestFormat.prefixedComment ++ l := by
  rw [List.mem_append, not_or]
  exact ⟨by decide, h⟩

private theorem newline_notMem_sectionLines {files : Files} (h : ∀ e ∈ files.entries, '\n' ∉ e.1.native) :
    ∀ l ∈ sectionLines files, '\n' ∉ l := by
  intro l hl
  rcases List.mem_append.1 hl with hl | hl
  · obtain ⟨l', hl', rfl⟩ := List.mem_map.1 hl
    exact newline_notMem_comment (newline_notMem_helpLines l' hl')
  · obtain ⟨e, he, hl⟩ := List.mem_flatMap.1 hl
    exact newline_notMem_fileLines (h e ((List.mem_insertionSort _).1 he)) l hl

private theorem save_eq {m : Manifest} (hne : m.copyFiles.entries ≠ []) :
    save m = some (unlines (sectionLines m.copyFiles)) := by
  have hhelp : withPrefixedOstream ManifestFormat.prefixedComment (unlines helpLines) =
      unlines (helpLines.map (ManifestFormat.prefixedComment ++ ·)) :=
    withPrefixedOstream_unlines newline_notMem_helpLines _
  have hfiles : (sortedFiles m.copyFiles).flatMap fileText =
      unlines ((sortedFiles m.copyFiles).flatMap fileLines) := by
    have hfun : fileText = fun e => unlines (fileLines e) := funext fileText_eq
    rw [hfun]
    exact List.flatMap_assoc.symm
  have hempty : m.copyFiles.entries.isEmpty = false := by simpa using hne
  rw [save, hempty, hhelp, hfiles, ← unlines_append]
  rfl

/-- What the manifest format keeps of the lines of a file. -/
private theorem stripLine_fileLines {e : Path × FileStatus} (habs : e.1.isAbsolute = true) :
    (fileLines e).map (fun l => ManifestFormat.stripLine ("  ".toList ++ l)) =
      if IsCopied e then [entryLine e] else (fileLines e).map fun _ => [] := by
  obtain ⟨p, st⟩ := e
  cases st with
  | copy =>
    rw [if_pos (.inl rfl)]
    exact congrArg (fun l => [l]) (stripLine_entry habs (by decide) (by decide))
  | result =>
    rw [if_pos (.inr rfl)]
    exact congrArg (fun l => [l]) (stripLine_entry habs (by decide) (by decide))
  | ignoreNoLongerExist => rfl
  | _ => exact congrArg (fun l => [l]) (ManifestFormat.stripLine_comment "  ".toList (by decide) _)

end CopyFilesManifestSection

namespace EditManifestTask

open CopyFilesManifestSection

def preambleLines : List (List Char) :=
  [ManifestFormat.prefixedComment ++ preambleLine₁, ManifestFormat.prefixedComment ++ preambleLine₂, []]

/-- The lines of the whole manifest. -/
def manifestLines (files : Files) : List (List Char) :=
  preambleLines ++ "copy:".toList :: ((sectionLines files).map ("  ".toList ++ ·) ++ [[], []])

private theorem newline_notMem_preamble : ('\n' ∉ preambleLine₁ ∧ '\n' ∉ preambleLine₂) ∧ preambleLine₂ ≠ [] := by
  refine ⟨⟨newline_notMem_string rfl, newline_notMem_string rfl⟩, ?_⟩
  rw [show preambleLine₂ = _ from String.toList_ofList]
  exact List.cons_ne_nil _ _

private theorem saveManifest_eq {m : Manifest} (hne : m.copyFiles.entries ≠ [])
    (hnl : ∀ e ∈ m.copyFiles.entries, '\n' ∉ e.1.native) :
    saveManifest m = .ok (unlines (manifestLines m.copyFiles), true) := by
  have hsave := save_eq hne
  have hsections : sections.foldlM (addSections m) ({ preamble := preamble }, false) =
      .ok (⟨preamble, [⟨"copy".toList, unlines (sectionLines m.copyFiles)⟩]⟩, true) := by
    show (addSections m ({ preamble := preamble }, false) asSection).bind _ = _
    have hadd : addSections m ({ preamble := preamble }, false) asSection =
        .ok (⟨preamble, [⟨"copy".toList, unlines (sectionLines m.copyFiles)⟩]⟩, true) := by
      unfold addSections
      simp only [asSection, hsave]
      rfl
    rw [hadd]
    rfl
  have hpreamble : withPrefixedOstream ManifestFormat.prefixedComment preamble =
      unlines ([preambleLine₁].map (ManifestFormat.prefixedComment ++ ·)) ++ ManifestFormat.prefixedComment ++
        preambleLine₂ :=
    withPrefixedOstream_unlines_append (List.forall_mem_singleton.2 newline_notMem_preamble.1.1)
      newline_notMem_preamble.1.2 newline_notMem_preamble.2 _
  have hcontent := withPrefixedOstream_unlines (newline_notMem_sectionLines hnl) "  ".toList
  have hwrite : ManifestFormat.write ⟨preamble, [⟨"copy".toList, unlines (sectionLines m.copyFiles)⟩]⟩ =
      unlines (manifestLines m.copyFiles) := by
    have hne : preamble.isEmpty = false :=
      List.isEmpty_eq_false_iff.2 (List.append_ne_nil_of_right_ne_nil _ newline_notMem_preamble.2)
    unfold ManifestFormat.write
    rw [hpreamble]
    simp only [hne, List.flatMap_cons, List.flatMap_nil]
    rw [hcontent, manifestLines, preambleLines]
    simp
  rw [saveManifest, hsections, Except.ok_bind]
  exact congrArg (fun text => Except.ok (text, true)) hwrite

private theorem newline_notMem_manifestLines {files : Files} (h : ∀ e ∈ files.entries, '\n' ∉ e.1.native) :
    ∀ l ∈ manifestLines files, '\n' ∉ l := by
  intro l hl
  rcases List.mem_append.1 hl with hl | hl
  · simp only [preambleLines, List.mem_cons, List.not_mem_nil, or_false] at hl
    rcases hl with rfl | rfl | rfl
    · exact newline_notMem_comment newline_notMem_preamble.1.1
    · exact newline_notMem_comment newline_notMem_preamble.1.2
    · exact List.not_mem_nil
  · rcases List.mem_cons.1 hl with rfl | hl
    · decide
    · rcases List.mem_append.1 hl with hl | hl
      · obtain ⟨l', hl', rfl⟩ := List.mem_map.1 hl
        simpa using newline_notMem_sectionLines h l' hl'
      · have htail : ∀ l ∈ ([[], []] : List (List Char)), '\n' ∉ l := by decide
        exact htail l hl

private theorem stripLine_helpLines {l : List Char} (hl : l ∈ helpLines.map (ManifestFormat.prefixedComment ++ ·)) :
    ManifestFormat.stripLine ("  ".toList ++ l) = [] := by
  obtain ⟨l', -, rfl⟩ := List.mem_map.1 hl
  exact ManifestFormat.stripLine_comment "  ".toList (by decide) (' ' :: l')

/-- Every line of the section is a comment or the line of a file. -/
private theorem isContent_sectionLines {files : Files} (habs : ∀ e ∈ files.entries, e.1.isAbsolute = true)
    (hnl : ∀ e ∈ files.entries, '\n' ∉ e.1.native) {l : List Char} (hl : l ∈ sectionLines files) :
    ManifestFormat.stripLine ("  ".toList ++ l) = [] ∨
      ManifestFormat.IsContent (ManifestFormat.stripLine ("  ".toList ++ l)) := by
  rcases List.mem_append.1 hl with hl | hl
  · exact .inl (stripLine_helpLines hl)
  · obtain ⟨e, he, hl⟩ := List.mem_flatMap.1 hl
    have hmem : e ∈ files.entries := (List.mem_insertionSort _).1 he
    have hstrip := List.mem_map_of_mem (f := fun l => ManifestFormat.stripLine ("  ".toList ++ l)) hl
    rw [stripLine_fileLines (habs e hmem)] at hstrip
    split at hstrip
    · right
      rw [List.mem_singleton.1 hstrip]
      apply isContent_entry (habs e hmem) (hnl e hmem)
      split <;> decide
    · left
      obtain ⟨-, -, heq⟩ := List.mem_map.1 hstrip
      exact heq.symm

/-- What the manifest format keeps of the copy section. -/
private theorem strip_sectionLines {files : Files} (habs : ∀ e ∈ files.entries, e.1.isAbsolute = true) :
    (((sectionLines files).map ("  ".toList ++ ·)).map ManifestFormat.stripLine).filter (!·.isEmpty) =
      ((sortedFiles files).filter (IsCopied ·)).map entryLine := by
  have hhelp : ((helpLines.map (ManifestFormat.prefixedComment ++ ·)).map
      fun l => ManifestFormat.stripLine ("  ".toList ++ l)).filter (!·.isEmpty) = [] := by
    rw [List.filter_eq_nil_iff]
    intro l hl
    obtain ⟨l', hl', rfl⟩ := List.mem_map.1 hl
    rw [stripLine_helpLines hl']
    simp
  have hfiles : ∀ es : List (Path × FileStatus), (∀ e ∈ es, e.1.isAbsolute = true) →
      ((es.flatMap fileLines).map fun l => ManifestFormat.stripLine ("  ".toList ++ l)).filter (!·.isEmpty) =
        (es.filter (IsCopied ·)).map entryLine := by
    intro es
    induction es with
    | nil => intro _; rfl
    | cons e es ih =>
      intro h
      rw [List.flatMap_cons, List.map_append, List.filter_append, ih fun e' he' => h e' (by simp [he']),
        stripLine_fileLines (h e (by simp))]
      by_cases hc : IsCopied e
      · simp [hc, entryLine]
      · simp [hc]
  have hsorted : ∀ e ∈ sortedFiles files, e.1.isAbsolute = true :=
    fun e he => habs e ((List.mem_insertionSort _).1 he)
  rw [List.map_map, sectionLines, List.map_append, List.filter_append]
  have happ := hfiles (sortedFiles files) hsorted
  have hcomp : ManifestFormat.stripLine ∘ ("  ".toList ++ ·) =
      fun l => ManifestFormat.stripLine ("  ".toList ++ l) := rfl
  rw [hcomp, hhelp, happ]
  rfl

private theorem stripLine_preambleLines : ∀ l ∈ preambleLines, ManifestFormat.stripLine l = [] := by
  intro l hl
  have hcomment : ∀ text, ManifestFormat.prefixedComment ++ text = ManifestFormat.comment :: ' ' :: text :=
    fun _ => rfl
  rcases List.mem_cons.1 hl with rfl | hl
  · rw [hcomment]
    exact ManifestFormat.stripLine_comment [] rfl _
  · rcases List.mem_cons.1 hl with rfl | hl
    · rw [hcomment]
      exact ManifestFormat.stripLine_comment [] rfl _
    · obtain rfl := List.mem_singleton.1 hl
      rfl

private theorem read_manifestLines {files : Files} (habs : ∀ e ∈ files.entries, e.1.isAbsolute = true)
    (hnl : ∀ e ∈ files.entries, '\n' ∉ e.1.native) :
    ∃ content, ManifestFormat.read {} (unlines (manifestLines files)) = .ok ⟨[], [⟨"copy".toList, content⟩]⟩ ∧
      getLines content = ((sortedFiles files).filter (IsCopied ·)).map entryLine := by
  have hheader : ManifestFormat.readLine ({}, false) "copy:".toList = .ok (⟨[], [⟨"copy".toList, []⟩]⟩, true) := by
    decide
  have hbody : ∀ l ∈ (sectionLines files).map ("  ".toList ++ ·),
      ManifestFormat.stripLine l = [] ∨ ManifestFormat.IsContent (ManifestFormat.stripLine l) := by
    intro l hl
    obtain ⟨l', hl', rfl⟩ := List.mem_map.1 hl
    exact isContent_sectionLines habs hnl hl'
  have hfinish : ∀ l ∈ ([[], []] : List (List Char)), ManifestFormat.stripLine l = [] := by decide
  obtain ⟨content, hread, hcontent⟩ :=
    ManifestFormat.foldlM_readLine_section stripLine_preambleLines hfinish hheader hbody
  refine ⟨content, ?_, ?_⟩
  · rw [ManifestFormat.read, getLines_unlines (newline_notMem_manifestLines hnl), manifestLines, hread]
    rfl
  · rw [hcontent.lines, strip_sectionLines habs]

/-! ### The round trip -/

/-- The files that a saved manifest has for `load_manifest`. -/
def restored (files : Files) : List (Path × FileStatus) :=
  ((sortedFiles files).filter (IsCopied ·)).map fun e => (keptPath e.1, e.2)

private theorem foldl_loadLine {es : List (Path × FileStatus)} (h : ∀ e ∈ es, IsCopied e ∧ e.1.isAbsolute = true) :
    ∀ files : Files, ((es.map entryLine).foldl loadLine files).entries =
      (es.map fun e => (keptPath e.1, e.2)).foldl (Emplace.emplace fun e => e.1.parts) files.entries := by
  induction es with
  | nil => intro files; rfl
  | cons e es ih =>
    intro files
    obtain ⟨hc, habs⟩ := h e (by simp)
    rw [List.map_cons, List.foldl_cons, loadLine_entry files hc habs, ih fun e' he' => h e' (by simp [he'])]
    rfl

private theorem loadManifest_saved {m : Manifest} (habs : ∀ e ∈ m.copyFiles.entries, e.1.isAbsolute = true)
    (hnl : ∀ e ∈ m.copyFiles.entries, '\n' ∉ e.1.native) :
    ∃ m', loadManifest (unlines (manifestLines m.copyFiles)) m = .ok m' ∧
      m'.copyFiles.entries = (restored m.copyFiles).foldl (Emplace.emplace fun e => e.1.parts) [] := by
  obtain ⟨content, hread, hlines⟩ := read_manifestLines habs hnl
  refine ⟨load content m, ?_, ?_⟩
  · rw [loadManifest, hread]
    rfl
  · have h : ∀ e ∈ (sortedFiles m.copyFiles).filter (IsCopied ·), IsCopied e ∧ e.1.isAbsolute = true := by
      intro e he
      obtain ⟨hmem, hc⟩ := List.mem_filter.1 he
      exact ⟨by simpa using hc, habs e ((List.mem_insertionSort _).1 hmem)⟩
    show ((getLines content).foldl loadLine Files.empty).entries = _
    rw [hlines]
    exact foldl_loadLine h Files.empty

/-- The loaded map has exactly the copied and the result files of the original, with their statuses. -/
def SameCopied (loaded original : Files) : Prop := ∀ parts status,
  (∃ e ∈ loaded.entries, e.1.parts = parts ∧ e.2 = status) ↔
    ∃ e ∈ original.entries, IsCopied e ∧ e.1.parts = parts ∧ e.2 = status

/-- A path whose text survives the manifest format. -/
def Survives (p : Path) : Prop :=
  ManifestFormat.comment ∉ p.native ∧ ∀ c ∈ p.native.getLast?, isSpace c = false

instance (p : Path) : Decidable (Survives p) :=
  have := Option.decidableForallMem (p := fun c => isSpace c = false) p.native.getLast?
  instDecidableAnd

private theorem keptPath_of_survives {p : Path} (h : Survives p) : keptPath p = p := by
  obtain ⟨native⟩ := p
  have htake : native.takeWhile (· ≠ ManifestFormat.comment) = native := by
    apply List.takeWhile_eq_self_iff.2
    intro c hc
    have : c ≠ ManifestFormat.comment := by
      rintro rfl
      exact h.1 hc
    simpa using this
  have hdrop : native.rdropWhile isSpace = native := by
    apply (List.rdropWhile_eq_self_iff ..).2
    intro hne
    have := h.2 _ (List.getLast?_eq_some_getLast hne)
    simp [this]
  rw [keptPath, htake, hdrop]

/-- What comes back survives, also when its elements are compared. -/
private theorem survives_of_parts_eq {p q : Path} (h : (keptPath q).parts = p.parts) : Survives p := by
  constructor
  · intro hmem
    obtain ⟨s, hs, hcs⟩ := (Path.mem_parts (by decide) p).2 hmem
    rw [← h] at hs
    have hkept := (Path.mem_parts (by decide) (keptPath q)).1 ⟨s, hs, hcs⟩
    exact ManifestFormat.comment_notMem_takeWhile _ ((List.rdropWhile_prefix _ _).subset hkept)
  · intro c hc
    by_cases hslash : c = '/'
    · rw [hslash]
      rfl
    · obtain ⟨s, hs, hsc⟩ := (Path.getLast?_parts hslash p).2 hc
      rw [← h] at hs
      exact getLast?_rdropWhile ((Path.getLast?_parts hslash (keptPath q)).1 ⟨s, hs, hsc⟩)

/-! ### The files that are written -/

private theorem mem_copiedFiles {files : Files} {e : Path × FileStatus} :
    e ∈ (sortedFiles files).filter (IsCopied ·) ↔ e ∈ files.entries ∧ IsCopied e := by
  rw [List.mem_filter, sortedFiles, List.mem_insertionSort, decide_eq_true_iff]

private theorem nodup_copiedFiles (files : Files) :
    (((sortedFiles files).filter (IsCopied ·)).map fun e => e.1.parts).Nodup := by
  have hsorted : ((sortedFiles files).map fun e => e.1.parts).Nodup :=
    ((List.perm_insertionSort _ _).map _).nodup_iff.2 files.nodup
  exact hsorted.sublist (List.filter_sublist.map _)

/-- Paths that survive are read back as they were written. -/
private theorem restored_of_survives {files : Files} (hall : ∀ e ∈ files.entries, IsCopied e → Survives e.1) :
    restored files = (sortedFiles files).filter (IsCopied ·) := by
  have hid : ∀ e ∈ (sortedFiles files).filter (IsCopied ·), (keptPath e.1, e.2) = e := by
    intro e he
    obtain ⟨hmem, hc⟩ := mem_copiedFiles.1 he
    rw [keptPath_of_survives (hall e hmem hc)]
  unfold restored
  exact (List.map_congr_left hid).trans (List.map_id _)

/-- A saved manifest whose paths are absolute and have no newline is read back as it was exactly when no path of a
copied or a result file has a comment sign or ends in white space. -/
theorem load_save_iff (m : Manifest) (habs : ∀ e ∈ m.copyFiles.entries, e.1.isAbsolute = true)
    (hnl : ∀ e ∈ m.copyFiles.entries, '\n' ∉ e.1.native) :
    (∃ text anyContent m', saveManifest m = .ok (text, anyContent) ∧ loadManifest text m = .ok m' ∧
      SameCopied m'.copyFiles m.copyFiles) ↔
      ∀ e ∈ m.copyFiles.entries, IsCopied e → Survives e.1 := by
  by_cases hempty : m.copyFiles.entries = []
  · -- nothing is written, and nothing is read
    have hsave : saveManifest m = .ok ([], false) := by
      have h : save m = none := by simp [save, hempty]
      simp [saveManifest, sections, addSections, asSection, h]
    constructor
    · intro _ e he
      rw [hempty] at he
      cases he
    · intro _
      refine ⟨[], false, m, hsave, rfl, ?_⟩
      intro parts status
      simp [hempty]
  · obtain ⟨m', hload, hentries⟩ := loadManifest_saved habs hnl
    constructor
    · rintro ⟨text, anyContent, m'', hsave, hload', hsame⟩ e he hc
      rw [saveManifest_eq hempty hnl] at hsave
      obtain ⟨rfl, -⟩ := Prod.mk.inj (Except.ok.inj hsave)
      rw [hload] at hload'
      obtain rfl := Except.ok.inj hload'
      obtain ⟨e', he', hparts, -⟩ := (hsame e.1.parts e.2).2 ⟨e, he, hc, rfl, rfl⟩
      rw [hentries] at he'
      rcases Emplace.mem_foldl_emplace he' with he' | he'
      · cases he'
      · obtain ⟨e'', -, rfl⟩ := List.mem_map.1 he'
        exact survives_of_parts_eq hparts
    · intro hall
      refine ⟨_, _, m', saveManifest_eq hempty hnl, hload, ?_⟩
      have hnodup : ((([] : List (Path × FileStatus)) ++ restored m.copyFiles).map fun e => e.1.parts).Nodup := by
        rw [List.nil_append, restored_of_survives hall]
        exact nodup_copiedFiles m.copyFiles
      rw [Emplace.foldl_emplace_of_nodup hnodup, List.nil_append, restored_of_survives hall] at hentries
      intro parts status
      rw [hentries]
      constructor
      · rintro ⟨e, he, hp, hst⟩
        obtain ⟨hmem, hc⟩ := mem_copiedFiles.1 he
        exact ⟨e, hmem, hc, hp, hst⟩
      · rintro ⟨e, he, hc, hp, hst⟩
        exact ⟨e, mem_copiedFiles.2 ⟨he, hc⟩, hp, hst⟩

/-- A manifest of one copied file. -/
def copyOf (path : String) : Manifest := ⟨⟨[(.ofString path, .copy)], List.nodup_singleton _⟩⟩

theorem load_save_plain : ∃ text anyContent m', saveManifest (copyOf "/path/one") = .ok (text, anyContent) ∧
    loadManifest text (copyOf "/path/one") = .ok m' ∧ SameCopied m'.copyFiles (copyOf "/path/one").copyFiles :=
  (load_save_iff (copyOf "/path/one") (by decide) (by decide)).2 (by decide)

/-- A path with a comment sign comes back cut off. -/
theorem load_save_comment : ¬ ∃ text anyContent m', saveManifest (copyOf "/data/a#b") = .ok (text, anyContent) ∧
    loadManifest text (copyOf "/data/a#b") = .ok m' ∧ SameCopied m'.copyFiles (copyOf "/data/a#b").copyFiles := by
  rintro ⟨text, anyContent, m', hsave, hload, hsame⟩
  rw [saveManifest_eq (by decide) (by decide)] at hsave
  obtain ⟨rfl, -⟩ := Prod.mk.inj (Except.ok.inj hsave)
  obtain ⟨m'', hload', hentries⟩ := loadManifest_saved (m := copyOf "/data/a#b") (by decide) (by decide)
  rw [hload] at hload'
  obtain rfl := Except.ok.inj hload'
  have hcut : m'.copyFiles.entries = [(.ofString "/data/a", .copy)] := hentries.trans (by decide)
  obtain ⟨e, he, hparts, -⟩ := (hsame (Path.parts (.ofString "/data/a#b")) .copy).2
    ⟨_, List.mem_singleton_self _, .inl rfl, rfl, rfl⟩
  rw [hcut] at he
  obtain rfl := List.mem_singleton.1 he
  exact absurd hparts (by decide)

end EditManifestTask

end R4R
