import R4R.ManifestRoundTrip

/-!
# Writing what has been read

A `ManifestFormat` that `operator>>` has read keeps its sections when it is written and read again, whatever its
preamble is.
-/

namespace R4R

open Lines

namespace ManifestFormat

/-! ### What the reader makes of lines -/

/-- A line as it stands in the content of a section. -/
structure IsCleanLine (t : List Char) : Prop extends IsContent t where
  strip : stripLine t = t

/-- A content of clean lines, the last of them without its newline. -/
inductive IsCleanContent : List Char → Prop
  | nil : IsCleanContent []
  | lines (ts : List (List Char)) (t : List Char) (h : ∀ t' ∈ ts ++ [t], IsCleanLine t') :
    IsCleanContent (unlines ts ++ t)

/-- The formats that the reader can make. -/
structure IsClean (f : ManifestFormat) : Prop where
  names : ∀ s ∈ f.sections, isValidSectionName s.name = true
  nodup : (f.sections.map Section.name).Nodup
  contents : ∀ s ∈ f.sections, IsCleanContent s.content

private theorem trim_trim (s : List Char) : trim (trim s) = trim s := by
  refine trim_eq_self (fun c hc => ?_) fun c hc => getLast?_rdropWhile hc
  -- the first character that is kept has been found not to be white space
  have hhead : (s.dropWhile isSpace).head? = some c := by
    obtain ⟨t, ht⟩ := List.rdropWhile_prefix isSpace (s.dropWhile isSpace)
    have hc' : ((s.dropWhile isSpace).rdropWhile isSpace).head? = some c := hc
    rw [← ht, List.head?_append, hc']
    rfl
  cases hd : s.dropWhile isSpace with
  | nil => rw [hd] at hhead; cases hhead
  | cons d t =>
    rw [hd] at hhead
    obtain rfl := Option.some.inj hhead
    have hnot := List.head_dropWhile_not isSpace (l := s) (by rw [hd]; simp)
    simpa [hd] using hnot

private theorem takeWhile_comment {t : List Char} (h : comment ∉ t) : t.takeWhile (· ≠ comment) = t := by
  refine List.takeWhile_eq_self_iff.2 fun c hc => ?_
  simp only [ne_eq, decide_not, Bool.not_eq_eq_eq_not, Bool.not_true, decide_eq_false_iff_not]
  rintro rfl
  exact h hc

private theorem stripLine_stripLine (l : List Char) : stripLine (stripLine l) = stripLine l := by
  rw [stripLine, takeWhile_comment (comment_notMem_stripLine l), stripLine, trim_trim]

private theorem newline_notMem_stripLine {l : List Char} (h : '\n' ∉ l) : '\n' ∉ stripLine l :=
  fun hmem => h ((List.takeWhile_prefix _).subset (trim_subset _ _ hmem))

/-- A clean line is read through its indentation. -/
private theorem IsCleanLine.strip_indented {t : List Char} (h : IsCleanLine t) : stripLine ("  ".toList ++ t) = t := by
  have hcomment : comment ∉ t := h.strip ▸ comment_notMem_stripLine t
  have hindented : comment ∉ "  ".toList ++ t := by
    rw [List.mem_append, not_or]
    exact ⟨by decide, hcomment⟩
  rw [stripLine, takeWhile_comment hindented, trim_blank_append (List.all_eq_true.1 (by decide)) t]
  rw [← h.strip, stripLine, takeWhile_comment hcomment, trim_trim]

private theorem appendLine_nil {t : List Char} (h : IsCleanLine t) (name : List Char) :
    appendLine t ⟨name, []⟩ = ⟨name, t⟩ := by
  have hcomment : comment ∉ t := h.strip ▸ comment_notMem_stripLine t
  have hhead : t.head? ≠ some comment := fun he => hcomment (List.mem_of_mem_head? he)
  simp only [appendLine, if_neg hhead, if_neg hcomment]
  rfl

private theorem appendLine_lines {t u : List Char} (h : IsCleanLine t) (hu : IsCleanLine u) (name : List Char)
    (ts : List (List Char)) : appendLine t ⟨name, unlines ts ++ u⟩ = ⟨name, unlines (ts ++ [u]) ++ t⟩ := by
  have hcomment : comment ∉ t := h.strip ▸ comment_notMem_stripLine t
  have hhead : t.head? ≠ some comment := fun he => hcomment (List.mem_of_mem_head? he)
  simp [appendLine, hhead, hcomment, hu.ne_nil]

private theorem isCleanContent_appendLine {t content : List Char} (ht : IsCleanLine t) (name : List Char)
    (h : IsCleanContent content) :
    (appendLine t ⟨name, content⟩).name = name ∧ IsCleanContent (appendLine t ⟨name, content⟩).content := by
  cases h with
  | nil =>
    rw [appendLine_nil ht]
    exact ⟨rfl, .lines [] t (by simpa using ht)⟩
  | lines ts u h =>
    rw [appendLine_lines ht (h u (by simp))]
    refine ⟨rfl, .lines (ts ++ [u]) t fun t' ht' => ?_⟩
    rcases List.mem_append.1 ht' with ht' | ht'
    · exact h t' ht'
    · rw [List.mem_singleton.1 ht']
      exact ht

/-! ### What is read is clean -/

private theorem addSection_eq_ok {f f' : ManifestFormat} {s : Section} :
    f.addSection s = .ok f' ↔
      isValidSectionName s.name = true ∧ s.name ∉ f.sections.map Section.name ∧
        f' = { f with sections := f.sections ++ [s] } := by
  have hsome : (f.getSection s.name).isSome = true ↔ s.name ∈ f.sections.map Section.name := by
    simp [getSection, List.find?_isSome]
  unfold addSection
  cases hvalid : isValidSectionName s.name with
  | false => simp
  | true =>
    by_cases hmem : s.name ∈ f.sections.map Section.name
    · rw [if_neg (by simp), if_pos (hsome.2 hmem)]
      simp [hmem]
    · rw [if_neg (by simp), if_neg fun h => hmem (hsome.1 h)]
      simp only [Except.ok.injEq, hmem, not_false_eq_true, true_and]
      exact eq_comm

/-- What holds of the reader between two lines. -/
structure IsReading (st : ManifestFormat × Bool) : Prop where
  clean : IsClean st.1
  ne_nil : st.2 = true → st.1.sections ≠ []

private theorem IsReading.readLine {st st' : ManifestFormat × Bool} {l : List Char} (h : IsReading st) (hl : '\n' ∉ l)
    (hread : readLine st l = .ok st') : IsReading st' := by
  obtain ⟨f, inSection⟩ := st
  simp only [ManifestFormat.readLine] at hread
  split at hread
  · obtain rfl := Except.ok.inj hread
    exact h
  · rename_i hne
    split at hread
    · -- a new section
      rename_i hheader
      obtain ⟨f', hadd, hread⟩ := Except.bind_eq_ok hread
      obtain ⟨hvalid, hnew, rfl⟩ := addSection_eq_ok.1 hadd
      obtain rfl := Except.ok.inj hread
      refine ⟨⟨fun s hs => ?_, ?_, fun s hs => ?_⟩, by simp⟩
      · rcases List.mem_append.1 hs with hs | hs
        · exact h.clean.names s hs
        · rwa [List.mem_singleton.1 hs]
      · rw [List.map_append, List.map_singleton, ← List.concat_eq_append]
        exact h.clean.nodup.concat hnew
      · rcases List.mem_append.1 hs with hs | hs
        · exact h.clean.contents s hs
        · rw [List.mem_singleton.1 hs]
          exact .nil
    · -- a line for the last section
      rename_i hheader
      split at hread
      · cases hread
      · rename_i hsection
        obtain rfl := Except.ok.inj hread
        have hsections := h.ne_nil (by simpa using hsection)
        have ht : IsCleanLine (stripLine l) :=
          ⟨⟨by simpa using hne, by simpa using hheader, newline_notMem_stripLine hl⟩, stripLine_stripLine l⟩
        rcases List.eq_nil_or_concat f.sections with hnil | ⟨pre, s, hs⟩
        · exact absurd hnil hsections
        · rw [List.concat_eq_append] at hs
          have hlast : f.sections.modifyLast (appendLine (stripLine l)) = pre ++ [appendLine (stripLine l) s] := by
            rw [hs, List.modifyLast_concat]
          have hmem : ∀ x, x ∈ pre ∨ x = s → x ∈ f.sections := fun x hx => by rw [hs]; simpa using hx
          obtain ⟨hname, hcontent⟩ := isCleanContent_appendLine ht s.name (h.clean.contents s (hmem s (.inr rfl)))
          refine ⟨⟨fun x hx => ?_, ?_, fun x hx => ?_⟩, fun _ => by simp [hlast]⟩
          · rw [hlast, List.mem_append, List.mem_singleton] at hx
            rcases hx with hx | rfl
            · exact h.clean.names x (hmem x (.inl hx))
            · rw [show (appendLine (stripLine l) s).name = s.name from hname]
              exact h.clean.names s (hmem s (.inr rfl))
          · have hnodup := h.clean.nodup
            rw [hs, List.map_append] at hnodup
            simp only [hlast, List.map_append, List.map_singleton]
            rwa [show (appendLine (stripLine l) s).name = s.name from hname]
          · rw [hlast, List.mem_append, List.mem_singleton] at hx
            rcases hx with hx | rfl
            · exact h.clean.contents x (hmem x (.inl hx))
            · exact hcontent

/-- What is read into an empty format is clean. -/
private theorem isClean_of_read {text : List Char} {f : ManifestFormat} (h : read {} text = .ok f) : IsClean f := by
  obtain ⟨⟨f', inSection⟩, hread, hf⟩ := Except.bind_eq_ok h
  obtain rfl := Except.ok.inj hf
  have hstart : IsReading ({}, false) := ⟨⟨by simp, by simp, by simp⟩, by simp⟩
  exact (Except.foldlM_invariant (P := IsReading) (fun st st' l hl hst hstep =>
    hst.readLine (newline_notMem_of_mem_getLines hl) hstep) hstart hread).clean

/-! ### What is written is read -/

private theorem readLine_clean {t : List Char} (ht : IsCleanLine t) (preamble : List Char) (pre : List Section)
    (s : Section) :
    readLine (⟨preamble, pre ++ [s]⟩, true) ("  ".toList ++ t) = .ok (⟨preamble, pre ++ [appendLine t s]⟩, true) := by
  have hne : t.isEmpty = false := by simpa using ht.ne_nil
  have hlast := List.modifyLast_concat (appendLine t) s pre
  simp only [readLine, ht.strip_indented, hne, ht.not_header]
  rw [hlast]
  rfl

private theorem foldlM_readLine_clean {ts : List (List Char)} (preamble : List Char) (pre : List Section) :
    ∀ {s : Section}, (∀ t ∈ ts, IsCleanLine t) →
    (ts.map ("  ".toList ++ ·)).foldlM readLine (⟨preamble, pre ++ [s]⟩, true) =
      .ok (⟨preamble, pre ++ [ts.foldl (fun s t => appendLine t s) s]⟩, true) := by
  induction ts with
  | nil => intro s _; rfl
  | cons t ts ih =>
    intro s h
    rw [List.map_cons, List.foldlM_cons, readLine_clean (h t (List.mem_cons_self ..)), Except.ok_bind,
      ih fun t' ht' => h t' (List.mem_cons_of_mem t ht')]
    rfl

private theorem foldl_appendLine (name : List Char) (ts : List (List Char)) : ∀ {t : List Char},
    (∀ t' ∈ ts ++ [t], IsCleanLine t') →
    (ts ++ [t]).foldl (fun s t => appendLine t s) ⟨name, []⟩ = ⟨name, unlines ts ++ t⟩ := by
  induction ts using List.reverseRecOn with
  | nil =>
    intro t h
    exact appendLine_nil (h t (by simp)) name
  | append_singleton ts u ih =>
    intro t h
    rw [List.foldl_append, ih fun t' ht' => h t' (List.mem_append_left _ ht')]
    exact appendLine_lines (h t (by simp)) (h u (by simp)) name ts

/-- The lines of a content that is written. -/
private theorem exists_bodyLines {content : List Char} (h : IsCleanContent content) :
    ∃ ls, withPrefixedOstream "  ".toList content ++ "\n\n".toList = unlines ls ∧ (∀ l ∈ ls, '\n' ∉ l) ∧
      ∀ preamble pre name, ls.foldlM readLine (⟨preamble, pre ++ [⟨name, []⟩]⟩, true) =
        .ok (⟨preamble, pre ++ [⟨name, content⟩]⟩, true) := by
  cases h with
  | nil => exact ⟨[[], []], rfl, by simp, fun _ _ _ => rfl⟩
  | lines ts t h =>
    have hts : ∀ l ∈ ts, '\n' ∉ l := fun l hl => (h l (List.mem_append_left _ hl)).newline_notMem
    have ht := h t (by simp)
    refine ⟨(ts ++ [t]).map ("  ".toList ++ ·) ++ [[]], ?_, ?_, fun preamble pre name => ?_⟩
    · rw [withPrefixedOstream_unlines_append hts ht.newline_notMem ht.ne_nil]
      simp
    · intro l hl
      rcases List.mem_append.1 hl with hl | hl
      · obtain ⟨t', ht', rfl⟩ := List.mem_map.1 hl
        rw [List.mem_append, not_or]
        exact ⟨by decide, (h t' ht').newline_notMem⟩
      · rw [List.mem_singleton.1 hl]
        simp
    · rw [List.foldlM_append, foldlM_readLine_clean preamble pre h, Except.ok_bind, foldl_appendLine name ts h]
      rfl

private theorem stripLine_of_plain {l : List Char} (h : ∀ c ∈ l, isSpace c = false ∧ c ≠ comment) :
    stripLine l = l := by
  have hcomment : comment ∉ l := fun hc => (h _ hc).2 rfl
  rw [stripLine, takeWhile_comment hcomment]
  exact trim_eq_self (fun c hc => (h c (List.mem_of_mem_head? hc)).1) fun c hc => (h c (List.mem_of_getLast? hc)).1

private theorem isSpace_of_isAlphanum {c : Char} (h : (c.isAlphanum || c == '_') = true) :
    isSpace c = false ∧ c ≠ comment ∧ c ≠ '\n' := by
  have hne : ∀ d : Char, (d.isAlphanum || d == '_') = false → c ≠ d := by
    rintro d hd rfl
    rw [h] at hd
    cases hd
  refine ⟨?_, hne _ (by decide), hne _ (by decide)⟩
  rw [Bool.or_eq_true, beq_iff_eq] at h
  rcases h with h | rfl
  · exact isSpace_of_alphanum h
  · decide

private theorem alphanum_of_isValidSectionName {name : List Char} (h : isValidSectionName name = true) :
    ∀ c ∈ name, (c.isAlphanum || c == '_') = true := by
  cases name with
  | nil => nofun
  | cons c name =>
    rw [isValidSectionName, Bool.and_eq_true] at h
    exact List.all_eq_true.1 h.2

/-- A section header starts a section. -/
private theorem readLine_header {name : List Char} (hvalid : isValidSectionName name = true) (preamble : List Char)
    {pre : List Section} (hnew : name ∉ pre.map Section.name) (inSection : Bool) :
    readLine (⟨preamble, pre⟩, inSection) (name ++ [':']) = .ok (⟨preamble, pre ++ [⟨name, []⟩]⟩, true) := by
  have hstrip : stripLine (name ++ [':']) = name ++ [':'] := by
    refine stripLine_of_plain fun c hc => ?_
    rcases List.mem_append.1 hc with hc | hc
    · have hplain := isSpace_of_isAlphanum (alphanum_of_isValidSectionName hvalid c hc)
      exact ⟨hplain.1, hplain.2.1⟩
    · rw [List.mem_singleton.1 hc]
      decide
  have hheader : isSectionHeader (name ++ [':']) = true := by simp [isSectionHeader, hvalid]
  have hadd : ManifestFormat.addSection ⟨preamble, pre⟩ ⟨name, []⟩ = .ok ⟨preamble, pre ++ [⟨name, []⟩]⟩ :=
    addSection_eq_ok.2 ⟨hvalid, hnew, rfl⟩
  have hne : (name ++ [':']).isEmpty = false := by simp
  have hdrop : (name ++ [':']).dropLast = name := List.dropLast_concat
  simp only [readLine, hstrip, hne, hheader, hdrop, hadd]
  rfl

/-- The lines of sections that are written. -/
private theorem exists_sectionLines (preamble : List Char) {ss : List Section} : ∀ {pre : List Section},
    IsClean ⟨preamble, pre ++ ss⟩ →
    ∃ ls, (ss.flatMap fun s => s.name ++ [':', '\n'] ++ withPrefixedOstream "  ".toList s.content ++ "\n\n".toList) =
        unlines ls ∧ (∀ l ∈ ls, '\n' ∉ l) ∧
      ∀ inSection, ∃ inSection', ls.foldlM readLine (⟨preamble, pre⟩, inSection) =
        .ok (⟨preamble, pre ++ ss⟩, inSection') := by
  induction ss with
  | nil => exact fun _ => ⟨[], rfl, by simp, fun inSection => ⟨inSection, by simp; rfl⟩⟩
  | cons s ss ih =>
    intro pre h
    have hclean : IsClean ⟨preamble, (pre ++ [s]) ++ ss⟩ := by rwa [List.append_assoc]
    have hvalid := h.names s (by simp)
    have hnew : s.name ∉ pre.map Section.name := by
      have hnodup := h.nodup
      rw [List.map_append, List.nodup_append] at hnodup
      exact fun hmem => hnodup.2.2 _ hmem _ (List.mem_cons_self ..) rfl
    obtain ⟨body, hbody, hbodyline, hread⟩ := exists_bodyLines (h.contents s (by simp))
    obtain ⟨ls, hls, hline, hrest⟩ := ih hclean
    refine ⟨(s.name ++ [':']) :: body ++ ls, ?_, ?_, fun inSection => ?_⟩
    · rw [List.flatMap_cons, hls, List.append_assoc (s.name ++ [':', '\n']), hbody]
      simp
    · intro l hl
      rcases List.mem_append.1 hl with hl | hl
      · rcases List.mem_cons.1 hl with rfl | hl
        · rw [List.mem_append, not_or]
          exact ⟨fun hc => (isSpace_of_isAlphanum (alphanum_of_isValidSectionName hvalid _ hc)).2.2 rfl, by decide⟩
        · exact hbodyline l hl
      · exact hline l hl
    · obtain ⟨inSection', hsection⟩ := hrest true
      refine ⟨inSection', ?_⟩
      rw [List.cons_append, List.foldlM_cons, readLine_header hvalid preamble hnew, Except.ok_bind, List.foldlM_append,
        hread, Except.ok_bind, hsection, List.append_assoc]
      rfl

/-- The lines of a preamble that is written. -/
private theorem exists_preambleLines (preamble : List Char) :
    ∃ ls, (if preamble.isEmpty then []
        else withPrefixedOstream prefixedComment preamble ++ "\n\n".toList) = unlines ls ∧
      (∀ l ∈ ls, '\n' ∉ l) ∧ ∀ l ∈ ls, stripLine l = [] := by
  obtain ⟨ls, l, rfl, hls, hl⟩ := exists_unlines_append preamble
  have hcomment : ∀ l : List Char, '\n' ∉ l →
      '\n' ∉ prefixedComment ++ l ∧ stripLine (prefixedComment ++ l) = [] := by
    intro l hl
    rw [List.mem_append, not_or]
    exact ⟨⟨by decide, hl⟩, stripLine_comment [] rfl (' ' :: l)⟩
  have hlines : ∀ l ∈ ls.map (prefixedComment ++ ·), '\n' ∉ l ∧ stripLine l = [] := by
    intro l' hl'
    obtain ⟨l, hmem, rfl⟩ := List.mem_map.1 hl'
    exact hcomment l (hls l hmem)
  by_cases hempty : (unlines ls ++ l).isEmpty = true
  · rw [if_pos hempty]
    exact ⟨[], rfl, by simp, by simp⟩
  · rw [if_neg hempty]
    cases l with
    | nil =>
      rw [List.append_nil, withPrefixedOstream_unlines hls]
      refine ⟨ls.map (prefixedComment ++ ·) ++ [[], []], by simp, ?_⟩
      rw [← forall₂_and]
      intro l' hl'
      rcases List.mem_append.1 hl' with hl' | hl'
      · exact hlines l' hl'
      · rw [show l' = [] by simpa using hl']
        exact ⟨by simp, rfl⟩
    | cons c l =>
      rw [withPrefixedOstream_unlines_append hls hl (by simp)]
      refine ⟨ls.map (prefixedComment ++ ·) ++ [prefixedComment ++ c :: l, []], by simp, ?_⟩
      rw [← forall₂_and]
      intro l' hl'
      rcases List.mem_append.1 hl' with hl' | hl'
      · exact hlines l' hl'
      · rcases List.mem_cons.1 hl' with rfl | hl'
        · exact hcomment _ hl
        · rw [List.mem_singleton.1 hl']
          exact ⟨by simp, rfl⟩

/-- The sections that have been read come back when the format is written, under any preamble, and read again. -/
theorem read_write {text : List Char} {f : ManifestFormat} (h : read {} text = .ok f) (preamble : List Char) :
    (read {} (write { f with preamble := preamble })).map ManifestFormat.sections = .ok f.sections := by
  have hclean := isClean_of_read h
  obtain ⟨ls, hls, hline, hstrip⟩ := exists_preambleLines preamble
  have hsections : IsClean ⟨[], [] ++ f.sections⟩ := ⟨hclean.names, hclean.nodup, hclean.contents⟩
  obtain ⟨ls', hls', hline', hread⟩ := exists_sectionLines [] hsections
  obtain ⟨inSection, hread⟩ := hread false
  have hwrite : write { f with preamble := preamble } = unlines (ls ++ ls') := by
    rw [unlines_append, ← hls, ← hls']
    rfl
  have hlines : getLines (unlines (ls ++ ls')) = ls ++ ls' := by
    refine getLines_unlines fun l hl => ?_
    exact (List.mem_append.1 hl).elim (hline l) (hline' l)
  rw [hwrite, read, hlines, List.foldlM_append, foldlM_readLine_blank hstrip, Except.ok_bind, hread]
  rfl

theorem read_write_two :
    (read {} (write { preamble := "a\n\nb\n".toList, sections := [⟨['x'], "c d\ne".toList⟩, ⟨['y'], []⟩] })).map
      ManifestFormat.sections = .ok [⟨['x'], "c d\ne".toList⟩, ⟨['y'], []⟩] :=
  @read_write "# r\nx:\n  c d # z\n\n e\ny:".toList ⟨[], [⟨['x'], "c d\ne".toList⟩, ⟨['y'], []⟩]⟩ (by decide +kernel) _

end ManifestFormat

end R4R
