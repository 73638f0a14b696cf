import R4R.OptionSpelling

/-!
# Options that are looked up

A token of the option part names options: a long token one, a cluster one with each character.  Such a name has to be
declared by the option that is found for it, and a token that names no declared option has to end `parse`.  A name that
an option does not have is stored as the empty text, which is also the name in the tokens `--` and `--=value`.
-/

namespace R4R

/-- The option declares the name. -/
def ParserOption.Declares {σ : Type} (opt : ParserOption σ) (name : List Char) : Prop :=
  name ≠ [] ∧ (opt.shortName = name ∨ opt.longName = name)

/-- The option declares both names. -/
def ParserOption.HasBothNames {σ : Type} (opt : ParserOption σ) : Prop := opt.shortName ≠ [] ∧ opt.longName ≠ []

instance {σ : Type} (opt : ParserOption σ) : Decidable opt.HasBothNames := inferInstanceAs (Decidable (_ ∧ _))

/-- The names that a token looks up. -/
def optionNames (arg : List Char) : List (List Char) :=
  if "--".toList <+: arg then [longName arg] else (arg.drop 1).map fun c => [c]

namespace ArgumentParser

variable {σ : Type} {p : ArgumentParser σ}

/-- What the lookup of the names of a token finds declares them. -/
def FindsDeclared (p : ArgumentParser σ) (arg : List Char) : Prop :=
  ∀ name ∈ optionNames arg, ∀ i opt p', findOption name p = .ok (i, opt) p' → opt.Declares name

/-- What the callback of an option captures from the value, or the exception that it throws. -/
def CalledBack (callback : Option (ParserCallback σ)) (value : List Char) (captured captured' : σ)
    (failure : Option ParserFailure) : Prop :=
  match callback with
  | none => captured' = captured ∧ failure = none
  | some f =>
    match f value captured with
    | .ok c => captured' = c ∧ failure = none
    | .error e => captured' = captured ∧ failure = some e

/-- Between `p` and `p'` one option that declares the name has got a value, and its callback has been run with it;
nothing else has changed. -/
inductive SetsOption (name : List Char) (p p' : ArgumentParser σ) (failure : Option ParserFailure) : Prop
  | intro (i : Nat) (opt : ParserOption σ) (value : List Char) (hopt : p.options[i]? = some opt)
      (hdeclares : opt.Declares name) (hoptions : p'.options = p.options.set i { opt with value := some value })
      (hpositionals : p'.positionals = p.positionals)
      (hcallback : CalledBack opt.callback value p.captured p'.captured failure)

/-- What reading the names of a token one after the other comes to when each of them sets an option that declares it.
The token ends with the name whose option takes the rest of it or the next token as its value. -/
inductive SetsDeclared :
    List (List Char) → ArgumentParser σ → EStateM.Result ParserFailure (ArgumentParser σ) Bool → Prop
  | nil {p : ArgumentParser σ} : SetsDeclared [] p (.ok false p)
  | stopped {names : List (List Char)} {p : ArgumentParser σ} (message : List Char) :
      SetsDeclared names p (.error (.exception message) p)
  | thrown {name : List Char} {names : List (List Char)} {p p' : ArgumentParser σ} {failure : ParserFailure}
      (hset : SetsOption name p p' (some failure)) : SetsDeclared (name :: names) p (.error failure p')
  | last {name : List Char} {names : List (List Char)} {p p' : ArgumentParser σ} {taken : Bool}
      (hset : SetsOption name p p' none) : SetsDeclared (name :: names) p (.ok taken p')
  | next {name : List Char} {names : List (List Char)} {p p' : ArgumentParser σ}
      {r : EStateM.Result ParserFailure (ArgumentParser σ) Bool} (hset : SetsOption name p p' none)
      (hrest : SetsDeclared names p' r) : SetsDeclared (name :: names) p r

/-- In the option part of a command line the token is matched to declared options only: these are what the lookup finds,
and the only ones that `parse` sets and calls back.  If the token names none, `parse` throws and leaves the parser as it
was before the token, whatever follows. -/
structure LooksUpDeclared (p : ArgumentParser σ) (arg : List Char) : Prop where
  found : ∀ pre q, OptionPart p.declared pre → parseTokens false pre p = .ok () q → FindsDeclared q arg
  set : ∀ pre q, OptionPart p.declared pre → parseTokens false pre p = .ok () q → ∀ rest,
    parseTokens false (pre ++ arg :: rest) p = (parseOption arg rest.head? >>= fun taken => parseTokens taken rest) q ∧
      SetsDeclared (optionNames arg) q (parseOption arg rest.head? q)
  thrown : (∀ name ∈ optionNames arg, ∀ opt ∈ p.options, ¬ opt.Declares name) →
    ∀ pre q, OptionPart p.declared pre → parseTokens false pre p = .ok () q → ∀ (prog : List Char) rest, ∃ message,
      parseTokens false (pre ++ arg :: rest) p = .error (.exception message) q ∧
        parse (prog :: (pre ++ arg :: rest)) p = .error (.exception message) q

private theorem findOption_cases (name : List Char) (p : ArgumentParser σ) :
    (∃ i opt, findOption name p = .ok (i, opt) p ∧ opt ∈ p.options ∧ opt.isNamed name = true) ∨
    (findOption name p = .error (.exception ("Unknown option: ".toList ++ name)) p ∧
      ∀ opt ∈ p.options, opt.isNamed name = false) := by
  unfold findOption
  cases hfind : p.options.zipIdx.find? fun entry => entry.1.isNamed name with
  | some entry =>
    obtain ⟨opt, i⟩ := entry
    have hnamed := List.find?_some hfind
    have hopt := (List.mem_zipIdx_iff_getElem?).1 (List.mem_of_find?_eq_some hfind)
    exact .inl ⟨i, opt, rfl, List.mem_of_getElem? hopt, hnamed⟩
  | none =>
    refine .inr ⟨rfl, fun opt hopt => ?_⟩
    obtain ⟨i, hi⟩ := List.mem_iff_getElem?.1 hopt
    have hnot := List.find?_eq_none.1 hfind (opt, i) (List.mem_zipIdx_iff_getElem?.2 hi)
    simpa using hnot

private theorem isNamed_iff {opt : ParserOption σ} {name : List Char} :
    opt.isNamed name = true ↔ opt.shortName = name ∨ opt.longName = name := by
  simp [ParserOption.isNamed]

/-- An option that is named by the empty text lacks a name. -/
private theorem isNamed_nil_iff {opt : ParserOption σ} : opt.isNamed [] = true ↔ ¬ opt.HasBothNames := by
  rw [isNamed_iff, ParserOption.HasBothNames, not_and_or, not_not, not_not]

/-- The options of parsers that declare the same have the same names. -/
private theorem exists_same_names {q : ArgumentParser σ} (hq : q.declared = p.declared) {opt : ParserOption σ}
    (hopt : opt ∈ q.options) :
    ∃ opt' ∈ p.options, opt'.shortName = opt.shortName ∧ opt'.longName = opt.longName := by
  have hmem : opt.decl ∈ p.declared := hq ▸ List.mem_map_of_mem hopt
  obtain ⟨opt', hopt', he⟩ := List.mem_map.1 hmem
  exact ⟨opt', hopt', congrArg OptionDecl.shortName he, congrArg OptionDecl.longName he⟩

/-- The first name of a token that is not declared ends the loop. -/
private theorem parseTokens_undeclared {arg : List Char} (harg : "-".toList <+: arg) (hdash : arg ≠ "-".toList)
    (hnot : ∀ name ∈ optionNames arg, ∀ opt ∈ p.options, opt.isNamed name = false) (rest : List (List Char)) :
    ∃ message, parseTokens false (arg :: rest) p = .error (.exception message) p := by
  have hfind : ∀ name ∈ optionNames arg,
      findOption name p = .error (.exception ("Unknown option: ".toList ++ name)) p := by
    intro name hname
    rcases findOption_cases name p with ⟨i, opt, -, hopt, hnamed⟩ | ⟨herror, -⟩
    · rw [hnot name hname opt hopt] at hnamed
      cases hnamed
    · exact herror
  rw [parseTokens_option harg, parseOption]
  unfold optionNames at hfind
  by_cases hlong : "--".toList <+: arg
  · rw [if_pos hlong] at hfind
    rw [if_pos hlong]
    have herror := hfind (longName arg) (List.mem_singleton_self _)
    exact ⟨_, Ensures.bind_of_eq_error (Ensures.bind_of_eq_error herror)⟩
  · rw [if_neg hlong] at hfind
    rw [if_neg hlong]
    obtain ⟨cs, rfl⟩ := harg
    cases cs with
    | nil => exact absurd rfl hdash
    | cons c cs =>
      have herror := hfind [c] (List.mem_cons_self ..)
      exact ⟨_, Ensures.bind_of_eq_error (Ensures.bind_of_eq_error herror)⟩

/-! ### What a token sets -/

private theorem runCallback_cases (callback : Option (ParserCallback σ)) (value : List Char) (p : ArgumentParser σ) :
    ∃ captured failure, CalledBack callback value p.captured captured failure ∧
      runCallback callback value p = (match failure with
        | none => .ok () { p with captured }
        | some e => .error e { p with captured }) := by
  cases callback with
  | none => exact ⟨p.captured, none, ⟨rfl, rfl⟩, rfl⟩
  | some f =>
    cases hf : f value p.captured with
    | ok c => exact ⟨c, none, by simp [CalledBack, hf], by simp [runCallback, hf]⟩
    | error e => exact ⟨p.captured, some e, by simp [CalledBack, hf], by simp [runCallback, hf]⟩

/-- An assignment sets its option and ends as the callback does. -/
private theorem assign_cases {i : Nat} {opt : ParserOption σ} {name : List Char} (hopt : p.options[i]? = some opt)
    (hdeclares : opt.Declares name) (value : List Char) : ∃ p' failure, SetsOption name p p' failure ∧
      assign i opt value p = (match failure with
        | none => .ok () p'
        | some e => .error e p') := by
  obtain ⟨captured, failure, hcallback, hrun⟩ := runCallback_cases opt.callback value (p.setValueAt i value)
  have hoptions : (p.setValueAt i value).options = p.options.set i { opt with value := some value } := by
    refine List.ext_getElem? fun j => ?_
    rw [setValueAt, List.getElem?_modify, List.getElem?_set]
    by_cases hij : i = j
    · subst hij
      obtain ⟨hi, rfl⟩ := List.getElem?_eq_some_iff.1 hopt
      simp [hi]
    · simp [hij]
  exact ⟨{ p.setValueAt i value with captured }, failure,
    ⟨i, opt, value, hopt, hdeclares, hoptions, rfl, hcallback⟩, hrun⟩

private theorem assign_sets {i : Nat} {opt : ParserOption σ} {name : List Char} (hopt : p.options[i]? = some opt)
    (hdeclares : opt.Declares name) (value : List Char) (taken : Bool) (names : List (List Char)) :
    SetsDeclared (name :: names) p ((assign i opt value >>= fun _ => pure taken) p) := by
  obtain ⟨p', failure, hset, hrun⟩ := assign_cases hopt hdeclares value
  cases failure with
  | none =>
    rw [Ensures.bind_of_eq_ok hrun]
    exact .last hset
  | some e =>
    rw [Ensures.bind_of_eq_error hrun]
    exact .thrown hset

private theorem assignArgument_sets {i : Nat} {opt : ParserOption σ} {name : List Char}
    (hopt : p.options[i]? = some opt) (hdeclares : opt.Declares name) (shown value : List Char) (taken : Bool)
    (names : List (List Char)) :
    SetsDeclared (name :: names) p (assignArgument i opt shown value taken p) := by
  unfold assignArgument
  split
  · exact .stopped _
  · exact assign_sets hopt hdeclares value taken names

/-- A long token sets an option that declares its name. -/
private theorem parseLongOption_sets {arg : List Char}
    (hdeclares : ∀ opt ∈ p.options, opt.isNamed (longName arg) = true → opt.Declares (longName arg))
    (next : Option (List Char)) : SetsDeclared [longName arg] p (parseLongOption arg next p) := by
  rcases findOption_cases (longName arg) p with ⟨i, opt, hfind, hopt, hnamed⟩ | ⟨herror, -⟩
  · obtain ⟨-, hi⟩ := findOption_ensures _ _ hfind
    have hd := hdeclares opt hopt hnamed
    rw [parseLongOption, ← longName, Ensures.bind_of_eq_ok hfind]
    dsimp only
    split
    · cases (arg.drop 2).dropWhile (· ≠ '=') with
      | cons c value => exact assignArgument_sets hi hd _ _ _ _
      | nil => exact assignArgument_sets hi hd _ _ _ _
    · exact assign_sets hi hd _ _ _
  · rw [parseLongOption, ← longName, Ensures.bind_of_eq_error herror]
    exact .stopped _

/-- A cluster sets options that declare its characters, one after the other. -/
private theorem parseShortOptions_sets (next : Option (List Char)) (cs : List Char) : ∀ p : ArgumentParser σ,
    SetsDeclared (cs.map fun c => [c]) p (parseShortOptions next cs p) := by
  induction cs with
  | nil => exact fun p => .nil
  | cons c cs ih =>
    intro p
    rcases findOption_cases [c] p with ⟨i, opt, hfind, -, hnamed⟩ | ⟨herror, -⟩
    · obtain ⟨-, hi⟩ := findOption_ensures _ _ hfind
      have hd : opt.Declares [c] := ⟨List.cons_ne_nil c [], isNamed_iff.1 hnamed⟩
      rw [parseShortOptions, Ensures.bind_of_eq_ok hfind]
      dsimp only
      split
      · split
        · exact assignArgument_sets hi hd _ _ _ _
        · exact assignArgument_sets hi hd _ _ _ _
      · obtain ⟨p', failure, hset, hrun⟩ := assign_cases hi hd []
        cases failure with
        | none =>
          rw [Ensures.bind_of_eq_ok hrun]
          exact .next hset (ih p')
        | some e =>
          rw [Ensures.bind_of_eq_error hrun]
          exact .thrown hset
    · rw [parseShortOptions, Ensures.bind_of_eq_error herror]
      exact .stopped _

/-- A token sets options that declare its names when the options with these names declare them. -/
private theorem parseOption_sets {arg : List Char}
    (hdeclares : ∀ name ∈ optionNames arg, ∀ opt ∈ p.options, opt.isNamed name = true → opt.Declares name)
    (next : Option (List Char)) : SetsDeclared (optionNames arg) p (parseOption arg next p) := by
  unfold optionNames parseOption at *
  split
  · rename_i hlong
    rw [if_pos hlong] at hdeclares
    exact parseLongOption_sets (hdeclares _ (List.mem_singleton_self _)) next
  · exact parseShortOptions_sets next _ p

/-- A token of the option part is matched to declared options, or ends `parse`, exactly when it is not the dash alone,
and, if it looks up the empty name, every option has both names. -/
theorem looksUpDeclared_iff (p : ArgumentParser σ) {arg : List Char} (harg : "-".toList <+: arg) :
    LooksUpDeclared p arg ↔
      arg ≠ "-".toList ∧ ([] ∈ optionNames arg → ∀ opt ∈ p.options, opt.HasBothNames) := by
  constructor
  · intro h
    constructor
    · rintro rfl
      obtain ⟨message, herror, -⟩ := h.thrown nofun [] p .nil rfl [] []
      cases herror
    · intro hnil opt hopt
      by_contra hboth
      have hfinds := h.found [] p .nil rfl
      rcases findOption_cases [] p with ⟨i, opt', hfind, -, -⟩ | ⟨-, hnone⟩
      · exact (hfinds [] hnil i opt' p hfind).1 rfl
      · have hnamed := hnone opt hopt
        rw [isNamed_nil_iff.2 hboth] at hnamed
        cases hnamed
  · rintro ⟨hdash, hnil⟩
    -- an option that is named by a name of the token declares it
    have hdeclares : ∀ q : ArgumentParser σ, q.declared = p.declared → ∀ name ∈ optionNames arg, ∀ opt ∈ q.options,
        opt.isNamed name = true → ∃ opt' ∈ p.options, opt'.Declares name ∧ opt.Declares name := by
      intro q hq name hname opt hopt hnamed
      obtain ⟨opt', hopt', hshort, hlong⟩ := exists_same_names hq hopt
      have hne : name ≠ [] := by
        rintro rfl
        refine isNamed_nil_iff.1 hnamed ?_
        rw [ParserOption.HasBothNames, ← hshort, ← hlong]
        exact hnil hname opt' hopt'
      have hnames := isNamed_iff.1 hnamed
      exact ⟨opt', hopt', ⟨hne, by rwa [hshort, hlong]⟩, hne, hnames⟩
    constructor
    · intro pre q hpre hrun name hname i opt q' hfind
      rcases findOption_cases name q with ⟨i', opt', hfind', hopt', hnamed⟩ | ⟨herror, -⟩
      · rw [hfind'] at hfind
        cases hfind
        obtain ⟨-, -, -, hd⟩ := hdeclares q (declared_of_parseTokens hrun) name hname opt hopt' hnamed
        exact hd
      · rw [herror] at hfind
        cases hfind
    · intro pre q hpre hrun rest
      refine ⟨?_, parseOption_sets (fun name hname opt hopt hnamed => ?_) rest.head?⟩
      · rw [parseTokens_append hpre _ p rfl, Ensures.bind_of_eq_ok hrun, parseTokens_option harg]
      · obtain ⟨-, -, -, hd⟩ := hdeclares q (declared_of_parseTokens hrun) name hname opt hopt hnamed
        exact hd
    · intro hundeclared pre q hpre hrun prog rest
      have hnot : ∀ name ∈ optionNames arg, ∀ opt ∈ q.options, opt.isNamed name = false := by
        intro name hname opt hopt
        by_contra hnamed
        rw [Bool.not_eq_false] at hnamed
        obtain ⟨opt', hopt', hd, -⟩ := hdeclares q (declared_of_parseTokens hrun) name hname opt hopt hnamed
        exact hundeclared name hname opt' hopt' hd
      obtain ⟨message, herror⟩ := parseTokens_undeclared harg hdash hnot rest
      have htokens : parseTokens false (pre ++ arg :: rest) p = .error (.exception message) q := by
        rw [parseTokens_append hpre _ p rfl, Ensures.bind_of_eq_ok hrun, herror]
      exact ⟨message, htokens, Ensures.bind_of_eq_error htokens⟩

theorem looksUpDeclared_unknown : LooksUpDeclared notingParser "--unknown".toList :=
  (looksUpDeclared_iff notingParser (by decide)).2 ⟨by decide, by decide⟩

end ArgumentParser

namespace Options

/-- The command line `r4r -- R script.R`. -/
def dashDashCommand : List (List Char) := ["r4r".toList, "--".toList, "R".toList, "script.R".toList]

/-- The image tag and the command of a command line. -/
def tracedAs (r : EStateM.Result ParserFailure (ArgumentParser Options) Unit) :
    Option (List Char × List (List Char)) :=
  match r with
  | .ok _ p => some (p.captured.dockerImageTag, p.captured.cmd)
  | .error _ _ => none

/-- The first option of the table that lacks a name is the one for the image tag. -/
private theorem findOption_nil (currentPath : Path) (opts : Options) :
    ∃ i opt, ArgumentParser.findOption [] (parser currentPath opts) = .ok (i, opt) (parser currentPath opts) ∧
      opt.longName = "docker-image-tag".toList := ⟨1, _, rfl, rfl⟩

/-- In the table of `r4r`, `--` and `--=value` are the option for the image tag, which takes the first word of the
command, and the dash alone is passed over. -/
theorem not_looksUpDeclared_dashDash :
    ¬ (parser ⟨[]⟩ (init ⟨[]⟩)).LooksUpDeclared "--".toList ∧
    ¬ (parser ⟨[]⟩ (init ⟨[]⟩)).LooksUpDeclared "--=value".toList ∧
    ¬ (parser ⟨[]⟩ (init ⟨[]⟩)).LooksUpDeclared "-".toList ∧
    tracedAs (parseCmdArgs ⟨[]⟩ (init ⟨[]⟩) dashDashCommand) = some ("R".toList, ["script.R".toList]) := by
  have hnil : ∀ arg, [] ∈ optionNames arg → ¬ (parser ⟨[]⟩ (init ⟨[]⟩)).LooksUpDeclared arg := by
    intro arg hname h
    obtain ⟨i, opt, hfind, -⟩ := findOption_nil ⟨[]⟩ (init ⟨[]⟩)
    exact (h.found [] _ .nil rfl [] hname i opt _ hfind).1 rfl
  refine ⟨hnil _ (by decide), hnil _ (by decide), ?_, ?_⟩
  · intro h
    obtain ⟨message, herror, -⟩ := h.thrown nofun [] _ .nil rfl [] []
    cases herror
  · decide +kernel

end Options

end R4R
