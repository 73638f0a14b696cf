import R4R.OptionPart

/-!
# Spellings of options

An argument can stand behind `=`, behind its short option or in the next token, and a cluster of short options can be
taken apart.  Wherever this is done in the option part, `parse` ends the same way: with the same parser and what its
callbacks have captured, or with the same exception.  The dash is no name of a short option: `--` starts a long option.
-/

namespace R4R.ArgumentParser

variable {σ : Type} {p : ArgumentParser σ}

/-! ### Tokens in front -/

private theorem parseLongOption_congr {arg : List Char}
    (h : (takesArg p.declared (longName arg) && decide ('=' ∉ arg.drop 2)) = false) (next next' : Option (List Char)) :
    parseLongOption arg next p = parseLongOption arg next' p := by
  refine Ensures.bind_eq_bind rfl fun found p₁ hfind => ?_
  dsimp only
  split
  · rename_i harg
    cases hdrop : (arg.drop 2).dropWhile (· ≠ '=') with
    | cons c value => rfl
    | nil =>
      -- without `=` the option would take the next token
      rw [longName, takesArg_of_findOption hfind, harg, Bool.true_and, decide_eq_false_iff_not, not_not] at h
      exact absurd h ((dropWhile_eq_nil_iff _).1 hdrop)
  · rfl

private theorem parseShortOptions_congr (next next' : Option (List Char)) (cs : List Char) : ∀ p : ArgumentParser σ,
    clusterTakesNext p.declared cs = false → parseShortOptions next cs p = parseShortOptions next' cs p := by
  induction cs with
  | nil => exact fun p _ => rfl
  | cons c cs ih =>
    intro p h
    refine Ensures.bind_eq_bind rfl fun found p₁ hfind => ?_
    obtain ⟨rfl, hopt⟩ := findOption_ensures found p₁ hfind
    rw [clusterTakesNext, takesArg_of_findOption hfind] at h
    dsimp only
    split
    · rename_i harg
      rw [if_pos harg] at h
      rw [h]
      rfl
    · rename_i harg
      rw [if_neg harg] at h
      refine Ensures.bind_eq_bind rfl fun u p₂ hassign => ?_
      obtain ⟨hdeclared, -⟩ := assignKeeps_tables p₁.declared p₁.positionals p₁ _ _ _ hopt ⟨rfl, rfl⟩ u p₂ hassign
      exact ih p₂ (hdeclared ▸ h)

/-- A token that takes nothing does not depend on what follows. -/
private theorem parseOption_congr {arg : List Char} (h : takesNext p.declared arg = false)
    (next next' : Option (List Char)) :
    parseOption arg next p = parseOption arg next' p := by
  unfold takesNext at h
  unfold parseOption
  split
  · rename_i hlong
    rw [if_pos hlong] at h
    exact parseLongOption_congr h next next'
  · rename_i hlong
    rw [if_neg hlong] at h
    exact parseShortOptions_congr next next' _ p h

private theorem declared_of_parseOption {arg : List Char} {next : Option (List Char)} {taken : Bool}
    {p₁ : ArgumentParser σ} (h : parseOption arg next p = .ok taken p₁) : p₁.declared = p.declared :=
  (parseOption_keeps (assignKeeps_tables p.declared p.positionals) arg next ⟨rfl, rfl⟩ taken p₁ h).1

/-- The option part is parsed first. -/
theorem parseTokens_append {table : List OptionDecl} {pre : List (List Char)} (hpre : OptionPart table pre)
    (rest : List (List Char)) : ∀ p : ArgumentParser σ, p.declared = table →
      parseTokens false (pre ++ rest) p = (parseTokens false pre >>= fun _ => parseTokens false rest) p := by
  induction hpre with
  | nil => exact fun p _ => rfl
  | @alone arg args harg htakes hargs ih =>
    rintro p rfl
    rw [List.cons_append, parseTokens_option harg, parseTokens_option harg, bind_assoc]
    refine Ensures.bind_eq_bind (parseOption_congr htakes _ _) fun taken p₁ hopt => ?_
    obtain ⟨htaken, -⟩ := parseOption_taken arg args.head? p taken p₁ hopt
    rw [htakes] at htaken
    subst htaken
    exact ih p₁ (declared_of_parseOption hopt)
  | @withValue arg value args harg htakes hargs ih =>
    rintro p rfl
    rw [List.cons_append, List.cons_append, parseTokens_option harg, parseTokens_option harg, bind_assoc]
    refine Ensures.bind_eq_bind rfl fun taken p₁ hopt => ?_
    obtain ⟨htaken, -⟩ := parseOption_taken arg (some value) p taken p₁ hopt
    rw [htakes] at htaken
    subst htaken
    exact ih p₁ (declared_of_parseOption hopt)

private theorem positionalKeeps_declared (table : List OptionDecl) :
    PositionalKeeps fun q : ArgumentParser σ => q.declared = table := by
  rintro arg i q rfl
  refine Ensures.bind (Ensures.get ?_)
  cases q.positionals[i]? with
  | none => exact Ensures.throw
  | some pos =>
    refine Ensures.bind (Ensures.modify (Ensures.bind fun u q' hrun => Ensures.pure ?_))
    obtain ⟨c, rfl, -⟩ := runCallback_ensures id pos.callback arg (q.addPositionalAt i arg) u q' hrun
    rfl

theorem declared_of_parseTokens {args : List (List Char)} {u : Unit} {q : ArgumentParser σ}
    (h : parseTokens false args p = .ok u q) : q.declared = p.declared := by
  have hassign : AssignKeeps fun q : ArgumentParser σ => q.declared = p.declared := by
    intro q i opt value hopt hq u q' hrun
    exact (assignKeeps_tables p.declared q.positionals q i opt value hopt ⟨hq, rfl⟩ u q' hrun).1
  exact parseTokens_keeps hassign (positionalKeeps_declared p.declared) args false p rfl u q h

/-- Two command lines with the same option part in front that go on the same way end the same way. -/
private theorem parse_append_congr {pre rest rest' : List (List Char)} (prog : List Char)
    (hpre : OptionPart p.declared pre)
    (hrest : ∀ q : ArgumentParser σ, q.declared = p.declared → parseTokens false rest q = parseTokens false rest' q) :
    parse (prog :: (pre ++ rest)) p = parse (prog :: (pre ++ rest')) p := by
  have htokens : parseTokens false (pre ++ rest) p = parseTokens false (pre ++ rest') p := by
    rw [parseTokens_append hpre rest p rfl, parseTokens_append hpre rest' p rfl]
    exact Ensures.bind_eq_bind rfl fun u q hrun => hrest q (declared_of_parseTokens hrun)
  exact Ensures.bind_eq_bind htokens fun _ _ _ => rfl

/-! ### The spellings -/

/-- It does not matter whether an argument has been the next token. -/
private theorem assignArgument_then (i : Nat) (opt : ParserOption σ) (name value : List Char)
    (post : List (List Char)) :
    (assignArgument i opt name value true >>= fun taken => parseTokens taken (value :: post)) =
      (assignArgument i opt name value false >>= fun taken => parseTokens taken post) := by
  unfold assignArgument
  split
  · rfl
  · rw [bind_assoc, bind_assoc]
    rfl

private theorem takeWhile_name {n : List Char} (hn : '=' ∉ n) (value : List Char) :
    (n ++ '=' :: value).takeWhile (· ≠ '=') = n ∧ (n ++ '=' :: value).dropWhile (· ≠ '=') = '=' :: value := by
  have hall : ∀ c ∈ n, decide (c ≠ '=') = true := fun c hc => decide_eq_true fun he => hn (he ▸ hc)
  rw [List.takeWhile_append_of_pos hall, List.dropWhile_append_of_pos hall]
  simp

/-- The argument of a long option in the next token or behind `=`. -/
private theorem parseTokens_long {n : List Char} (hn : '=' ∉ n) (htakes : takesArg p.declared n = true)
    (value : List Char) (post : List (List Char)) :
    parseTokens false (("--".toList ++ n) :: value :: post) p =
      parseTokens false (("--".toList ++ (n ++ '=' :: value)) :: post) p := by
  have hlong : ∀ s : List Char, "--".toList <+: "--".toList ++ s := fun s => List.prefix_append _ s
  have hdash : ∀ s : List Char, "-".toList <+: "--".toList ++ s := fun s =>
    (by decide : "-".toList <+: "--".toList).trans (hlong s)
  have hdrop : ∀ s : List Char, ("--".toList ++ s).drop 2 = s := fun s => rfl
  obtain ⟨htake, hdropWhile⟩ := takeWhile_name hn value
  have hname : n.takeWhile (· ≠ '=') = n :=
    List.takeWhile_eq_self_iff.2 fun c hc => decide_eq_true fun he => hn (he ▸ hc)
  rw [parseTokens_option (hdash _), parseTokens_option (hdash _), parseOption, parseOption, if_pos (hlong _),
    if_pos (hlong _), parseLongOption, parseLongOption, hdrop, hdrop, htake, hdropWhile, hname,
    (dropWhile_eq_nil_iff n).2 hn, bind_assoc, bind_assoc]
  refine Ensures.bind_eq_bind rfl fun found q hfind => ?_
  have harg := (takesArg_of_findOption hfind).symm.trans htakes
  dsimp only
  rw [if_pos harg, if_pos harg]
  exact congrFun (assignArgument_then found.1 found.2 _ value post) q

private theorem not_long_of_ne {c : Char} (hc : c ≠ '-') (s : List Char) : ¬ "--".toList <+: '-' :: c :: s := by
  intro h
  have hpair : ['-', '-'] <+: '-' :: c :: s := h
  rw [List.cons_prefix_cons, List.cons_prefix_cons] at hpair
  exact hc hpair.2.1.symm

private theorem parseShortOptions_cons (next : Option (List Char)) (c : Char) (cs : List Char) :
    (parseShortOptions next (c :: cs) : Parsing σ Bool) = (findOption [c] >>= fun found =>
      if found.2.hasArg.isSome then
        if cs.isEmpty then assignArgument found.1 found.2 ('-' :: found.2.shortName) (next.getD []) next.isSome
        else assignArgument found.1 found.2 ('-' :: found.2.shortName) cs false
      else assign found.1 found.2 [] >>= fun _ => parseShortOptions next cs) := rfl

private theorem startsWith_dash (s : List Char) : "-".toList <+: '-' :: s := List.prefix_append ['-'] s

/-- The argument of a short option in the next token or in its own. -/
private theorem parseTokens_short {c : Char} (hc : c ≠ '-') (htakes : takesArg p.declared [c] = true)
    {value : List Char} (hvalue : value ≠ []) (post : List (List Char)) :
    parseTokens false (['-', c] :: value :: post) p = parseTokens false (('-' :: c :: value) :: post) p := by
  rw [parseTokens_option (startsWith_dash [c]), parseTokens_option (startsWith_dash (c :: value)),
    parseOption, parseOption, if_neg (not_long_of_ne hc []), if_neg (not_long_of_ne hc value),
    List.drop_succ_cons, List.drop_succ_cons, List.drop_zero, List.drop_zero,
    parseShortOptions_cons, parseShortOptions_cons, bind_assoc, bind_assoc]
  refine Ensures.bind_eq_bind rfl fun found q hfind => ?_
  have harg := (takesArg_of_findOption hfind).symm.trans htakes
  have hempty : value.isEmpty = false := by simpa using hvalue
  rw [if_pos harg, if_pos harg, hempty]
  exact congrFun (assignArgument_then found.1 found.2 _ value post) q

/-- A flag at the front of a cluster or in a token of its own. -/
private theorem parseTokens_cluster {c : Char} (hc : c ≠ '-') (hflag : takesArg p.declared [c] = false) {cs : List Char}
    (hcs : cs.head? ≠ some '-') (post : List (List Char)) :
    parseTokens false (('-' :: c :: cs) :: post) p = parseTokens false (['-', c] :: ('-' :: cs) :: post) p := by
  have hlong : ¬ "--".toList <+: '-' :: cs := by
    cases cs with
    | nil => decide
    | cons d cs => exact not_long_of_ne (fun hd => hcs (congrArg some hd)) cs
  rw [parseTokens_option (startsWith_dash (c :: cs)), parseTokens_option (startsWith_dash [c]),
    parseOption, parseOption, if_neg (not_long_of_ne hc cs), if_neg (not_long_of_ne hc []),
    List.drop_succ_cons, List.drop_succ_cons, List.drop_zero, List.drop_zero,
    parseShortOptions_cons, parseShortOptions_cons, bind_assoc, bind_assoc]
  refine Ensures.bind_eq_bind rfl fun found q hfind => ?_
  have harg : ¬ found.2.hasArg.isSome = true := by
    rw [← takesArg_of_findOption hfind, hflag]
    exact Bool.false_ne_true
  rw [if_neg harg, if_neg harg, bind_assoc, bind_assoc]
  refine Ensures.bind_eq_bind rfl fun u q' _ => ?_
  show _ = parseTokens false (('-' :: cs) :: post) q'
  rw [parseTokens_option (startsWith_dash cs), parseOption, if_neg hlong]
  rfl

/-- Wherever an option stands in the option part, the three ways to take tokens apart change nothing, as long as the
short option is not the dash: an argument behind `=`, an argument behind a short option, a cluster behind a flag. -/
theorem parse_spellings {σ : Type} (p : ArgumentParser σ) (prog : List Char) {pre : List (List Char)}
    (hpre : OptionPart p.declared pre) (post : List (List Char)) :
    (∀ n value, '=' ∉ n → takesArg p.declared n = true →
      parse (prog :: (pre ++ ("--".toList ++ n) :: value :: post)) p =
        parse (prog :: (pre ++ ("--".toList ++ (n ++ '=' :: value)) :: post)) p) ∧
    (∀ c value, c ≠ '-' → value ≠ [] → takesArg p.declared [c] = true →
      parse (prog :: (pre ++ ['-', c] :: value :: post)) p =
        parse (prog :: (pre ++ ('-' :: c :: value) :: post)) p) ∧
    ∀ c cs, c ≠ '-' → cs.head? ≠ some '-' → takesArg p.declared [c] = false →
      parse (prog :: (pre ++ ('-' :: c :: cs) :: post)) p =
        parse (prog :: (pre ++ ['-', c] :: ('-' :: cs) :: post)) p := by
  refine ⟨fun n value hn htakes => ?_, fun c value hc hvalue htakes => ?_, fun c cs hc hcs hflag => ?_⟩
  · exact parse_append_congr prog hpre fun q hq => parseTokens_long hn (hq ▸ htakes) value post
  · exact parse_append_congr prog hpre fun q hq => parseTokens_short hc (hq ▸ htakes) hvalue post
  · exact parse_append_congr prog hpre fun q hq => parseTokens_cluster hc (hq ▸ hflag) hcs post

/-- A flag and an option with an argument; the callbacks note what they are called with. -/
def notingParser : ArgumentParser (List (List Char)) where
  options := [
    { shortName := ['v'], callback := some fun arg seen => .ok (seen ++ ['v' :: arg]) },
    { shortName := ['o'], longName := "output".toList, hasArg := some "PATH".toList
      callback := some fun arg seen => .ok (seen ++ ['o' :: arg]) }]
  positionals := [{ name := "command".toList, allowsMultiple := true }]
  captured := []

theorem parse_spellings_noting :
    parse ["r4r".toList, "-v".toList, "--output".toList, "a=b".toList, "ls".toList] notingParser =
      parse ["r4r".toList, "-v".toList, "--output=a=b".toList, "ls".toList] notingParser :=
  (parse_spellings notingParser "r4r".toList (.alone (by decide) (by decide) .nil : OptionPart _ ["-v".toList])
    ["ls".toList]).1 "output".toList "a=b".toList (by decide) (by decide)

/-- A table with an option whose short name is the dash. -/
def dashParser (hasArg : Option (List Char)) : ArgumentParser Unit where
  options := [{ shortName := ['-'], longName := "dash".toList, hasArg := hasArg }]
  positionals := []
  captured := ()

/-- The message of the exception that `parse` throws. -/
def messageOf (r : EStateM.Result ParserFailure (ArgumentParser σ) Unit) : Option (List Char) :=
  match r with
  | .error (.exception message) _ => some message
  | _ => none

/-- `--` is no spelling of the option named by the dash, with an argument or as a flag. -/
theorem not_spellings_dash :
    (takesArg (dashParser (some ['X'])).declared ['-'] = true ∧
      parse ["r4r".toList, ['-', '-'], ['x']] (dashParser (some ['X'])) ≠
        parse ["r4r".toList, ['-', '-', 'x']] (dashParser (some ['X']))) ∧
    takesArg (dashParser none).declared ['-'] = false ∧
      parse ["r4r".toList, ['-', '-', 'x']] (dashParser none) ≠
        parse ["r4r".toList, ['-', '-'], ['-', 'x']] (dashParser none) := by
  refine ⟨⟨by decide, fun he => ?_⟩, by decide, fun he => ?_⟩
  · have hmessage := congrArg messageOf he
    exact absurd hmessage (by decide)
  · have hmessage := congrArg messageOf he
    exact absurd hmessage (by decide)

end R4R.ArgumentParser
