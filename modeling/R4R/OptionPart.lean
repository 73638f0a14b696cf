import Mathlib.Data.List.TakeWhile
import R4R.CommandLine

/-!
# The two parts of a command line

The table of the options alone says where the options of a command line end: an option token starts with a dash, and it
takes the next token exactly when the last option that it names needs an argument that the token does not give.  The
positional arguments are the rest, whatever they look like.
-/

namespace R4R

/-- What the table declares about an option. -/
structure OptionDecl where
  shortName : List Char
  longName : List Char
  hasArg : Bool
deriving DecidableEq

def OptionDecl.isNamed (d : OptionDecl) (name : List Char) : Bool := d.shortName == name || d.longName == name

def ParserOption.decl {σ : Type} (opt : ParserOption σ) : OptionDecl := ⟨opt.shortName, opt.longName, opt.hasArg.isSome⟩

/-- The table has an option of that name, and the first one needs an argument. -/
def takesArg (table : List OptionDecl) (name : List Char) : Bool :=
  ((table.find? fun d => d.isNamed name).map OptionDecl.hasArg).getD false

/-- The name in a long option token. -/
def longName (arg : List Char) : List Char := (arg.drop 2).takeWhile (· ≠ '=')

/-- The last option of a cluster takes the next token. -/
def clusterTakesNext (table : List OptionDecl) : List Char → Bool
  | [] => false
  | c :: cs => if takesArg table [c] then cs.isEmpty else clusterTakesNext table cs

/-- The token takes the next one as the argument of an option. -/
def takesNext (table : List OptionDecl) (arg : List Char) : Bool :=
  if "--".toList <+: arg then takesArg table (longName arg) && decide ('=' ∉ arg.drop 2)
  else clusterTakesNext table (arg.drop 1)

/-- Option tokens, each with the argument that it takes. -/
inductive OptionPart (table : List OptionDecl) : List (List Char) → Prop
  | nil : OptionPart table []
  | alone {arg : List Char} {args : List (List Char)} (harg : "-".toList <+: arg) (htakes : takesNext table arg = false)
      (hargs : OptionPart table args) : OptionPart table (arg :: args)
  | withValue {arg value : List Char} {args : List (List Char)} (harg : "-".toList <+: arg)
      (htakes : takesNext table arg = true) (hargs : OptionPart table args) : OptionPart table (arg :: value :: args)

/-- The first token is no option token. -/
def PositionalPart (args : List (List Char)) : Prop := ∀ arg ∈ args.head?, ¬ "-".toList <+: arg

private theorem PositionalPart.ne_cons {arg : List Char} {args post : List (List Char)} (hpost : PositionalPart post)
    (harg : "-".toList <+: arg) : post ≠ arg :: args := by
  rintro rfl
  exact hpost arg rfl harg

/-- The table splits a command line in one way only. -/
private theorem OptionPart.split_unique {table : List OptionDecl} {pre post : List (List Char)}
    (hpre : OptionPart table pre)
    (hpost : PositionalPart post) : ∀ {pre' post' : List (List Char)}, OptionPart table pre' → PositionalPart post' →
      pre ++ post = pre' ++ post' → pre = pre' ∧ post = post' := by
  induction hpre with
  | nil =>
    intro pre' post' hpre' _ he
    cases hpre' with
    | nil => exact ⟨rfl, he⟩
    | alone harg => exact absurd he (hpost.ne_cons harg)
    | withValue harg => exact absurd he (hpost.ne_cons harg)
  | alone harg htakes hargs ih =>
    intro pre' post' hpre' hpost' he
    cases hpre' with
    | nil => exact absurd he.symm (hpost'.ne_cons harg)
    | alone harg' htakes' hargs' =>
      simp only [List.cons_append, List.cons.injEq] at he
      obtain ⟨rfl, rfl⟩ := ih hargs' hpost' he.2
      exact ⟨by rw [he.1], rfl⟩
    | withValue harg' htakes' =>
      simp only [List.cons_append, List.cons.injEq] at he
      rw [he.1, htakes'] at htakes
      cases htakes
  | withValue harg htakes hargs ih =>
    intro pre' post' hpre' hpost' he
    cases hpre' with
    | nil => exact absurd he.symm (hpost'.ne_cons harg)
    | alone harg' htakes' =>
      simp only [List.cons_append, List.cons.injEq] at he
      rw [he.1, htakes'] at htakes
      cases htakes
    | withValue harg' htakes' hargs' =>
      simp only [List.cons_append, List.cons.injEq] at he
      obtain ⟨rfl, rfl⟩ := ih hargs' hpost' he.2.2
      exact ⟨by rw [he.1, he.2.1], rfl⟩

namespace ArgumentParser

variable {σ : Type} {p p' : ArgumentParser σ}

def declared (p : ArgumentParser σ) : List OptionDecl := p.options.map ParserOption.decl

/-! ### One option token -/

/-- `parse_long_option` or `parse_short_options`. -/
def parseOption (arg : List Char) (next : Option (List Char)) : Parsing σ Bool :=
  if "--".toList <+: arg then parseLongOption arg next else parseShortOptions next (arg.drop 1)

theorem parseTokens_option {arg : List Char} (harg : "-".toList <+: arg) (args : List (List Char)) :
    (parseTokens false (arg :: args) : Parsing σ Unit) =
      (parseOption arg args.head? >>= fun taken => parseTokens taken args) := by
  rw [parseTokens, parseOption]
  by_cases hlong : "--".toList <+: arg
  · rw [if_pos hlong, if_pos hlong]
  · rw [if_neg hlong, if_neg hlong, if_pos harg]

/-- The option that is found is the one that the table says. -/
theorem takesArg_of_findOption {name : List Char} {found : Nat × ParserOption σ}
    (h : findOption name p = .ok found p') : takesArg p.declared name = found.2.hasArg.isSome := by
  have hopt : p.options.find? (fun opt => opt.isNamed name) = some found.2 := by
    rw [← List.zipIdx_map_fst 0 p.options, List.find?_map]
    exact congrArg (Option.map Prod.fst) (findOption_ok h).2
  have hdecl : p.declared.find? (fun d => d.isNamed name) = some found.2.decl := by
    rw [declared, List.find?_map]
    exact congrArg (Option.map ParserOption.decl) hopt
  rw [takesArg, hdecl]
  rfl

/-- A value that is assigned shows neither in what the table declares nor in the positional arguments. -/
theorem assignKeeps_tables (table : List OptionDecl) (positionals : List (ParserPositional σ)) :
    AssignKeeps fun q : ArgumentParser σ => q.declared = table ∧ q.positionals = positionals := by
  rintro q i opt value - ⟨rfl, rfl⟩
  have hdeclared : (q.setValueAt i value).declared = q.declared := by
    unfold declared setValueAt
    refine List.ext_getElem? fun j => ?_
    rw [List.getElem?_map, List.getElem?_map, List.getElem?_modify]
    cases q.options[j]? with
    | none => rfl
    | some o =>
      by_cases hij : i = j
      · simp [hij, ParserOption.decl]
      · simp [hij]
  refine Ensures.bind (Ensures.modify fun u p' hrun => ?_)
  obtain ⟨c, rfl, -⟩ := runCallback_ensures id opt.callback value (q.setValueAt i value) u p' hrun
  exact ⟨hdeclared, rfl⟩

private theorem assignArgument_ensures (i : Nat) (opt : ParserOption σ) (name value : List Char) (taken : Bool)
    (p : ArgumentParser σ) :
    Ensures (assignArgument i opt name value taken) (fun b _ => b = taken ∧ value ≠ []) p := by
  unfold assignArgument
  split
  · exact Ensures.throw
  · rename_i hvalue
    exact Ensures.bind fun _ _ _ => Ensures.pure ⟨rfl, fun h => hvalue (List.isEmpty_iff.2 h)⟩

/-- What a token takes, its result says; and there is something to take. -/
def TakenIs (takes : Bool) (next : Option (List Char)) (taken : Bool) : Prop :=
  taken = takes ∧ (taken = true → next.isSome = true)

/-- An argument that is not given in the token is the next token. -/
private theorem assignArgument_next (i : Nat) (opt : ParserOption σ) (name : List Char) (next : Option (List Char))
    (p : ArgumentParser σ) :
    Ensures (assignArgument i opt name (next.getD []) next.isSome) (fun b _ => TakenIs true next b) p := by
  intro b p' h
  obtain ⟨rfl, hne⟩ := assignArgument_ensures i opt name (next.getD []) next.isSome p b p' h
  have hsome : next.isSome = true := by
    cases next with
    | none => exact absurd rfl hne
    | some value => rfl
  exact ⟨hsome, id⟩

theorem dropWhile_eq_nil_iff (s : List Char) : s.dropWhile (· ≠ '=') = [] ↔ '=' ∉ s := by
  rw [List.dropWhile_eq_nil_iff]
  constructor
  · intro h hmem
    exact absurd (h '=' hmem) (by decide)
  · intro h c hc
    exact decide_eq_true fun he => h (he ▸ hc)

private theorem parseLongOption_taken (arg : List Char) (next : Option (List Char)) (p : ArgumentParser σ) :
    Ensures (parseLongOption arg next)
      (fun taken _ => TakenIs (takesArg p.declared (longName arg) && decide ('=' ∉ arg.drop 2)) next taken) p := by
  refine Ensures.bind fun found p' h => ?_
  have htakes : takesArg p.declared (longName arg) = found.2.hasArg.isSome := takesArg_of_findOption h
  rw [htakes]
  dsimp only
  split
  · rename_i harg
    rw [harg]
    split
    · rename_i value hvalue
      have hmem : '=' ∈ arg.drop 2 := by
        by_contra hmem
        rw [(dropWhile_eq_nil_iff _).2 hmem] at hvalue
        cases hvalue
      intro b p₁ h₁
      obtain ⟨rfl, -⟩ := assignArgument_ensures _ _ _ _ _ _ b p₁ h₁
      exact ⟨by simp [hmem], by simp⟩
    · rename_i hvalue
      have hmem := (dropWhile_eq_nil_iff _).1 hvalue
      simp only [hmem, not_false_eq_true, decide_true, Bool.and_true]
      exact assignArgument_next _ _ _ _ _
  · rename_i harg
    rw [Bool.not_eq_true] at harg
    rw [harg]
    exact Ensures.bind fun _ _ _ => Ensures.pure ⟨rfl, by simp⟩

private theorem parseShortOptions_taken (next : Option (List Char)) (cs : List Char) : ∀ p : ArgumentParser σ,
    Ensures (parseShortOptions next cs) (fun taken _ => TakenIs (clusterTakesNext p.declared cs) next taken) p := by
  induction cs with
  | nil => exact fun p => Ensures.pure ⟨rfl, nofun⟩
  | cons c cs ih =>
    intro p
    refine Ensures.bind fun found p' h => ?_
    obtain ⟨rfl, hopt⟩ := findOption_ensures found p' h
    rw [clusterTakesNext, takesArg_of_findOption h]
    dsimp only
    split
    · split
      · rename_i hempty
        rw [hempty]
        exact assignArgument_next _ _ _ _ _
      · rename_i hempty
        rw [Bool.not_eq_true] at hempty
        rw [hempty]
        intro b p₁ h₁
        obtain ⟨rfl, -⟩ := assignArgument_ensures _ _ _ _ _ _ b p₁ h₁
        exact ⟨rfl, nofun⟩
    · refine Ensures.bind fun _ p₁ h₁ => ?_
      obtain ⟨hdeclared, -⟩ := assignKeeps_tables p'.declared p'.positionals p' _ _ _ hopt ⟨rfl, rfl⟩ _ p₁ h₁
      rw [← hdeclared]
      exact ih p₁

theorem parseOption_taken (arg : List Char) (next : Option (List Char)) (p : ArgumentParser σ) :
    Ensures (parseOption arg next) (fun taken _ => TakenIs (takesNext p.declared arg) next taken) p := by
  unfold parseOption takesNext
  split
  · exact parseLongOption_taken arg next p
  · exact parseShortOptions_taken next (arg.drop 1) p

theorem parseOption_keeps {I : ArgumentParser σ → Prop} (hassign : AssignKeeps I) (arg : List Char)
    (next : Option (List Char)) (hp : I p) : Ensures (parseOption arg next) (fun _ => I) p := by
  unfold parseOption
  split
  · exact parseLongOption_keeps hassign arg next hp
  · exact parseShortOptions_keeps hassign next (arg.drop 1) p hp

/-! ### The option part -/

/-- When the tokens are read to their end, they are an option part, which leaves every invariant of the assignments,
and a positional part. -/
private theorem parseTokens_split (n : Nat) : ∀ (args : List (List Char)) (p p' : ArgumentParser σ), args.length ≤ n →
    parseTokens false args p = .ok () p' → ∃ pre post p₁, args = pre ++ post ∧ OptionPart p.declared pre ∧
      PositionalPart post ∧ (∀ I, AssignKeeps I → I p → I p₁) ∧ parsePositionals 0 post p₁ = .ok () p' := by
  induction n with
  | zero =>
    intro args p p' hlen h
    obtain rfl := List.length_eq_zero_iff.1 (Nat.le_zero.1 hlen)
    exact ⟨[], [], p, rfl, .nil, nofun, fun _ _ hp => hp, h⟩
  | succ n ih =>
    intro args p p' hlen h
    cases args with
    | nil => exact ⟨[], [], p, rfl, .nil, nofun, fun _ _ hp => hp, h⟩
    | cons arg args =>
      by_cases harg : "-".toList <+: arg
      · rw [parseTokens_option harg] at h
        cases hopt : parseOption arg args.head? p with
        | error e p₁ =>
          rw [Ensures.bind_of_eq_error hopt] at h
          cases h
        | ok taken p₁ =>
          rw [Ensures.bind_of_eq_ok hopt] at h
          have hkeeps : ∀ I, AssignKeeps I → I p → I p₁ := fun I hI hp => parseOption_keeps hI arg _ hp _ p₁ hopt
          have hdeclared := (hkeeps _ (assignKeeps_tables p.declared p.positionals) ⟨rfl, rfl⟩).1
          obtain ⟨htaken, hnext⟩ := parseOption_taken arg args.head? p taken p₁ hopt
          cases taken with
          | false =>
            obtain ⟨pre, post, p₂, hargs, hpre, hpost, hkeeps₂, hrun⟩ := ih args p₁ p' (by simpa using hlen) h
            refine ⟨arg :: pre, post, p₂, by rw [hargs]; rfl, ?_, hpost, ?_, hrun⟩
            · exact .alone harg htaken.symm (hdeclared ▸ hpre)
            · exact fun I hI hp => hkeeps₂ I hI (hkeeps I hI hp)
          | true =>
            cases args with
            | nil => cases hnext rfl
            | cons value args =>
              have hlen' : args.length ≤ n := by
                simp only [List.length_cons] at hlen
                omega
              obtain ⟨pre, post, p₂, hargs, hpre, hpost, hkeeps₂, hrun⟩ := ih args p₁ p' hlen' h
              refine ⟨arg :: value :: pre, post, p₂, by rw [hargs]; rfl, ?_, hpost, ?_, hrun⟩
              · exact .withValue harg htaken.symm (hdeclared ▸ hpre)
              · exact fun I hI hp => hkeeps₂ I hI (hkeeps I hI hp)
      · refine ⟨[], arg :: args, p, rfl, .nil, ?_, fun _ _ hp => hp, ?_⟩
        · rintro a ⟨⟩
          exact harg
        · have hlong : ¬ "--".toList <+: arg := fun hl => harg ((by decide : "-".toList <+: "--".toList).trans hl)
          rw [parseTokens, if_neg hlong, if_neg harg] at h
          exact h

/-! ### The positional part -/

/-- The values of the positional arguments in the order of their declaration. -/
def positionalValues (p : ArgumentParser σ) : List (List Char) := p.positionals.flatMap ParserPositional.values

/-- No argument behind the place `i` has a value. -/
def EmptyBehind (p : ArgumentParser σ) (i : Nat) : Prop :=
  ∀ j pos, i < j → p.positionals[j]? = some pos → pos.values = []

private theorem positionalValues_addPositionalAt {i : Nat} (hi : i < p.positionals.length) (hempty : p.EmptyBehind i)
    (arg : List Char) : (p.addPositionalAt i arg).positionalValues = p.positionalValues ++ [arg] := by
  have hbehind : (p.positionals.drop (i + 1)).flatMap ParserPositional.values = [] := by
    rw [List.flatMap_eq_nil_iff]
    intro pos hpos
    obtain ⟨j, hj⟩ := List.mem_iff_getElem?.1 hpos
    rw [List.getElem?_drop] at hj
    exact hempty _ pos (by omega) hj
  have hsplit : p.positionals = p.positionals.take i ++ p.positionals[i] :: p.positionals.drop (i + 1) := by
    rw [← List.drop_eq_getElem_cons hi, List.take_append_drop]
  have hvalues : p.positionalValues =
      (p.positionals.take i).flatMap ParserPositional.values ++ p.positionals[i].values := by
    unfold positionalValues
    conv_lhs => rw [hsplit]
    rw [List.flatMap_append, List.flatMap_cons, hbehind, List.append_nil]
  rw [hvalues, positionalValues, addPositionalAt, List.modify_eq_take_cons_drop hi, List.flatMap_append,
    List.flatMap_cons, hbehind, List.append_nil, List.append_assoc]

private theorem EmptyBehind.addPositionalAt {i : Nat} (h : p.EmptyBehind i) (arg : List Char) :
    (p.addPositionalAt i arg).EmptyBehind i := by
  intro j pos hij hj
  have hsame : (p.addPositionalAt i arg).positionals[j]? = p.positionals[j]? := by
    rw [ArgumentParser.addPositionalAt, List.getElem?_modify_ne _ _ (by omega)]
  exact h j pos hij (hsame ▸ hj)

/-- The values grow by the argument, and the place does not go back. -/
private theorem parsePositional_values (arg : List Char) {i : Nat} (hempty : p.EmptyBehind i) :
    Ensures (parsePositional arg i)
      (fun j p' => p'.positionalValues = p.positionalValues ++ [arg] ∧ p'.EmptyBehind j) p := by
  refine Ensures.bind (Ensures.get ?_)
  cases hpos : p.positionals[i]? with
  | none => exact Ensures.throw
  | some pos =>
    obtain ⟨hi, -⟩ := List.getElem?_eq_some_iff.1 hpos
    refine Ensures.bind (Ensures.modify (Ensures.bind fun u p' hrun => Ensures.pure ?_))
    obtain ⟨c, rfl, -⟩ := runCallback_ensures id pos.callback arg (p.addPositionalAt i arg) u p' hrun
    have hbehind := hempty.addPositionalAt arg
    refine ⟨positionalValues_addPositionalAt hi hempty arg, ?_⟩
    split
    · exact hbehind
    · exact fun j pos' hj => hbehind j pos' (by omega)

private theorem parsePositionals_values (args : List (List Char)) :
    ∀ (i : Nat) (p : ArgumentParser σ), p.EmptyBehind i →
    Ensures (parsePositionals i args) (fun _ p' => p'.positionalValues = p.positionalValues ++ args) p := by
  induction args with
  | nil => exact fun i p _ => Ensures.pure (List.append_nil _).symm
  | cons arg args ih =>
    intro i p hempty
    refine Ensures.bind fun j p₁ h₁ => ?_
    obtain ⟨hvalues, hbehind⟩ := parsePositional_values arg hempty j p₁ h₁
    intro u p' h
    rw [ih j p₁ hbehind u p' h, hvalues, List.append_assoc]
    rfl

/-! ### What the callbacks collect -/

section Collected

variable {get : σ → List (List Char)}

/-- The callback appends its value to what `get` reads. -/
def CallbackAppends (get : σ → List (List Char)) (callback : Option (ParserCallback σ)) : Prop :=
  ∃ f, callback = some f ∧ ∀ value c c', f value c = .ok c' → get c' = get c ++ [value]

/-- No option changes what `get` reads. -/
structure KeptByOptions (get : σ → List (List Char)) (b : List (List Char)) (p : ArgumentParser σ) : Prop where
  options : ∀ opt ∈ p.options, CallbackKeeps get opt.callback
  eq : get p.captured = b

private theorem assignKeeps_keptByOptions (b : List (List Char)) : AssignKeeps (KeptByOptions (σ := σ) get b) := by
  intro p i opt value hopt hp
  refine Ensures.bind (Ensures.modify fun u p' hrun => ?_)
  obtain ⟨c, rfl, hc⟩ := runCallback_ensures get opt.callback value (p.setValueAt i value) u p' hrun
  refine ⟨fun o ho => ?_, (hc (hp.options opt (List.mem_of_getElem? hopt))).trans hp.eq⟩
  obtain ⟨o', ho', rfl | rfl⟩ := mem_modify ho
  · exact hp.options o' ho'
  · exact hp.options o ho'

private theorem parsePositional_captured (arg : List Char) (i : Nat)
    (happends : ∀ pos ∈ p.positionals, CallbackAppends get pos.callback) :
    Ensures (parsePositional arg i) (fun _ p' => get p'.captured = get p.captured ++ [arg] ∧ p'.options = p.options ∧
      ∀ pos ∈ p'.positionals, CallbackAppends get pos.callback) p := by
  refine Ensures.bind (Ensures.get ?_)
  cases hpos : p.positionals[i]? with
  | none => exact Ensures.throw
  | some pos =>
    refine Ensures.bind (Ensures.modify (Ensures.bind fun u p' hrun => Ensures.pure ?_))
    obtain ⟨f, hf, hget⟩ := happends pos (List.mem_of_getElem? hpos)
    rw [hf] at hrun
    unfold runCallback at hrun
    dsimp only at hrun
    split at hrun
    · rename_i c hc
      cases hrun
      refine ⟨hget arg _ c hc, rfl, fun pos' hpos' => ?_⟩
      obtain ⟨pos₀, hmem, rfl | rfl⟩ := mem_modify hpos'
      · exact happends pos₀ hmem
      · exact happends pos' hmem
    · cases hrun

private theorem parsePositionals_captured (args : List (List Char)) : ∀ (i : Nat) (p : ArgumentParser σ),
    (∀ pos ∈ p.positionals, CallbackAppends get pos.callback) →
    Ensures (parsePositionals i args)
      (fun _ p' => get p'.captured = get p.captured ++ args ∧ p'.options = p.options) p := by
  induction args with
  | nil => exact fun i p _ => Ensures.pure ⟨(List.append_nil _).symm, rfl⟩
  | cons arg args ih =>
    intro i p happends
    refine Ensures.bind fun j p₁ h₁ => ?_
    obtain ⟨hget, hoptions, happends₁⟩ := parsePositional_captured arg i happends j p₁ h₁
    intro u p' h
    obtain ⟨hget', hoptions'⟩ := ih j p₁ happends₁ u p' h
    exact ⟨by rw [hget', hget, List.append_assoc]; rfl, hoptions'.trans hoptions⟩

end Collected

/-! ### The command line -/

/-- The command line is split in one way only, and `post` is its positional part. -/
structure SplitsUniquely (table : List OptionDecl) (args pre post : List (List Char)) : Prop where
  split : args = pre ++ post
  options : OptionPart table pre
  positional : PositionalPart post
  unique : ∀ pre' post', args = pre' ++ post' → OptionPart table pre' → PositionalPart post' →
    pre' = pre ∧ post' = post

/-- A run of `parse` that returns has read an option part and a positional part. -/
private theorem parse_split {argv : List (List Char)} {u : Unit} (h : parse argv p = .ok u p') :
    ∃ pre post p₁ p₂, SplitsUniquely p.declared (argv.drop 1) pre post ∧ (∀ I, AssignKeeps I → I p → I p₁) ∧
      parsePositionals 0 post p₁ = .ok () p₂ ∧ ∀ I, AssignKeeps I → I p₂ → I p' := by
  have hend : Ensures (parse argv) (fun _ p' => ∃ p₂, parseTokens false (argv.drop 1) p = .ok () p₂ ∧
      ∀ I, AssignKeeps I → I p₂ → I p') p := by
    refine Ensures.bind fun _ p₂ h₂ => Ensures.bind fun u₃ p₃ h₃ => ?_
    obtain rfl := validateRequirements_ensures p₂ u₃ p₃ h₃
    exact fun u₄ p₄ h₄ => ⟨p₃, h₂, fun I hI hp => applyDefaults_keeps hI hp u₄ p₄ h₄⟩
  obtain ⟨p₂, h₂, hkeeps₂⟩ := hend u p' h
  obtain ⟨pre, post, p₁, hargs, hpre, hpost, hkeeps₁, hrun⟩ := parseTokens_split _ (argv.drop 1) p p₂ le_rfl h₂
  refine ⟨pre, post, p₁, p₂, ⟨hargs, hpre, hpost, ?_⟩, hkeeps₁, hrun, hkeeps₂⟩
  intro pre' post' hargs' hpre' hpost'
  exact hpre'.split_unique hpost' hpre hpost (hargs'.symm.trans hargs)

/-- Nothing has been parsed yet. -/
def Fresh (p : ArgumentParser σ) : Prop := ∀ pos ∈ p.positionals, pos.values = []

private theorem positionalValues_of_parse {argv : List (List Char)} {u : Unit} (hfresh : p.Fresh)
    (h : parse argv p = .ok u p') :
    ∃ pre post, SplitsUniquely p.declared (argv.drop 1) pre post ∧ p'.positionalValues = post := by
  obtain ⟨pre, post, p₁, p₂, hsplit, hkeeps₁, hrun, hkeeps₂⟩ := parse_split h
  obtain ⟨-, hpositionals⟩ := hkeeps₁ _ (assignKeeps_tables p.declared p.positionals) ⟨rfl, rfl⟩
  obtain ⟨-, hpositionals'⟩ := hkeeps₂ _ (assignKeeps_tables p₂.declared p₂.positionals) ⟨rfl, rfl⟩
  have hempty : p₁.EmptyBehind 0 := fun j pos _ hj => hfresh pos (hpositionals ▸ List.mem_of_getElem? hj)
  have hnil : p₁.positionalValues = [] := by
    rw [positionalValues, hpositionals]
    exact List.flatMap_eq_nil_iff.2 hfresh
  have hvalues := parsePositionals_values post 0 p₁ hempty () p₂ hrun
  refine ⟨pre, post, hsplit, ?_⟩
  rw [positionalValues, hpositionals', ← positionalValues, hvalues, hnil, List.nil_append]

/-- What only the positional arguments collect grows by the positional part. -/
private theorem captured_of_parse {get : σ → List (List Char)} {argv : List (List Char)} {u : Unit}
    (hoptions : ∀ opt ∈ p.options, CallbackKeeps get opt.callback)
    (hpositionals : ∀ pos ∈ p.positionals, CallbackAppends get pos.callback) (h : parse argv p = .ok u p') :
    ∃ pre post, SplitsUniquely p.declared (argv.drop 1) pre post ∧ get p'.captured = get p.captured ++ post := by
  obtain ⟨pre, post, p₁, p₂, hsplit, hkeeps₁, hrun, hkeeps₂⟩ := parse_split h
  have hstart := hkeeps₁ _ (assignKeeps_keptByOptions (get p.captured)) ⟨hoptions, rfl⟩
  obtain ⟨-, hsame⟩ := hkeeps₁ _ (assignKeeps_tables p.declared p.positionals) ⟨rfl, rfl⟩
  obtain ⟨hget, hopts⟩ := parsePositionals_captured post 0 p₁ (hsame ▸ hpositionals) () p₂ hrun
  have hend := hkeeps₂ _ (assignKeeps_keptByOptions (get p₂.captured)) ⟨hopts ▸ hstart.options, rfl⟩
  exact ⟨pre, post, hsplit, by rw [hend.eq, hget, hstart.eq]⟩

end ArgumentParser

/-- The command is the positional part: no option changes it. -/
private theorem Options.cmd_of_parseCmdArgs {currentPath : Path} {opts : Options} {argv : List (List Char)}
    {p' : ArgumentParser Options} {u : Unit} (h : parseCmdArgs currentPath opts argv = .ok u p') : ∃ pre post,
      ArgumentParser.SplitsUniquely (parser currentPath opts).declared (argv.drop 1) pre post ∧
        p'.captured.cmd = opts.cmd ++ post := by
  have hoptions : ∀ (o : Options), ∀ opt ∈ (parser currentPath o).options,
      ArgumentParser.CallbackKeeps Options.cmd opt.callback := by
    intro o opt hopt f hf value c c' hc
    simp only [parser, List.mem_cons, List.not_mem_nil, or_false] at hopt
    rcases hopt with rfl | rfl | rfl | rfl | rfl | rfl | rfl | rfl | rfl | rfl
    all_goals
      obtain rfl := Option.some.inj hf
      first
      | obtain rfl := Except.ok.inj hc
        rfl
      | cases hc
  have hpositionals : ∀ (o : Options), ∀ pos ∈ (parser currentPath o).positionals,
      ArgumentParser.CallbackAppends Options.cmd pos.callback := by
    intro o pos hpos
    obtain rfl := List.mem_singleton.1 hpos
    refine ⟨_, rfl, fun value c c' hc => ?_⟩
    obtain rfl := Except.ok.inj hc
    rfl
  unfold parseCmdArgs at h
  obtain ⟨pre, post, hsplit, hcmd⟩ := ArgumentParser.captured_of_parse (hoptions _) (hpositionals _) h
  exact ⟨pre, post, hsplit, hcmd⟩

/-- When `parse` returns, the command line has been split into its option part and its positional part, which no other
split does, and the values of the positional arguments are the positional part; so the command that `r4r` traces is
the positional part. -/
theorem parse_splits {σ : Type} :
    (∀ (p p' : ArgumentParser σ) (argv : List (List Char)) (u : Unit), p.Fresh →
      ArgumentParser.parse argv p = .ok u p' → ∃ pre post,
        ArgumentParser.SplitsUniquely p.declared (argv.drop 1) pre post ∧ p'.positionalValues = post) ∧
    ∀ (currentPath : Path) (opts : Options) (argv : List (List Char)) (p' : ArgumentParser Options) (u : Unit),
      Options.parseCmdArgs currentPath opts argv = .ok u p' → ∃ pre post,
        ArgumentParser.SplitsUniquely (Options.parser currentPath opts).declared (argv.drop 1) pre post ∧
          p'.captured.cmd = opts.cmd ++ post := by
  refine ⟨fun p p' argv u hfresh h => ArgumentParser.positionalValues_of_parse hfresh h, ?_⟩
  exact fun currentPath opts argv p' u h => Options.cmd_of_parseCmdArgs h

/-- A flag, an option with its argument, and a command whose words look like options. -/
def tracedCommand : List (List Char) :=
  ["r4r".toList, "-v".toList, "--output".toList, "out".toList, "R".toList, "--no-save".toList, "-v".toList]

private theorem fresh_optionsParser (currentPath : Path) (opts : Options) :
    (Options.parser currentPath opts).Fresh := by
  intro pos hpos
  obtain rfl := List.mem_singleton.1 hpos
  rfl

theorem parse_splits_tracedCommand :
    ∃ opts p', ArgumentParser.parse tracedCommand (Options.parser ⟨[]⟩ opts) = .ok () p' ∧
      (∃ pre post, ArgumentParser.SplitsUniquely (Options.parser ⟨[]⟩ opts).declared (tracedCommand.drop 1) pre post ∧
        p'.positionalValues = post) ∧
      ∃ pre post, ArgumentParser.SplitsUniquely (Options.parser ⟨[]⟩ (Options.init ⟨[]⟩)).declared
        (tracedCommand.drop 1) pre post ∧ p'.captured.cmd = [] ++ post := by
  have hok : (Options.parseCmdArgs ⟨[]⟩ (Options.init ⟨[]⟩) tracedCommand).succeeded = true := by decide +kernel
  obtain ⟨u, p', hrun⟩ := EStateM.Result.exists_of_succeeded hok
  have hcmd := (@parse_splits Options).2 ⟨[]⟩ (Options.init ⟨[]⟩) tracedCommand p' u hrun
  unfold Options.parseCmdArgs at hrun
  exact ⟨_, p', hrun, (@parse_splits Options).1 _ p' tracedCommand u (fresh_optionsParser _ _) hrun, hcmd⟩

end R4R
