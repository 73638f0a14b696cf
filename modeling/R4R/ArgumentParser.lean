import Mathlib.Data.List.Basic
import R4R.Lib.Ensures

/-!
# The argument parser

`ArgumentParser`, over the state that the callbacks of its options change.  Every function keeps the state that it has
reached when it fails.  Tokens, names and values are texts.
-/

namespace R4R

/-- What leaves `parse`: an `ArgumentParserException`, or `exit` in a callback. -/
inductive ParserFailure where
  | exception (message : List Char)
  | exit (code : Nat)
deriving DecidableEq, Repr

/-- `ArgumentParser::Callback`. -/
abbrev ParserCallback (σ : Type) := List Char → σ → Except ParserFailure σ

/-- `ArgumentParser::Option`. -/
structure ParserOption (σ : Type) where
  shortName : List Char := []
  longName : List Char := []
  hasArg : Option (List Char) := none
  isRequired : Bool := false
  defaultValue : Option (List Char) := none
  callback : Option (ParserCallback σ) := none
  value : Option (List Char) := none

/-- `ArgumentParser::Positional`. -/
structure ParserPositional (σ : Type) where
  name : List Char
  isRequired : Bool := false
  allowsMultiple : Bool := false
  callback : Option (ParserCallback σ) := none
  values : List (List Char) := []

/-- `ArgumentParser`, with what its callbacks have captured. -/
structure ArgumentParser (σ : Type) where
  options : List (ParserOption σ)
  positionals : List (ParserPositional σ)
  captured : σ

abbrev Parsing (σ : Type) := EStateM ParserFailure (ArgumentParser σ)

namespace ParserOption

variable {σ : Type}

def isNamed (opt : ParserOption σ) (name : List Char) : Bool := opt.shortName == name || opt.longName == name

/-- `format_option_name`. -/
def formatName (opt : ParserOption σ) : List Char :=
  let short := if opt.shortName.isEmpty then [] else '-' :: opt.shortName
  if opt.longName.isEmpty then short
  else short ++ (if short.isEmpty then "--".toList else "/--".toList) ++ opt.longName

end ParserOption

namespace ArgumentParser

variable {σ : Type}

/-- `Result::contains`. -/
def contains (p : ArgumentParser σ) (name : List Char) : Bool :=
  p.options.any fun opt => opt.isNamed name && opt.value.isSome

def setValueAt (p : ArgumentParser σ) (i : Nat) (value : List Char) : ArgumentParser σ :=
  { p with options := p.options.modify i fun opt => { opt with value := some value } }

def addPositionalAt (p : ArgumentParser σ) (i : Nat) (value : List Char) : ArgumentParser σ :=
  { p with positionals := p.positionals.modify i fun pos => { pos with values := pos.values ++ [value] } }

/-- The call of a callback, if there is one. -/
def runCallback (callback : Option (ParserCallback σ)) (value : List Char) : Parsing σ Unit := fun p =>
  match callback with
  | none => .ok () p
  | some f =>
    match f value p.captured with
    | .ok captured => .ok () { p with captured }
    | .error e => .error e p

/-- A value for the option at `i`. -/
def assign (i : Nat) (opt : ParserOption σ) (value : List Char) : Parsing σ Unit := do
  modify fun p => p.setValueAt i value
  runCallback opt.callback value

/-- `find_option`, with the place of the option. -/
def findOption (name : List Char) : Parsing σ (Nat × ParserOption σ) := fun p =>
  match p.options.zipIdx.find? fun entry => entry.1.isNamed name with
  | some (opt, i) => .ok (i, opt) p
  | none => .error (.exception ("Unknown option: ".toList ++ name)) p

/-- The argument of an option, which must not be empty; `taken` says whether it is the next token. -/
def assignArgument (i : Nat) (opt : ParserOption σ) (name value : List Char) (taken : Bool) : Parsing σ Bool :=
  if value.isEmpty then throw (.exception ("Option requires argument: ".toList ++ name))
  else do
    assign i opt value
    return taken

/-- `parse_long_option`; the result says whether the next token was taken as the value. -/
def parseLongOption (arg : List Char) (next : Option (List Char)) : Parsing σ Bool := do
  let (i, opt) ← findOption ((arg.drop 2).takeWhile (· ≠ '='))
  if opt.hasArg.isSome then
    match (arg.drop 2).dropWhile (· ≠ '=') with
    | _ :: value => assignArgument i opt ("--".toList ++ opt.longName) value false
    | [] => assignArgument i opt ("--".toList ++ opt.longName) (next.getD []) next.isSome
  else
    assign i opt []
    return false

/-- The loop of `parse_short_options` over the characters behind the dash. -/
def parseShortOptions (next : Option (List Char)) : List Char → Parsing σ Bool
  | [] => return false
  | c :: cs => do
    let (i, opt) ← findOption [c]
    if opt.hasArg.isSome then
      if cs.isEmpty then assignArgument i opt ('-' :: opt.shortName) (next.getD []) next.isSome
      else assignArgument i opt ('-' :: opt.shortName) cs false
    else
      assign i opt []
      parseShortOptions next cs

/-- `parse_positional`; the result is the index for the next token. -/
def parsePositional (arg : List Char) (i : Nat) : Parsing σ Nat := do
  match (← get).positionals[i]? with
  | none => throw (.exception ("Unexpected positional argument: ".toList ++ arg))
  | some pos =>
    modify fun p => p.addPositionalAt i arg
    runCallback pos.callback arg
    return if pos.allowsMultiple then i else i + 1

/-- The loop of `parse` once a token is positional. -/
def parsePositionals : Nat → List (List Char) → Parsing σ Unit
  | _, [] => return ()
  | i, arg :: args => do
    let i ← parsePositional arg i
    parsePositionals i args

/-- The loop of `parse`; the first argument says whether the token before took the next one as its value. -/
def parseTokens : Bool → List (List Char) → Parsing σ Unit
  | _, [] => return ()
  | true, _ :: args => parseTokens false args
  | false, arg :: args => do
    if "--".toList <+: arg then
      let taken ← parseLongOption arg args.head?
      parseTokens taken args
    else if "-".toList <+: arg then
      let taken ← parseShortOptions args.head? (arg.drop 1)
      parseTokens taken args
    else parsePositionals 0 (arg :: args)

/-- `validate_requirements`. -/
def validateRequirements : Parsing σ Unit := fun p =>
  match p.options.find? fun opt => opt.isRequired && opt.value.isNone with
  | some opt => .error (.exception ("Missing required option: ".toList ++ opt.formatName)) p
  | none =>
    match p.positionals.find? fun pos => pos.isRequired && pos.values.isEmpty with
    | some pos => .error (.exception ("Missing required positional: ".toList ++ pos.name)) p
    | none => .ok () p

/-- One turn of `apply_defaults`. -/
def applyDefault (i : Nat) : Parsing σ Unit := do
  match (← get).options[i]? with
  | none => return ()
  | some opt =>
    match opt.value, opt.defaultValue with
    | none, some value => assign i opt value
    | none, none => return ()
    | some _, _ => return ()

/-- `apply_defaults`. -/
def applyDefaults : Parsing σ Unit := do
  (List.range (← get).options.length).forM applyDefault

/-- `ArgumentParser::parse`. -/
def parse (argv : List (List Char)) : Parsing σ Unit := do
  parseTokens false (argv.drop 1)
  validateRequirements
  applyDefaults

/-! ### What a parser keeps -/

/-- The option that is found is the first one of that name. -/
theorem findOption_ok {name : List Char} {p p' : ArgumentParser σ} {found : Nat × ParserOption σ}
    (h : findOption name p = .ok found p') :
    p' = p ∧ (p.options.zipIdx.find? fun entry => entry.1.isNamed name) = some (found.2, found.1) := by
  unfold findOption at h
  split at h
  · rename_i opt i hfind
    cases h
    exact ⟨rfl, hfind⟩
  · cases h

theorem findOption_ensures {name : List Char} {p : ArgumentParser σ} :
    Ensures (findOption name) (fun found p' => p' = p ∧ p.options[found.1]? = some found.2) p := by
  intro found p' h
  obtain ⟨hp, hfind⟩ := findOption_ok h
  exact ⟨hp, List.mem_zipIdx_iff_getElem?.1 (List.mem_of_find?_eq_some hfind)⟩

theorem validateRequirements_ensures (p : ArgumentParser σ) :
    Ensures validateRequirements (fun _ p' => p' = p) p := by
  intro u p' h
  unfold validateRequirements at h
  split at h
  · cases h
  · split at h
    · cases h
    · cases h
      rfl

section Invariant

variable {I : ArgumentParser σ → Prop}

/-- An option of the table that gets a value keeps `I`. -/
def AssignKeeps (I : ArgumentParser σ → Prop) : Prop :=
  ∀ p i opt value, p.options[i]? = some opt → I p → Ensures (assign i opt value) (fun _ => I) p

/-- A positional argument keeps `I`. -/
def PositionalKeeps (I : ArgumentParser σ → Prop) : Prop :=
  ∀ arg i p, I p → Ensures (parsePositional arg i) (fun _ => I) p

variable (hassign : AssignKeeps I)
include hassign

private theorem assignArgument_keeps {i : Nat} {opt : ParserOption σ} {p : ArgumentParser σ}
    (hopt : p.options[i]? = some opt) (hp : I p) (name value : List Char) (taken : Bool) :
    Ensures (assignArgument i opt name value taken) (fun _ => I) p := by
  unfold assignArgument
  split
  · exact Ensures.throw
  · exact Ensures.bind fun u p₁ h₁ => Ensures.pure (a := taken) (hassign p i opt value hopt hp u p₁ h₁)

theorem parseLongOption_keeps (arg : List Char) (next : Option (List Char)) {p : ArgumentParser σ} (hp : I p) :
    Ensures (parseLongOption arg next) (fun _ => I) p := by
  refine Ensures.bind fun found p' h => ?_
  obtain ⟨rfl, hopt⟩ := findOption_ensures found p' h
  dsimp only
  split
  · split
    · exact assignArgument_keeps hassign hopt hp _ _ _
    · exact assignArgument_keeps hassign hopt hp _ _ _
  · exact Ensures.bind fun u p₁ h₁ => Ensures.pure (a := false) (hassign p' found.1 found.2 _ hopt hp u p₁ h₁)

theorem parseShortOptions_keeps (next : Option (List Char)) (cs : List Char) : ∀ p : ArgumentParser σ, I p →
    Ensures (parseShortOptions next cs) (fun _ => I) p := by
  induction cs with
  | nil => exact fun p hp => Ensures.pure (a := false) hp
  | cons c cs ih =>
    intro p hp
    refine Ensures.bind fun found p' h => ?_
    obtain ⟨rfl, hopt⟩ := findOption_ensures found p' h
    dsimp only
    split
    · split
      · exact assignArgument_keeps hassign hopt hp _ _ _
      · exact assignArgument_keeps hassign hopt hp _ _ _
    · exact Ensures.bind fun u p₁ h₁ => ih p₁ (hassign p' found.1 found.2 _ hopt hp u p₁ h₁)

private theorem applyDefault_keeps (i : Nat) {p : ArgumentParser σ} (hp : I p) :
    Ensures (applyDefault i) (fun _ => I) p := by
  unfold applyDefault
  refine Ensures.bind (Ensures.get ?_)
  cases hopt : p.options[i]? with
  | none => exact Ensures.pure hp
  | some opt =>
    dsimp only
    split
    · exact hassign p i opt _ hopt hp
    · exact Ensures.pure hp
    · exact Ensures.pure hp

theorem applyDefaults_keeps {p : ArgumentParser σ} (hp : I p) : Ensures applyDefaults (fun _ => I) p := by
  refine Ensures.bind (Ensures.get ?_)
  exact Ensures.forM _ (fun i _ p hp => applyDefault_keeps hassign i hp) p hp

variable (hpos : PositionalKeeps I)
include hpos

omit hassign in
private theorem parsePositionals_keeps (args : List (List Char)) : ∀ i, ∀ p : ArgumentParser σ, I p →
    Ensures (parsePositionals i args) (fun _ => I) p := by
  induction args with
  | nil => exact fun i p hp => Ensures.pure hp
  | cons arg args ih => exact fun i p hp => Ensures.bind fun j p₁ h₁ => ih j p₁ (hpos arg i p hp j p₁ h₁)

theorem parseTokens_keeps (args : List (List Char)) : ∀ taken, ∀ p : ArgumentParser σ, I p →
    Ensures (parseTokens taken args) (fun _ => I) p := by
  induction args with
  | nil =>
    intro taken p hp
    cases taken <;> exact Ensures.pure hp
  | cons arg args ih =>
    intro taken p hp
    cases taken with
    | true => exact ih false p hp
    | false =>
      unfold parseTokens
      split
      · exact Ensures.bind fun b p₁ h₁ => ih b p₁ (parseLongOption_keeps hassign arg args.head? hp b p₁ h₁)
      · split
        · exact Ensures.bind fun b p₁ h₁ =>
            ih b p₁ (parseShortOptions_keeps hassign args.head? (arg.drop 1) p hp b p₁ h₁)
        · exact parsePositionals_keeps hpos (arg :: args) 0 p hp

/-- What the assignments and the positional arguments keep, `parse` keeps. -/
private theorem parse_keeps (argv : List (List Char)) {p : ArgumentParser σ} (hp : I p) :
    Ensures (parse argv) (fun _ => I) p := by
  refine Ensures.bind fun u p₁ h₁ => Ensures.bind fun u' p₂ h₂ => ?_
  have hp₁ := parseTokens_keeps hassign hpos (argv.drop 1) false p hp u p₁ h₁
  obtain rfl := validateRequirements_ensures p₁ u' p₂ h₂
  exact applyDefaults_keeps hassign hp₁

end Invariant

/-! ### What only one option changes -/

section Captured

variable {β : Type} {get : σ → β} {name : List Char}

/-- The callback does not change what `get` reads. -/
def CallbackKeeps (get : σ → β) (callback : Option (ParserCallback σ)) : Prop :=
  ∀ f, callback = some f → ∀ value c c', f value c = .ok c' → get c' = get c

/-- Only the options of that name change what `get` reads, and it reads `b` while none of them has a value. -/
structure OnlyChangedBy (get : σ → β) (name : List Char) (b : β) (p : ArgumentParser σ) : Prop where
  options : ∀ opt ∈ p.options, opt.isNamed name = false → CallbackKeeps get opt.callback
  positionals : ∀ pos ∈ p.positionals, CallbackKeeps get pos.callback
  unchanged : p.contains name = false → get p.captured = b

theorem runCallback_ensures (get : σ → β) (callback : Option (ParserCallback σ)) (value : List Char)
    (p : ArgumentParser σ) :
    Ensures (runCallback callback value) (fun _ p' => ∃ c, p' = { p with captured := c } ∧
      (CallbackKeeps get callback → get c = get p.captured)) p := by
  intro u p' hrun
  unfold runCallback at hrun
  cases callback with
  | none =>
    cases hrun
    exact ⟨p.captured, rfl, fun _ => rfl⟩
  | some f =>
    cases hf : f value p.captured with
    | error e =>
      simp only [hf] at hrun
      cases hrun
    | ok c =>
      simp only [hf] at hrun
      cases hrun
      exact ⟨c, rfl, fun h => h f rfl value p.captured c hf⟩

theorem mem_modify {α : Type} {f : α → α} {i : Nat} {a : α} {l : List α} (h : a ∈ l.modify i f) :
    ∃ b ∈ l, a = f b ∨ a = b := by
  obtain ⟨j, hj⟩ := List.mem_iff_getElem?.1 h
  rw [List.getElem?_modify, Option.map_eq_map, Option.map_eq_some_iff] at hj
  obtain ⟨b, hb, rfl⟩ := hj
  refine ⟨b, List.mem_of_getElem? hb, ?_⟩
  by_cases hij : i = j
  · exact .inl (if_pos hij)
  · exact .inr (if_neg hij)

/-- An assignment leaves a value under the names of its option, and takes no value away. -/
private theorem not_isNamed_of_contains_setValueAt {p : ArgumentParser σ} {i : Nat} {opt : ParserOption σ}
    (value : List Char) (hopt : p.options[i]? = some opt) (h : (p.setValueAt i value).contains name = false) :
    opt.isNamed name = false ∧ p.contains name = false := by
  have hall : ∀ o ∈ (p.setValueAt i value).options, o.isNamed name = true → o.value = none := by
    simpa [contains] using h
  constructor
  · have hmem : { opt with value := some value } ∈ (p.setValueAt i value).options := by
      refine List.mem_of_getElem? (i := i) ?_
      simp [setValueAt, hopt]
    by_contra hnamed
    rw [Bool.not_eq_false] at hnamed
    exact absurd (hall _ hmem hnamed) (by simp)
  · simp only [contains, List.any_eq_false, Bool.and_eq_true, Option.isSome_iff_ne_none, ne_eq, not_and, not_not]
    intro o ho hnamed
    obtain ⟨j, hj⟩ := List.mem_iff_getElem?.1 ho
    by_cases hij : i = j
    · subst hij
      have hmem : { o with value := some value } ∈ (p.setValueAt i value).options := by
        refine List.mem_of_getElem? (i := i) ?_
        simp [setValueAt, hj]
      exact absurd (hall _ hmem hnamed) (by simp)
    · refine hall o (List.mem_of_getElem? (i := j) ?_) hnamed
      rw [← hj]
      exact List.getElem?_modify_ne _ _ hij

private theorem assignKeeps_onlyChangedBy (b : β) : AssignKeeps (OnlyChangedBy (σ := σ) get name b) := by
  intro p i opt value hopt hp
  refine Ensures.bind (Ensures.modify fun u p' hrun => ?_)
  obtain ⟨c, rfl, hc⟩ := runCallback_ensures get opt.callback value (p.setValueAt i value) u p' hrun
  refine ⟨fun o ho hnamed => ?_, hp.positionals, fun hcontains => ?_⟩
  · obtain ⟨o', ho', rfl | rfl⟩ := mem_modify ho
    · exact hp.options o' ho' hnamed
    · exact hp.options o ho' hnamed
  · obtain ⟨hnamed, hbefore⟩ := not_isNamed_of_contains_setValueAt value hopt hcontains
    exact (hc (hp.options opt (List.mem_of_getElem? hopt) hnamed)).trans (hp.unchanged hbefore)

private theorem positionalKeeps_onlyChangedBy (b : β) : PositionalKeeps (OnlyChangedBy (σ := σ) get name b) := by
  intro arg i p hp
  refine Ensures.bind (Ensures.get ?_)
  cases hpos : p.positionals[i]? with
  | none => exact Ensures.throw
  | some pos =>
    refine Ensures.bind (Ensures.modify (Ensures.bind fun u p' hrun => Ensures.pure ?_))
    obtain ⟨c, rfl, hc⟩ := runCallback_ensures get pos.callback arg (p.addPositionalAt i arg) u p' hrun
    refine ⟨hp.options, fun pos' hpos' => ?_, fun hcontains => ?_⟩
    · obtain ⟨pos₀, hmem, rfl | rfl⟩ := mem_modify hpos'
      · exact hp.positionals pos₀ hmem
      · exact hp.positionals pos' hmem
    · exact (hc (hp.positionals pos (List.mem_of_getElem? hpos))).trans (hp.unchanged hcontains)

/-- What only the options of a name change stays as it is when `parse` has found none of them. -/
theorem captured_of_not_contains (get : σ → β) {argv : List (List Char)} {p p' : ArgumentParser σ} {u : Unit}
    (hoptions : ∀ opt ∈ p.options, opt.isNamed name = false → CallbackKeeps get opt.callback)
    (hpositionals : ∀ pos ∈ p.positionals, CallbackKeeps get pos.callback) (hrun : parse argv p = .ok u p')
    (h : p'.contains name = false) : get p'.captured = get p.captured :=
  have hend := parse_keeps (assignKeeps_onlyChangedBy (get p.captured)) (positionalKeeps_onlyChangedBy _) argv
    (OnlyChangedBy.mk hoptions hpositionals fun _ => rfl) u p' hrun
  hend.unchanged h

end Captured

end ArgumentParser

end R4R
