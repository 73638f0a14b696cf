import R4R.Lib.ShellText

/-!
# Background jobs of a shell

A shell starts each command that ends with an ampersand in the background and goes on with the next one.  A text that
writes such commands one after the other, each with one quoted argument and its output redirected to a file, is read
back as their words (`jobs_append`).
-/

namespace ShellText

/-- The commands that are started in the background, and the last one. -/
def jobs (ext : Extent) (env : Environment) : Nat → List Char → Option (List (List (List Char)) × List (List Char))
  | 0, _ => none
  | n + 1, text =>
    match command ext env text with
    | some (words, []) => some ([], words)
    | some (words, '&' :: rest) =>
      -- two ampersands make one operator
      if rest.head? = some '&' then none else (jobs ext env n rest).map fun js => (words :: js.1, js.2)
    | _ => none

/-- A command with a quoted argument, its output and its errors in a file, in the background. -/
def job (ws : List (List Char)) (arg log : List Char) : List Char :=
  spaced ws ++ '"' :: quoteEscaped arg ++ "\" > ".toList ++ log ++ " 2>&1 & ".toList

/-- Texts that are not empty make a text that is at least as long as their number. -/
theorem length_le_length_flatMap {α β : Type} {f : α → List β} (hf : ∀ x, f x ≠ []) (xs : List α) :
    xs.length ≤ (xs.flatMap f).length := by
  induction xs with
  | nil => exact Nat.zero_le _
  | cons x xs ih =>
    have hpos := List.length_pos_iff.2 (hf x)
    rw [List.flatMap_cons, List.length_append, List.length_cons]
    omega

variable {ext : Extent} {env : Environment} {ws : List (List Char)} {arg log : List Char}

/-- A blank before a command. -/
private theorem command_blank (text : List Char) : command ext env (' ' :: text) = command ext env text := rfl

/-- The name of a file behind a redirection. -/
private theorem scan_redirected (ext : Extent) (env : Environment) (hlog : IsPlainWord log) (words : List (List Char))
    (text : List Char) :
    scan ext env 0 { redirected := true, words := words } (log ++ text) =
      scan ext env 0 { word := some log, redirected := true, words := words } text := by
  obtain ⟨hne, hcomment, hplain⟩ := hlog
  obtain ⟨c, cs, rfl⟩ := List.exists_cons_of_ne_nil hne
  obtain ⟨hc, hcs⟩ := List.forall_mem_cons.1 hplain
  have hhash : c = '#' → ({ redirected := true, words := words } : Scan).word ≠ none := by
    rintro rfl
    exact absurd rfl hcomment
  rw [List.cons_append, scan, step_of_isPlain hc rfl hhash]
  exact scan_plain hcs text (s := ({ redirected := true, words := words } : Scan).put c) (u := [c]) rfl rfl

/-- A job is read up to its ampersand. -/
theorem command_job (ext : Extent) (env : Environment) (hws : ∀ w ∈ ws, IsPlainWord w) (harg : ExpansionFree arg)
    (hlog : IsPlainWord log) (rest : List Char) :
    command ext env (job ws arg log ++ rest) = some (ws ++ [arg], '&' :: ' ' :: rest) := by
  have htext : job ws arg log ++ rest =
      spaced ws ++ ('"' :: (quoteEscaped arg ++ '"' :: (" > ".toList ++ (log ++ (" 2>&1 & ".toList ++ rest))))) := by
    simp [job]
  have hopen : ∀ text, scan ext env 0 { words := ws } ('"' :: text) =
      scan ext env 0 { quoting := .double, word := some [], bare := false, words := ws } text := fun _ => rfl
  have hredirect : ∀ text, scan ext env 0 { word := some arg, bare := false, words := ws } (" > ".toList ++ text) =
      scan ext env 0 { redirected := true, words := ws ++ [arg] } text := fun _ => rfl
  have hend : ∀ text, scan ext env 0 { word := some log, redirected := true, words := ws ++ [arg] }
      (" 2>&1 & ".toList ++ text) = some (ws ++ [arg], '&' :: ' ' :: text) := fun _ => rfl
  rw [htext, command, show ({} : Scan) = { words := [] } from rfl, scan_spaced hws, List.nil_append, hopen,
    scan_double harg _ rfl rfl, List.nil_append, hredirect, scan_redirected ext env hlog, hend]

/-- The jobs of a text, and the word behind them. -/
theorem jobs_append {α : Type*} (ext : Extent) (env : Environment) {ws : List (List Char)}
    (hws : ∀ w ∈ ws, IsPlainWord w) {arg log : α → List Char} {last : List Char} (hlast : IsPlainWord last)
    {xs : List α} (h : ∀ x ∈ xs, ExpansionFree (arg x) ∧ IsPlainWord (log x)) {fuel : Nat} (hfuel : xs.length < fuel) :
    jobs ext env fuel ((xs.flatMap fun x => job ws (arg x) (log x)) ++ last) =
      some (xs.map fun x => ws ++ [arg x], [last]) := by
  have hword : command ext env last = some ([last], []) := by
    have hbegin : scan ext env 0 { words := [] } (last ++ []) = _ := scan_begin hlast [] []
    rw [List.append_nil] at hbegin
    rw [command, show ({} : Scan) = { words := [] } from rfl, hbegin]
    rfl
  have hblank : ∀ n text, jobs ext env n (' ' :: text) = jobs ext env n text := by
    intro n text
    cases n with
    | zero => rfl
    | succ n => rw [jobs, jobs, command_blank]
  induction xs generalizing fuel with
  | nil =>
    obtain ⟨n, rfl⟩ : ∃ n, fuel = n + 1 := ⟨fuel - 1, by omega⟩
    simp [jobs, hword]
  | cons x xs ih =>
    obtain ⟨n, rfl⟩ : ∃ n, fuel = n + 1 := ⟨fuel - 1, by omega⟩
    obtain ⟨⟨harg, hlog⟩, hxs⟩ := List.forall_mem_cons.1 h
    have hrest := @ih hxs n (by simpa using hfuel)
    have hcommand := command_job ext env hws harg hlog
      ((xs.flatMap fun x => job ws (arg x) (log x)) ++ last)
    have hhead : (' ' :: ((xs.flatMap fun x => job ws (arg x) (log x)) ++ last)).head? ≠ some '&' := by simp
    rw [List.flatMap_cons, List.append_assoc, jobs, hcommand]
    simp only [if_neg hhead, hblank, hrest, Option.map_some, List.map_cons]

end ShellText
