import R4R.EscapeCmdArg
import R4R.Lib.JsonText
import R4R.Path

/-!
# The Dockerfile builder

`DockerFileBuilder::cmd` writes the traced command as the exec form of `CMD`, which Docker reads as a JSON array of
strings.  The arguments are quoted by `escape_cmd_arg`, which escapes what a shell would expand between double
quotes.  JSON has no escape for a dollar sign, a backtick or an exclamation mark and allows no control character
in a string, so the line is the exec form of the command exactly when no argument contains one of these
(`cmd_isExecForm_iff`).
-/

namespace R4R

/-- `DockerFileBuilder`. -/
structure DockerFileBuilder where
  baseImage : List Char
  contextDir : Path
  commands : List (List Char) := []
  copiedFiles : List Path := []
deriving DecidableEq, Repr

namespace DockerFileBuilder

/-- The line that `cmd` appends. -/
def cmdLine (commands : List (List Char)) : List Char :=
  "CMD [".toList ++ joinLoop ", ".toList (fun c => escapeCmdArg c false true) commands ++ "]".toList

/-- `DockerFileBuilder::cmd`. -/
def cmd (b : DockerFileBuilder) (commands : List (List Char)) : DockerFileBuilder :=
  { b with commands := b.commands ++ [cmdLine commands] }

/-- `DockerFileBuilder::build`: the text of the Dockerfile. -/
def dockerfile (b : DockerFileBuilder) : List Char :=
  "FROM ".toList ++ b.baseImage ++ "\n".toList ++ b.commands.flatMap fun c => c ++ "\n\n".toList

/-- The exec form of `CMD`: one line whose bracketed part is a JSON array that denotes the command. -/
def IsExecForm (line : List Char) (commands : List (List Char)) : Prop :=
  '\n' ∉ line ∧ ∃ inner, line = "CMD [".toList ++ inner ++ "]".toList ∧
    JsonText.stringArray ('[' :: (inner ++ [']'])) = some commands

/-- A character whose shell quoting is a legal JSON text for it. -/
def JsonSafe (c : Char) : Prop := c ≠ '$' ∧ c ≠ '\x60' ∧ c ≠ '!' ∧ 0x20 ≤ c.toNat

instance (c : Char) : Decidable (JsonSafe c) := inferInstanceAs (Decidable (_ ∧ _))

/-- What a JSON reader makes of a quoted argument. -/
def readBack (arg : List Char) : Option (List Char) := if arg.all (JsonSafe ·) then some arg else none

private theorem readBack_eq_some {arg : List Char} (h : ∀ c ∈ arg, JsonSafe c) : readBack arg = some arg :=
  if_pos (by simpa using h)

private theorem readBack_eq_none {arg : List Char} (h : ¬ ∀ c ∈ arg, JsonSafe c) : readBack arg = none :=
  if_neg (by simpa using h)

private theorem readBack_cons_of_safe {c : Char} (h : JsonSafe c) (arg : List Char) :
    readBack (c :: arg) = (readBack arg).map (c :: ·) := by
  by_cases harg : ∀ d ∈ arg, JsonSafe d
  · rw [readBack_eq_some harg, readBack_eq_some (List.forall_mem_cons.2 ⟨h, harg⟩)]
    rfl
  · rw [readBack_eq_none harg, readBack_eq_none fun hc => harg (List.forall_mem_cons.1 hc).2]
    rfl

private theorem readBack_cons_of_not {c : Char} (h : ¬ JsonSafe c) (arg : List Char) : readBack (c :: arg) = none :=
  readBack_eq_none fun hc => h (List.forall_mem_cons.1 hc).1

/-- Reading the text between the quotes: every escape that the quoting writes is read back as the character, or it
is no JSON escape. -/
private theorem stringChars_doubleQuoted (arg text : List Char) :
    JsonText.stringChars (doubleQuoted arg ++ '"' :: text) = (readBack arg).map (·, text) := by
  induction arg with
  | nil => rfl
  | cons c arg ih =>
    have hcons : doubleQuoted (c :: arg) = (if escapedInDouble c then ['\\', c] else [c]) ++ doubleQuoted arg := rfl
    rw [hcons]
    by_cases hesc : escapedInDouble c = true
    · rw [if_pos hesc, List.append_assoc]
      have hc : c = '$' ∨ c = '\x60' ∨ c = '"' ∨ c = '\\' ∨ c = '!' := by
        simpa [escapedInDouble] using hesc
      have hu : c ≠ 'u' := by rintro rfl; simp at hc
      show JsonText.stringChars ('\\' :: c :: (doubleQuoted arg ++ '"' :: text)) = _
      rw [JsonText.stringChars_shortEscape hu, ih]
      rcases hc with rfl | rfl | rfl | rfl | rfl
      · rw [readBack_cons_of_not (by decide)]; rfl
      · rw [readBack_cons_of_not (by decide)]; rfl
      · rw [readBack_cons_of_safe (by decide)]
        cases readBack arg <;> rfl
      · rw [readBack_cons_of_safe (by decide)]
        cases readBack arg <;> rfl
      · rw [readBack_cons_of_not (by decide)]; rfl
    · rw [if_neg hesc, List.append_assoc]
      have hc : c ≠ '$' ∧ c ≠ '\x60' ∧ c ≠ '"' ∧ c ≠ '\\' ∧ c ≠ '!' := by
        simpa [escapedInDouble] using hesc
      show JsonText.stringChars (c :: (doubleQuoted arg ++ '"' :: text)) = _
      by_cases hctl : c.toNat < 0x20
      · rw [JsonText.stringChars_control hctl, readBack_cons_of_not (fun h => by have := h.2.2.2; omega)]
        rfl
      · have hun : JsonText.isUnescaped c = true := by
          simp only [JsonText.isUnescaped, Bool.and_eq_true, decide_eq_true_eq, bne_iff_ne]
          exact ⟨⟨by omega, hc.2.2.1⟩, hc.2.2.2.1⟩
        rw [JsonText.stringChars_unescaped hun, ih,
          readBack_cons_of_safe ⟨hc.1, hc.2.1, hc.2.2.2.2, by omega⟩]
        cases readBack arg <;> rfl

/-- The part of the line between the brackets. -/
def cmdInner (commands : List (List Char)) : List Char :=
  joinLoop ", ".toList (fun c => escapeCmdArg c false true) commands

theorem cmdLine_eq (commands : List (List Char)) :
    cmdLine commands = "CMD [".toList ++ cmdInner commands ++ "]".toList := rfl

/-- What a JSON reader makes of the bracketed part of the line. -/
theorem stringArray_cmdInner (commands : List (List Char)) :
    JsonText.stringArray ('[' :: (cmdInner commands ++ [']'])) = commands.mapM readBack := by
  cases commands with
  | nil => rfl
  | cons arg args =>
    have h := JsonText.stringArray_bodies stringChars_doubleQuoted arg args
    rw [cmdInner, joinLoop_cons]
    simpa [escapeCmdArg_forced] using h

theorem mapM_readBack (commands : List (List Char)) :
    commands.mapM readBack = some commands ↔ ∀ arg ∈ commands, ∀ c ∈ arg, JsonSafe c := by
  induction commands with
  | nil => simp
  | cons arg args ih =>
    rw [List.mapM_cons]
    by_cases h : ∀ c ∈ arg, JsonSafe c
    · rw [readBack_eq_some h, List.forall_mem_cons, ← ih]
      cases args.mapM readBack with
      | none => simp
      | some rest => simpa using fun _ => h
    · rw [readBack_eq_none h, List.forall_mem_cons]
      exact ⟨fun he => by simp at he, fun ha => absurd ha.1 h⟩

/-- No line break in a command whose characters are all safe. -/
theorem newline_not_mem_cmdLine {commands : List (List Char)}
    (h : ∀ arg ∈ commands, ∀ c ∈ arg, JsonSafe c) : '\n' ∉ cmdLine commands := by
  have hq : ∀ arg ∈ commands, '\n' ∉ escapeCmdArg arg false true := by
    intro arg harg
    rw [escapeCmdArg_forced]
    simp only [List.mem_cons, List.mem_append, doubleQuoted, List.mem_flatMap, not_or]
    refine ⟨by decide, ?_, by decide⟩
    rintro ⟨c, hc, hmem⟩
    have hsafe := h arg harg c hc
    split at hmem
    · simp only [List.mem_cons, List.not_mem_nil, or_false] at hmem
      rcases hmem with hmem | rfl
      · exact absurd hmem (by decide)
      · exact absurd hsafe (by decide)
    · simp only [List.mem_singleton] at hmem
      subst hmem
      exact absurd hsafe (by decide)
  have hjoin : '\n' ∉ cmdInner commands := not_mem_joinLoop (by decide) hq
  rw [cmdLine_eq]
  simp only [List.mem_append, not_or]
  exact ⟨⟨by decide, hjoin⟩, by decide⟩

/-- `cmd` appends the exec form of the command exactly when no argument contains a dollar sign, a backtick, an
exclamation mark or a control character. -/
theorem cmd_isExecForm_iff (b : DockerFileBuilder) (commands : List (List Char)) :
    (∃ line, (b.cmd commands).commands = b.commands ++ [line] ∧ IsExecForm line commands) ↔
      ∀ arg ∈ commands, ∀ c ∈ arg, JsonSafe c := by
  have hline : ∀ line, (b.cmd commands).commands = b.commands ++ [line] ↔ line = cmdLine commands := by
    intro line
    simp [cmd, eq_comm]
  constructor
  · rintro ⟨line, h, -, inner, hinner, hread⟩
    rw [(hline line).1 h, cmdLine_eq] at hinner
    have he : cmdInner commands = inner := by simpa using hinner
    rw [← he, stringArray_cmdInner] at hread
    exact (mapM_readBack commands).1 hread
  · intro h
    refine ⟨_, (hline _).2 rfl, newline_not_mem_cmdLine h, cmdInner commands, rfl, ?_⟩
    rw [stringArray_cmdInner]
    exact (mapM_readBack commands).2 h

/-- `echo $HOME` is written as a line that is no exec form. -/
theorem cmd_dollar_not_execForm : ¬ ∃ line,
    ((DockerFileBuilder.mk "ubuntu".toList (.ofString "out") [] []).cmd ["echo".toList, "$HOME".toList]).commands =
      [line] ∧ IsExecForm line ["echo".toList, "$HOME".toList] := by
  rintro ⟨line, h, -, inner, hinner, hread⟩
  have hline : "CMD [\"echo\", \"\\$HOME\"]".toList = line := (List.singleton_inj.1 h)
  have hin : "\"echo\", \"\\$HOME\"".toList = inner := by
    rw [hinner] at hline
    have hinner : "\"echo\", \"\\$HOME\"".toList ++ [']'] = inner ++ [']'] := by simpa using hline
    exact List.append_cancel_right hinner
  rw [← hin] at hread
  exact absurd hread (by decide)

end DockerFileBuilder

end R4R
