import Mathlib.Data.List.Basic

/-!
# Quoting of command arguments

`escape_cmd_arg`, and the loop that `DockerFileBuilder` uses to join quoted arguments.
-/

namespace R4R

/-- The characters that make `escape_cmd_arg` quote an argument. -/
def needsEscaping (c : Char) : Bool :=
  [' ', '\t', '\n', '\x27', '"', '\\', '$', '\x60', '&', '|', '>', '<', '*', '?', '(', ')', '[', ']', ';', '!',
    '#'].contains c

/-- The characters that double quotes do not protect in a shell. -/
def escapedInDouble (c : Char) : Bool := ['$', '\x60', '"', '\\', '!'].contains c

/-- What `escape_cmd_arg` writes between single quotes. -/
def singleQuoted (arg : List Char) : List Char :=
  arg.flatMap fun c => if c = '\x27' then ['\x27', '\\', '\x27', '\x27'] else [c]

/-- What `escape_cmd_arg` writes between double quotes. -/
def doubleQuoted (arg : List Char) : List Char :=
  arg.flatMap fun c => if escapedInDouble c then ['\\', c] else [c]

/-- `escape_cmd_arg`. -/
def escapeCmdArg (arg : List Char) (singleQuote : Bool := true) (force : Bool := false) : List Char :=
  if arg.isEmpty && !force then arg
  else if !(force || arg.any needsEscaping) then arg
  else if singleQuote then '\x27' :: (singleQuoted arg ++ ['\x27'])
  else '"' :: (doubleQuoted arg ++ ['"'])

example : escapeCmdArg "special chars $ \\ !".toList false = "\"special chars \\$ \\\\ \\!\"".toList := by decide

example : escapeCmdArg "contains\x27quote".toList = "\x27contains\x27\\\x27\x27quote\x27".toList := by decide

/-- A forced argument is always quoted. -/
theorem escapeCmdArg_forced (arg : List Char) : escapeCmdArg arg false true = '"' :: (doubleQuoted arg ++ ['"']) := by
  simp [escapeCmdArg]

/-- The loop that appends the piece of each element, and the separator after each but the last:
`if (++i < xs.size())`. -/
def joinLoop (sep : List Char) (piece : α → List Char) (xs : List α) : List Char :=
  (xs.foldl (fun acc x => (acc.1 + 1, acc.2 ++ piece x ++ if acc.1 + 1 < xs.length then sep else [])) (0, [])).2

private theorem foldl_joinLoop (sep : List Char) (piece : α → List Char) (n : Nat) (x : α) (xs : List α) :
    ∀ (i : Nat) (out : List Char), i + xs.length + 1 = n →
    ((x :: xs).foldl (fun acc x => (acc.1 + 1, acc.2 ++ piece x ++ if acc.1 + 1 < n then sep else []))
      (i, out)).2 = out ++ piece x ++ xs.flatMap fun y => sep ++ piece y := by
  induction xs generalizing x with
  | nil =>
    intro i out h
    have : ¬ i + 1 < n := by simp at h; omega
    simp [this]
  | cons y ys ih =>
    intro i out h
    have hlt : i + 1 < n := by simp at h; omega
    rw [List.foldl_cons, ih y (i + 1) _ (by simp at h; omega)]
    simp [hlt]

/-- The loop puts the separator between the pieces. -/
theorem joinLoop_cons (sep : List Char) (piece : α → List Char) (x : α) (xs : List α) :
    joinLoop sep piece (x :: xs) = piece x ++ xs.flatMap fun y => sep ++ piece y := by
  rw [joinLoop, foldl_joinLoop sep piece _ x xs 0 [] (by simp)]
  rfl

theorem not_mem_joinLoop {c : Char} {sep : List Char} {piece : α → List Char} {xs : List α} (hsep : c ∉ sep)
    (hpiece : ∀ x ∈ xs, c ∉ piece x) : c ∉ joinLoop sep piece xs := by
  cases xs with
  | nil => simp [joinLoop]
  | cons x xs =>
    rw [joinLoop_cons]
    simp only [List.mem_append, List.mem_flatMap, not_or, not_exists, not_and]
    exact ⟨hpiece x (List.mem_cons_self ..), fun y hy => ⟨hsep, hpiece y (List.mem_cons_of_mem _ hy)⟩⟩

end R4R
