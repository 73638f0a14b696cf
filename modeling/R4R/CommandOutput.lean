import Mathlib.Algebra.BigOperators.Group.List.Basic
import Mathlib.Algebra.GroupWithZero.Nat
import Mathlib.Logic.Function.Basic
import R4R.Lib.Runs

/-!
# The output of a command

`Command::output`: the parent reads the standard output of its child to the end, then its standard error, and then
waits for it, while the child writes to the two pipes.  A pipe holds as many bytes as its capacity; the child waits
when the pipe that it writes to is full, and the parent when the pipe that it reads is empty and still open.
-/

namespace R4R

inductive Stdio where
  | inherit
  | pipe
  | merge
deriving DecidableEq

/-- The two output streams, and the pipes that `spawn` makes for them. -/
inductive Stream where
  | stdout
  | stderr
deriving DecidableEq

/-- `Command`, as far as the redirection goes. -/
structure Command where
  stdoutSetting : Option Stdio := none
  stderrSetting : Option Stdio := none

/-- The settings with which `output` spawns the child. -/
def Command.outputSettings (c : Command) (redirectStderrToStdout : Bool) : Stream → Stdio
  | .stdout => c.stdoutSetting.getD .pipe
  | .stderr => if redirectStderrToStdout then .merge else c.stderrSetting.getD .pipe

/-- The pipe that a stream of the child goes to after the calls of `dup2`, none when it goes where the parent's goes. -/
def target (setting : Stream → Stdio) : Stream → Option Stream
  | .stdout => if setting .stdout = .pipe then some .stdout else none
  | .stderr =>
    match setting .stderr with
    | .pipe => some .stderr
    -- the standard output has been redirected before
    | .merge => if setting .stdout = .pipe then some .stdout else none
    | .inherit => none

/-- The pipes of a child. -/
structure Pipes where
  capacity : Stream → Nat
  capacity_pos : ∀ p, 1 ≤ capacity p
  /-- The descriptors of the ends that the parent reads. -/
  readFd : Stream → Nat
  readFd_ne : readFd .stdout ≠ readFd .stderr

/-- The pipe that the parent does not read before the child exits. -/
def Pipes.unread (pipes : Pipes) : Stream := if pipes.readFd .stdout = 0 then .stdout else .stderr

inductive Phase where
  | reading (p : Stream)
  | waiting
  | returned
deriving DecidableEq

/-- What `output` does behind the reading of a stream. -/
def Phase.after : Stream → Phase
  | .stdout => .reading .stderr
  | .stderr => .waiting

/-- The parent, the child and the pipes; `α` is the type of a byte. -/
structure OutputState (α : Type) where
  /-- The writes that the child has not finished, and whether it has exited. -/
  todo : List (Stream × List α)
  exited : Bool
  pipe : Stream → List α
  phase : Phase
  data : Stream → List α

/-- What is left to do for the parent. -/
def Phase.left : Phase → Nat
  | .reading .stdout => 3
  | .reading .stderr => 2
  | .waiting => 1
  | .returned => 0

inductive Party where
  | child
  | parent
deriving DecidableEq

namespace OutputState

variable {α : Type}

/-- The state behind `spawn`. -/
def start (writes : List (Stream × List α)) : OutputState α :=
  ⟨writes, false, fun _ => [], .reading .stdout, fun _ => []⟩

/-- The child writes a byte, ends a write, or exits. -/
def childStep (pipes : Pipes) (setting : Stream → Stdio) (s : OutputState α) : Option (OutputState α) :=
  match s.todo with
  | [] => if s.exited then none else some { s with exited := true }
  | (_, []) :: todo => some { s with todo := todo }
  | (stream, b :: bs) :: todo =>
    match target setting stream with
    | none => some { s with todo := (stream, bs) :: todo }
    | some p =>
      if (s.pipe p).length < pipes.capacity p then
        some { s with todo := (stream, bs) :: todo, pipe := Function.update s.pipe p (s.pipe p ++ [b]) }
      else none

/-- A turn of the loop of `read_all_from_fd`, `read_stdout` and `read_stderr` around it, and `wait`. -/
def parentStep (pipes : Pipes) (s : OutputState α) : Option (OutputState α) :=
  match s.phase with
  | .reading p =>
    if pipes.readFd p = 0 then some { s with phase := .after p }
    else if s.pipe p ≠ [] then
      some { s with
        pipe := Function.update s.pipe p ((s.pipe p).drop 4096)
        data := Function.update s.data p (s.data p ++ (s.pipe p).take 4096) }
    else if s.exited then some { s with phase := .after p }
    else none
  | .waiting => if s.exited then some { s with phase := .returned } else none
  | .returned => none

def step (pipes : Pipes) (setting : Stream → Stdio) (s : OutputState α) : Party → Option (OutputState α)
  | .child => s.childStep pipes setting
  | .parent => s.parentStep pipes

/-- The bytes that writes put to a pipe. -/
def bytesTo (setting : Stream → Stdio) (p : Stream) (writes : List (Stream × List α)) : Nat :=
  (writes.map fun w => if target setting w.1 = some p then w.2.length else 0).sum

/-- No party can do anything although `output` has not returned. -/
def IsStuck (pipes : Pipes) (setting : Stream → Stdio) (s : OutputState α) : Prop :=
  s.phase ≠ .returned ∧ ∀ party, s.step pipes setting party = none

/-! ### The steps -/

variable {pipes : Pipes} {setting : Stream → Stdio} {s s' : OutputState α}

/-- What the child can do. -/
private theorem childStep_cases (h : s.childStep pipes setting = some s') :
    (s.todo = [] ∧ s.exited = false ∧ s' = { s with exited := true }) ∨
    (∃ stream todo, s.todo = (stream, []) :: todo ∧ s' = { s with todo := todo }) ∨
    (∃ stream b bs todo, s.todo = (stream, b :: bs) :: todo ∧ target setting stream = none ∧
      s' = { s with todo := (stream, bs) :: todo }) ∨
    ∃ stream b bs todo p, s.todo = (stream, b :: bs) :: todo ∧ target setting stream = some p ∧
      (s.pipe p).length < pipes.capacity p ∧
      s' = { s with todo := (stream, bs) :: todo, pipe := Function.update s.pipe p (s.pipe p ++ [b]) } := by
  unfold childStep at h
  split at h
  · rename_i htodo
    cases hexit : s.exited with
    | true => rw [hexit] at h; cases h
    | false =>
      rw [hexit] at h
      exact .inl ⟨htodo, rfl, (Option.some.inj h).symm⟩
  · rename_i stream todo htodo
    exact .inr (.inl ⟨stream, todo, htodo, (Option.some.inj h).symm⟩)
  · rename_i stream b bs todo htodo
    split at h
    · rename_i htarget
      exact .inr (.inr (.inl ⟨stream, b, bs, todo, htodo, htarget, (Option.some.inj h).symm⟩))
    · rename_i p htarget
      rw [Option.ite_none_right_eq_some] at h
      exact .inr (.inr (.inr ⟨stream, b, bs, todo, p, htodo, htarget, h.1, (Option.some.inj h.2).symm⟩))

/-- What the parent can do. -/
private theorem parentStep_cases (h : s.parentStep pipes = some s') :
    (∃ p, s.phase = .reading p ∧ (pipes.readFd p = 0 ∨ s.pipe p = [] ∧ s.exited = true) ∧
      s' = { s with phase := .after p }) ∨
    (∃ p, s.phase = .reading p ∧ pipes.readFd p ≠ 0 ∧ s.pipe p ≠ [] ∧
      s' = { s with
        pipe := Function.update s.pipe p ((s.pipe p).drop 4096)
        data := Function.update s.data p (s.data p ++ (s.pipe p).take 4096) }) ∨
    s.phase = .waiting ∧ s.exited = true ∧ s' = { s with phase := .returned } := by
  unfold parentStep at h
  split at h
  · rename_i p hphase
    split at h
    · rename_i hfd
      exact .inl ⟨p, hphase, .inl hfd, (Option.some.inj h).symm⟩
    · rename_i hfd
      split at h
      · rename_i hne
        exact .inr (.inl ⟨p, hphase, hfd, hne, (Option.some.inj h).symm⟩)
      · rename_i hempty
        rw [Option.ite_none_right_eq_some] at h
        exact .inl ⟨p, hphase, .inr ⟨not_not.1 hempty, h.1⟩, (Option.some.inj h.2).symm⟩
  · rename_i hphase
    rw [Option.ite_none_right_eq_some] at h
    exact .inr (.inr ⟨hphase, h.1, (Option.some.inj h.2).symm⟩)
  · cases h

/-! ### Every run ends -/

/-- What is left to do for both parties; a byte counts twice until it is in its pipe. -/
def left (s : OutputState α) : Nat :=
  2 * (s.todo.map fun w => w.2.length).sum + s.todo.length + (if s.exited then 0 else 1) +
    (s.pipe .stdout).length + (s.pipe .stderr).length + s.phase.left

private theorem left_lt {party : Party} (h : s.step pipes setting party = some s') : s'.left < s.left := by
  have hpush : ∀ (p : Stream) (l : List α), (l.length + 1 = (s.pipe p).length + 2) →
      (Function.update s.pipe p l .stdout).length + (Function.update s.pipe p l .stderr).length =
        (s.pipe .stdout).length + (s.pipe .stderr).length + 1 := by
    intro p l hl
    cases p <;> simp <;> omega
  cases party with
  | child =>
    obtain ⟨htodo, hexit, rfl⟩ | ⟨stream, todo, htodo, rfl⟩ | ⟨stream, b, bs, todo, htodo, -, rfl⟩ |
      ⟨stream, b, bs, todo, p, htodo, -, -, rfl⟩ := childStep_cases h
    · simp [left, hexit]
    · simp [left, htodo]
    · simp only [left, htodo, List.map_cons, List.sum_cons, List.length_cons]
      omega
    · have := hpush p (s.pipe p ++ [b]) (by simp)
      simp only [left, htodo, List.map_cons, List.sum_cons, List.length_cons]
      omega
  | parent =>
    obtain ⟨p, hphase, -, rfl⟩ | ⟨p, hphase, -, hne, rfl⟩ | ⟨hphase, -, rfl⟩ := parentStep_cases h
    · cases p <;> simp [left, hphase, Phase.after, Phase.left]
    · have hpos := List.length_pos_iff.2 hne
      cases p <;> simp [left, hphase] <;> omega
    · simp [left, hphase, Phase.left]

/-! ### The invariant -/

/-- What holds in every state of a run. -/
structure Invariant (pipes : Pipes) (setting : Stream → Stdio) (writes : List (Stream × List α))
    (s : OutputState α) : Prop where
  capacity : ∀ p, (s.pipe p).length ≤ pipes.capacity p
  bytes : ∀ p, (s.pipe p).length + (s.data p).length + bytesTo setting p s.todo = bytesTo setting p writes
  exited : s.exited = true →
    s.todo = [] ∧ bytesTo setting (pipes.unread) writes ≤ pipes.capacity (pipes.unread)
  running : s.exited = false → s.data (pipes.unread) = [] ∧
    (s.phase = .reading .stdout ∨ pipes.readFd .stdout = 0 ∧ s.phase = .reading .stderr)

variable {writes : List (Stream × List α)}

private theorem Invariant.start : Invariant pipes setting writes (start writes) where
  capacity p := by simp [OutputState.start]
  bytes p := by simp [OutputState.start]
  exited h := by simp [OutputState.start] at h
  running _ := ⟨rfl, .inl rfl⟩

/-- Writing a byte moves it from the writes to the pipe. -/
private theorem bytesTo_cons (p : Stream) (stream : Stream) (bs : List α) (todo : List (Stream × List α)) :
    bytesTo setting p ((stream, bs) :: todo) =
      (if target setting stream = some p then bs.length else 0) + bytesTo setting p todo := by
  simp [bytesTo]

private theorem Invariant.child (h : Invariant pipes setting writes s) (hstep : s.childStep pipes setting = some s') :
    Invariant pipes setting writes s' := by
  obtain ⟨htodo, hexit, rfl⟩ | ⟨stream, todo, htodo, rfl⟩ | ⟨stream, b, bs, todo, htodo, htarget, rfl⟩ |
    ⟨stream, b, bs, todo, p, htodo, htarget, hroom, rfl⟩ := childStep_cases hstep
  · -- everything is written when the child exits, and of the unread pipe nothing has been read
    refine ⟨h.capacity, h.bytes, fun _ => ⟨htodo, ?_⟩, nofun⟩
    have hbytes := h.bytes pipes.unread
    rw [htodo, (h.running hexit).1] at hbytes
    rw [← hbytes]
    exact h.capacity pipes.unread
  · refine ⟨h.capacity, fun p => ?_, fun hexit => ?_, h.running⟩
    · have hbytes := h.bytes p
      rw [htodo, bytesTo_cons] at hbytes
      simpa using hbytes
    · rw [(h.exited hexit).1] at htodo
      cases htodo
  · refine ⟨h.capacity, fun p => ?_, fun hexit => ?_, h.running⟩
    · have hbytes := h.bytes p
      rw [htodo, bytesTo_cons, htarget] at hbytes
      rw [bytesTo_cons, htarget]
      exact hbytes
    · rw [(h.exited hexit).1] at htodo
      cases htodo
  · refine ⟨fun q => ?_, fun q => ?_, fun hexit => ?_, h.running⟩
    · by_cases hq : q = p
      · subst hq
        simp only [Function.update_self, List.length_append]
        exact hroom
      · simpa [hq] using h.capacity q
    · have hbytes := h.bytes q
      rw [htodo, bytesTo_cons, htarget] at hbytes
      rw [bytesTo_cons, htarget]
      by_cases hq : q = p
      · subst hq
        simp only [if_pos, Function.update_self, List.length_append, List.length_cons, List.length_nil] at hbytes ⊢
        omega
      · have hne : some p ≠ some q := fun he => hq (Option.some.inj he).symm
        simpa [hq, hne] using hbytes
    · rw [(h.exited hexit).1] at htodo
      cases htodo

private theorem Invariant.parent (h : Invariant pipes setting writes s) (hstep : s.parentStep pipes = some s') :
    Invariant pipes setting writes s' := by
  obtain ⟨p, hphase, hnext, rfl⟩ | ⟨p, hphase, hfd, hne, rfl⟩ | ⟨hphase, hexit, rfl⟩ := parentStep_cases hstep
  · refine ⟨h.capacity, h.bytes, h.exited, fun hexit => ?_⟩
    have hfd : pipes.readFd p = 0 := by
      rcases hnext with hfd | ⟨-, hexit'⟩
      · exact hfd
      · rw [hexit] at hexit'
        cases hexit'
    obtain ⟨hdata, hphases⟩ := h.running hexit
    refine ⟨hdata, .inr ?_⟩
    cases p with
    | stdout => exact ⟨hfd, rfl⟩
    | stderr =>
      -- only one of the descriptors can be 0
      rcases hphases with hphases | ⟨hfd', -⟩
      · rw [hphase] at hphases
        cases hphases
      · exact absurd (hfd'.trans hfd.symm) pipes.readFd_ne
  · have hsplit : ((s.pipe p).drop 4096).length + ((s.pipe p).take 4096).length = (s.pipe p).length := by
      rw [List.length_drop, List.length_take]
      omega
    refine ⟨fun q => ?_, fun q => ?_, h.exited, fun hexit => ?_⟩
    · by_cases hq : q = p
      · subst hq
        have := h.capacity q
        simp only [Function.update_self]
        omega
      · simpa [hq] using h.capacity q
    · by_cases hq : q = p
      · subst hq
        have := h.bytes q
        simp only [Function.update_self, List.length_append]
        omega
      · simpa [hq] using h.bytes q
    · obtain ⟨hdata, hphases⟩ := h.running hexit
      refine ⟨?_, hphases⟩
      have hq : pipes.unread ≠ p := by
        rintro rfl
        rcases hphases with hphases | ⟨hfd', hphases⟩
        · have hp : pipes.unread = .stdout := Phase.reading.inj (hphase.symm.trans hphases)
          rw [hp] at hfd
          rw [Pipes.unread, if_neg hfd] at hp
          cases hp
        · have hp : pipes.unread = .stderr := Phase.reading.inj (hphase.symm.trans hphases)
          rw [Pipes.unread, if_pos hfd'] at hp
          cases hp
      simpa [hq] using hdata
  · refine ⟨h.capacity, h.bytes, h.exited, fun hexit' => ?_⟩
    rw [hexit] at hexit'
    cases hexit'

private theorem Invariant.step {party : Party} (h : Invariant pipes setting writes s)
    (hstep : s.step pipes setting party = some s') : Invariant pipes setting writes s' := by
  cases party with
  | child => exact h.child hstep
  | parent => exact h.parent hstep

private theorem Invariant.run {parties : List Party}
    (hrun : Runs.run (OutputState.step pipes setting) (OutputState.start writes) parties = some s) :
    Invariant pipes setting writes s :=
  Runs.invariant (P := Invariant pipes setting writes) (fun _ _ _ h hstep => h.step hstep) .start hrun

/-! ### When a run gets stuck -/

/-- As long as the child runs the parent can move unless the pipe that it reads is empty. -/
private theorem parentStep_isSome {p : Stream} (hphase : s.phase = .reading p)
    (h : s.pipe p ≠ [] ∨ pipes.readFd p = 0) :
    (s.parentStep pipes).isSome = true := by
  simp only [parentStep, hphase]
  split
  · rfl
  · rename_i hfd
    rw [if_pos (h.resolve_right hfd)]
    rfl

/-- One party can move when the unread pipe holds all that is written to it. -/
private theorem Invariant.enabled (h : Invariant pipes setting writes s)
    (hfits : bytesTo setting pipes.unread writes ≤ pipes.capacity pipes.unread) (hphase : s.phase ≠ .returned) :
    ∃ party, (s.step pipes setting party).isSome = true := by
  cases hexit : s.exited with
  | true =>
    refine ⟨.parent, ?_⟩
    simp only [OutputState.step, parentStep, hexit]
    cases hp : s.phase with
    | reading p => simp only; split <;> [rfl; (split <;> rfl)]
    | waiting => rfl
    | returned => exact absurd hp hphase
  | false =>
    obtain ⟨hdata, hphases⟩ := h.running hexit
    cases hstep : s.childStep pipes setting with
    | some s' => exact ⟨.child, by rw [OutputState.step, hstep]; rfl⟩
    | none =>
      -- the child waits for room in a pipe
      obtain ⟨p, hfull, hp⟩ : ∃ p, ¬ (s.pipe p).length < pipes.capacity p ∧ 0 < bytesTo setting p s.todo := by
        unfold childStep at hstep
        split at hstep
        · rw [hexit] at hstep
          cases hstep
        · cases hstep
        · rename_i stream b bs todo htodo
          split at hstep
          · cases hstep
          · rename_i p htarget
            refine ⟨p, fun hroom => ?_, ?_⟩
            · rw [if_pos hroom] at hstep
              cases hstep
            · rw [htodo, bytesTo_cons, if_pos htarget, List.length_cons]
              omega
      have hbytes := h.bytes p
      have hne : s.pipe p ≠ [] := by
        intro hnil
        have hpos := pipes.capacity_pos p
        rw [hnil] at hfull
        exact hfull hpos
      have hunread : p ≠ pipes.unread := by
        rintro rfl
        omega
      refine ⟨.parent, ?_⟩
      by_cases hfd : pipes.readFd .stdout = 0
      · obtain rfl : p = .stderr := by
          cases p with
          | stdout => exact absurd (by rw [Pipes.unread, if_pos hfd]) hunread
          | stderr => rfl
        rcases hphases with hphases | ⟨-, hphases⟩
        · exact parentStep_isSome hphases (.inr hfd)
        · exact parentStep_isSome hphases (.inl hne)
      · obtain rfl : p = .stdout := by
          cases p with
          | stdout => rfl
          | stderr => exact absurd (by rw [Pipes.unread, if_neg hfd]) hunread
        rcases hphases with hphases | ⟨hfd', -⟩
        · exact parentStep_isSome hphases (.inl hne)
        · exact absurd hfd' hfd

/-- A run can get stuck when the unread pipe is too small: no run then comes to its end. -/
private theorem exists_stuck (hfits : pipes.capacity pipes.unread < bytesTo setting pipes.unread writes) :
    ∃ parties s, Runs.run (step pipes setting) (start writes) parties = some s ∧ s.IsStuck pipes setting := by
  obtain ⟨parties, s, hrun, hfinal⟩ :=
    Runs.exists_final (step pipes setting) left (fun _ _ _ h => left_lt h) (start writes)
  refine ⟨parties, s, hrun, fun hphase => ?_, hfinal⟩
  have h := Invariant.run hrun
  cases hexit : s.exited with
  | true => exact absurd (h.exited hexit).2 (by omega)
  | false =>
    rcases (h.running hexit).2 with hphases | ⟨-, hphases⟩ <;> (rw [hphase] at hphases; cases hphases)

/-- With any settings no run gets stuck exactly when the pipe that is not read before the child exits holds all that is
written to it. -/
private theorem never_stuck_iff_fits (pipes : Pipes) (setting : Stream → Stdio) (writes : List (Stream × List α)) :
    (∀ parties s, Runs.run (step pipes setting) (start writes) parties = some s → ¬ s.IsStuck pipes setting) ↔
      bytesTo setting pipes.unread writes ≤ pipes.capacity pipes.unread := by
  constructor
  · intro h
    by_contra hfits
    obtain ⟨parties, s, hrun, hstuck⟩ := exists_stuck (Nat.lt_of_not_le hfits)
    exact h parties s hrun hstuck
  · rintro hfits parties s hrun ⟨hphase, hfinal⟩
    obtain ⟨party, hparty⟩ := (Invariant.run hrun).enabled hfits hphase
    rw [hfinal party] at hparty
    cases hparty

end OutputState

/-- The bytes that writes put to a stream. -/
def bytesOf {α : Type} (stream : Stream) (writes : List (Stream × List α)) : Nat :=
  (writes.map fun w => if w.1 = stream then w.2.length else 0).sum

private theorem bytesTo_default {α : Type} (p : Stream) (writes : List (Stream × List α)) :
    OutputState.bytesTo (({} : Command).outputSettings false) p writes = bytesOf p writes := by
  have htarget : ∀ stream, target (({} : Command).outputSettings false) stream = some stream := by
    intro stream
    cases stream <;> rfl
  simp only [OutputState.bytesTo, bytesOf, htarget, Option.some.injEq]

/-- `Command::output` with the default settings never gets stuck exactly when all that the child writes to its standard
error fits in the pipe; when the descriptor of the other pipe is 0, which the parent takes for no pipe, what is written
to the standard output has to. -/
theorem output_never_stuck_iff {α : Type} (pipes : Pipes) (writes : List (Stream × List α)) :
    (∀ parties s, Runs.run (OutputState.step pipes (({} : Command).outputSettings false)) (.start writes) parties =
        some s → s.phase ≠ .returned →
      ∃ party, (s.step pipes (({} : Command).outputSettings false) party).isSome = true) ↔
    if pipes.readFd .stdout = 0 then bytesOf .stdout writes ≤ pipes.capacity .stdout
    else bytesOf .stderr writes ≤ pipes.capacity .stderr := by
  have hfits := OutputState.never_stuck_iff_fits pipes (({} : Command).outputSettings false) writes
  rw [bytesTo_default] at hfits
  have hcondition : bytesOf pipes.unread writes ≤ pipes.capacity pipes.unread ↔
      if pipes.readFd .stdout = 0 then bytesOf .stdout writes ≤ pipes.capacity .stdout
      else bytesOf .stderr writes ≤ pipes.capacity .stderr := by
    unfold Pipes.unread
    split <;> rfl
  rw [← hcondition, ← hfits]
  refine forall₃_congr fun parties s _ => ?_
  simp only [OutputState.IsStuck, not_and, not_forall, ← Option.isSome_iff_ne_none, ne_eq]

/-- Two pipes of the usual capacity. -/
def usualPipes : Pipes where
  capacity _ := 65536
  capacity_pos _ := by decide
  readFd
    | .stdout => 3
    | .stderr => 5
  readFd_ne := by decide

/-- A child that writes one byte more than the pipe holds to its standard error. -/
theorem output_stuck :
    ¬ ∀ parties s, Runs.run (OutputState.step usualPipes (({} : Command).outputSettings false))
        (.start [(.stderr, List.replicate 65537 'x')]) parties = some s → s.phase ≠ .returned →
      ∃ party, (s.step usualPipes (({} : Command).outputSettings false) party).isSome = true := by
  intro h
  have hfits : usualPipes.capacity usualPipes.unread < OutputState.bytesTo (({} : Command).outputSettings false)
      usualPipes.unread [(.stderr, List.replicate 65537 'x')] := by
    have hlength : (List.replicate 65537 'x').length = 65537 := List.length_replicate
    rw [bytesTo_default]
    show 65536 < bytesOf .stderr [(.stderr, List.replicate 65537 'x')]
    simp only [bytesOf, List.map_cons, List.map_nil, List.sum_cons, List.sum_nil, if_pos, hlength]
    decide
  obtain ⟨parties, s, hrun, hphase, hfinal⟩ := OutputState.exists_stuck hfits
  obtain ⟨party, hparty⟩ := h parties s hrun hphase
  rw [hfinal party] at hparty
  cases hparty

end R4R
