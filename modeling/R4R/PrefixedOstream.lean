import R4R.ManifestFormat
import R4R.ProcessTracer

/-!
# Prefixed output streams

`with_prefixed_ostream` lets a function write to a stream through a `FilteringOutputStreamBuf`, and `forward_output`
is such a function: it passes on the output of `make`.  The filtering buffer is an automatic object, but the stream
gets its own buffer back by an assignment behind the function and the flush, which an exception passes over.
-/

namespace R4R

open Lines Scoped
open SyscallMonitor (Errno EINTR)

/-- `ios_base::iostate`, without `eofbit`. -/
structure IoState where
  badbit : Bool := false
  failbit : Bool := false
deriving DecidableEq

namespace IoState

def good (state : IoState) : Bool := !state.badbit && !state.failbit

def or (state bits : IoState) : IoState := ⟨state.badbit || bits.badbit, state.failbit || bits.failbit⟩

/-- The exception mask has a bit of the state. -/
def masks (exceptions state : IoState) : Bool :=
  exceptions.badbit && state.badbit || exceptions.failbit && state.failbit

end IoState

/-- The buffers that a stream may write to. -/
inductive Rdbuf where
  | original
  | prefixBuf
deriving DecidableEq

/-- `FilteringOutputStreamBuf` with a `LinePrefixingFilter`; its target is the original buffer. -/
structure FilteringOutputStreamBuf where
  linePrefix : List Char
  atNl : Bool := true
deriving DecidableEq

/-- A stream, neither tied nor unit-buffered, with its own buffer. -/
structure Ostream where
  /-- What the buffer has been given. -/
  original : List Char
  /-- Whether the buffer takes all of a text when it has been given another. -/
  takes : List Char → List Char → Bool
  /-- Whether the synchronisations of the buffer succeed, in their order. -/
  syncs : Nat → Bool
  rdstate : IoState := {}
  exceptions : IoState := {}
  /-- `errno` behind a write that fails. -/
  errno : Errno := 0

/-- A stream that may write to a filtering buffer, none when the buffer is destroyed. -/
structure OstreamState extends Ostream where
  synced : Nat := 0
  rdbuf : Rdbuf := .original
  prefixBuf : Option FilteringOutputStreamBuf := none

/-- What is thrown; `E` is the type of the exceptions other than the stream's own. -/
inductive StreamError (E : Type) where
  | iosFailure
  | other (e : E)
deriving DecidableEq

abbrev Printing (E α : Type) := Computation OstreamState (StreamError E) α

namespace Ostream

variable {E : Type}

/-- The stream before the call. -/
def start (dst : Ostream) : OstreamState := { dst with }

/-! ### The stream -/

/-- `ios::setstate`. -/
def setstate (bits : IoState) : Printing E PUnit := fun s =>
  let rdstate := s.rdstate.or bits
  (if s.exceptions.masks rdstate then .threw .iosFailure else .returned ⟨⟩, { s with rdstate := rdstate })

/-- `ios::rdbuf` with a buffer, which clears the state. -/
def setRdbuf (buf : Rdbuf) : Printing E PUnit := fun s => (.returned ⟨⟩, { s with rdbuf := buf, rdstate := {} })

/-- `FilteringOutputStreamBuf::overflow`; what the target answers is not looked at. -/
def overflow (ch : Option Char) : Printing E PUnit := fun s =>
  match s.prefixBuf, ch with
  -- a buffer that is destroyed
  | none, _ => (.terminated, s)
  | some _, none => (.returned ⟨⟩, s)
  | some buf, some c =>
    let f := LinePrefixingFilter.put ⟨buf.linePrefix, buf.atNl, s.original⟩ c
    (.returned ⟨⟩, { s with original := f.dst, prefixBuf := some ⟨f.linePrefix, f.atNl⟩ })

/-- `streambuf::xsputn` of a buffer without a put area. -/
def xsputn : List Char → Printing E PUnit
  | [] => pure ⟨⟩
  | c :: cs => do
    overflow (some c)
    xsputn cs

/-- `streambuf::sputn`: whether all has been taken. -/
def sputn (chunk : List Char) : Printing E Bool := fun s =>
  match s.rdbuf with
  | .original => (.returned (s.takes s.original chunk), { s with original := s.original ++ chunk })
  | .prefixBuf => (do xsputn chunk; return true : Printing E Bool) s

/-- `streambuf::pubsync`; the filtering buffer synchronises its target. -/
def pubsync : Printing E Bool := fun s =>
  match s.rdbuf, s.prefixBuf with
  | .prefixBuf, none => (.terminated, s)
  | _, _ => (.returned (s.syncs s.synced), { s with synced := s.synced + 1 })

/-- `ostream::sentry`. -/
def sentry : Printing E Bool := fun s =>
  if s.rdstate.good then (.returned true, s)
  else if s.rdstate.badbit then (do setstate { failbit := true }; return false : Printing E Bool) s
  else (.returned false, s)

def write (chunk : List Char) : Printing E PUnit := do
  if ← sentry then
    if !(← sputn chunk) then setstate { badbit := true }

def flush : Printing E PUnit := do
  if ← sentry then
    if !(← pubsync) then setstate { badbit := true }

/-- `with_prefixed_ostream`. -/
def withPrefixedOstream (linePrefix : List Char) (fn : Printing E PUnit) : Printing E PUnit := fun s =>
  let old := s.rdbuf
  object (fun s => (.returned ⟨⟩, { s with prefixBuf := some ⟨linePrefix, true⟩ }))
    (fun s => some { s with prefixBuf := none })
    (do
      setRdbuf .prefixBuf
      fn
      flush
      setRdbuf old) s

end Ostream

/-! ### `forward_output` -/

/-- The exceptions of `forward_output`. -/
inductive ForwardError where
  | runtimeError (what : String)
  | systemError (errno : Errno) (what : String)
deriving DecidableEq

def EAGAIN : Errno := 11

/-- An answer of `poll`, with that of `read` when there is input; nothing is read at the end of the file. -/
inductive Polled where
  | failed (errno : Errno)
  | ready (input : Option (Except Errno (List Char))) (hangup : Bool)

/-- `forward_output`, with the answers that it gets before it waits for another. -/
def forwardOutput (strerror : Errno → String) (fd : Nat) : List Polled → Printing ForwardError PUnit
  | [] => waiting
  | .failed errno :: answers =>
    if errno = EINTR then forwardOutput strerror fd answers
    else throw (.other (.runtimeError ("poll: " ++ strerror errno)))
  | .ready none hangup :: answers => if hangup then Ostream.flush else forwardOutput strerror fd answers
  | .ready (some (.error errno)) _ :: answers =>
    if errno = EINTR ∨ errno = EAGAIN then forwardOutput strerror fd answers
    else throw (.other (.systemError errno ("Unable to read from file descriptor: " ++ toString fd)))
  | .ready (some (.ok [])) _ :: _ => Ostream.flush
  | .ready (some (.ok chunk)) hangup :: answers => do
    Ostream.write chunk
    let s ← fun s => (.returned s, s)
    if !s.rdstate.good then throw (.other (.systemError s.errno ("Unable to write to stream: " ++ toString fd)))
    else if hangup then Ostream.flush
    else forwardOutput strerror fd answers

/-! ### What a function does with the stream -/

/-- The end of a function that writes to the stream. -/
inductive Finish (E : Type) where
  | returned
  | flushed
  | threw (e : E)
deriving DecidableEq

/-- A function that writes to the stream: its text, cut into writes, and its end. -/
structure Fn (E : Type) where
  writes : List (List Char)
  finish : Finish E
deriving DecidableEq

def Finish.run {E : Type} : Finish E → Printing E PUnit
  | .returned => pure ⟨⟩
  | .flushed => Ostream.flush
  | .threw e => throw (.other e)

/-- No exception is thrown: not by the function, and not by a flush, since the synchronisation succeeds or the
stream does not throw.  A second flush meets the state that the first one left. -/
def Finish.Undisturbed {E : Type} (dst : Ostream) : Finish E → Prop
  | .returned => dst.syncs 0 = true ∨ dst.exceptions.badbit = false
  | .flushed => if dst.syncs 0 then dst.syncs 1 = true ∨ dst.exceptions.badbit = false else dst.exceptions = {}
  | .threw _ => False

namespace Fn

variable {E : Type}

def text (fn : Fn E) : List Char := fn.writes.flatten

def writeAll : List (List Char) → Printing E PUnit
  | [] => pure ⟨⟩
  | chunk :: chunks => do
    Ostream.write chunk
    writeAll chunks

def run (fn : Fn E) : Printing E PUnit := do
  writeAll fn.writes
  fn.finish.run

end Fn

namespace Ostream

variable {E : Type} (dst : Ostream) (linePrefix : List Char)

/-- The stream when a text has been written to it through the filtering buffer. -/
def installed (text : List Char) : OstreamState :=
  { dst with
    original := dst.original ++ prefixLines linePrefix text
    rdstate := {}
    rdbuf := .prefixBuf
    prefixBuf := some ⟨linePrefix, atLineStart text⟩ }

private theorem overflow_installed (text : List Char) (c : Char) :
    overflow (E := E) (some c) (dst.installed linePrefix text) =
    (.returned ⟨⟩, dst.installed linePrefix (text ++ [c])) := by
  simp only [overflow, installed, LinePrefixingFilter.put, prefixLines_concat, atLineStart_concat]
  cases atLineStart text <;> simp

private theorem xsputn_installed (chunk : List Char) : ∀ text, xsputn (E := E) chunk (dst.installed linePrefix text) =
    (.returned ⟨⟩, dst.installed linePrefix (text ++ chunk)) := by
  induction chunk with
  | nil =>
    intro text
    rw [List.append_nil]
    rfl
  | cons c chunk ih =>
    intro text
    rw [xsputn, bind_of_returned (overflow_installed dst linePrefix text c), ih, List.append_assoc,
      List.singleton_append]

/-- A write adds to the text, wherever the text has been cut. -/
private theorem write_installed (chunk text : List Char) : write (E := E) chunk (dst.installed linePrefix text) =
    (.returned ⟨⟩, dst.installed linePrefix (text ++ chunk)) := by
  have hsentry : sentry (E := E) (dst.installed linePrefix text) =
      (.returned true, dst.installed linePrefix text) := rfl
  have hsputn : sputn (E := E) chunk (dst.installed linePrefix text) =
      (.returned true, dst.installed linePrefix (text ++ chunk)) :=
    bind_of_returned (xsputn_installed dst linePrefix chunk text)
  rw [write, bind_of_returned hsentry]
  exact bind_of_returned hsputn

private theorem writeAll_installed (chunks : List (List Char)) : ∀ text,
    Fn.writeAll (E := E) chunks (dst.installed linePrefix text) =
      (.returned ⟨⟩, dst.installed linePrefix (text ++ chunks.flatten)) := by
  induction chunks with
  | nil =>
    intro text
    rw [List.flatten_nil, List.append_nil]
    rfl
  | cons chunk chunks ih =>
    intro text
    rw [Fn.writeAll, bind_of_returned (write_installed dst linePrefix chunk text), ih, List.append_assoc,
      List.flatten_cons]

private theorem run_installed (fn : Fn E) (text : List Char) : fn.run (dst.installed linePrefix text) =
    fn.finish.run (dst.installed linePrefix (text ++ fn.text)) :=
  bind_of_returned (writeAll_installed dst linePrefix fn.writes text)

/-! ### The way back to the original buffer -/

/-- The original buffer is given nothing: the computation returns with this buffer installed when `P` holds, and
throws with the other one otherwise. -/
def Reinstalls (x : Printing E PUnit) (s : OstreamState) (P : Prop) : Prop :=
  ∃ s' : OstreamState, s'.original = s.original ∧
    (P ∧ x s = (.returned ⟨⟩, s') ∧ s'.rdbuf = .original ∨
      ¬ P ∧ (∃ e, x s = (.threw e, s')) ∧ s'.rdbuf = .prefixBuf)

section Reinstalls

variable {x : Printing E PUnit} {f : PUnit → Printing E PUnit} {s s' : OstreamState} {P : Prop}

private theorem Reinstalls.bind (h : x s = (.returned ⟨⟩, s')) (horiginal : s'.original = s.original)
    (hf : Reinstalls (f ⟨⟩) s' P) : Reinstalls (x >>= f) s P := by
  unfold Reinstalls
  rw [bind_of_returned h, ← horiginal]
  exact hf

private theorem Reinstalls.of_threw {e : StreamError E} (h : x s = (.threw e, s'))
    (horiginal : s'.original = s.original) (hrdbuf : s'.rdbuf = .prefixBuf) (hP : ¬ P) : Reinstalls (x >>= f) s P :=
  ⟨s', horiginal, .inr ⟨hP, ⟨e, bind_of_threw h⟩, hrdbuf⟩⟩

private theorem reinstalls_setRdbuf (s : OstreamState) (hP : P) : Reinstalls (E := E) (setRdbuf .original) s P :=
  ⟨{ s with rdbuf := .original, rdstate := {} }, rfl, .inl ⟨hP, rfl, rfl⟩⟩

end Reinstalls

/-- The stream writes to the filtering buffer. -/
structure Filtering (s : OstreamState) : Prop where
  rdbuf : s.rdbuf = .prefixBuf
  prefixBuf : s.prefixBuf ≠ none

section Flush

variable {s : OstreamState}

private theorem setstate_of_masks {bits : IoState} (h : s.exceptions.masks (s.rdstate.or bits) = true) :
    setstate (E := E) bits s = (.threw .iosFailure, { s with rdstate := s.rdstate.or bits }) := by
  simp only [setstate, h, if_true]

private theorem setstate_of_not_masks {bits : IoState} (h : s.exceptions.masks (s.rdstate.or bits) = false) :
    setstate (E := E) bits s = (.returned ⟨⟩, { s with rdstate := s.rdstate.or bits }) := by
  simp only [setstate, h, Bool.false_eq_true, if_false]

private theorem sentry_of_good (h : s.rdstate = {}) : sentry (E := E) s = (.returned true, s) :=
  if_pos (by rw [h]; rfl)

private theorem pubsync_of_filtering (h : Filtering s) :
    pubsync (E := E) s = (.returned (s.syncs s.synced), { s with synced := s.synced + 1 }) := by
  obtain ⟨buf, hbuf⟩ := Option.ne_none_iff_exists'.1 h.prefixBuf
  simp only [pubsync, h.rdbuf, hbuf]

/-- What a flush of a good stream can do: the synchronisation succeeds, or the stream throws, or it is bad. -/
private theorem flush_cases (E : Type) (h : Filtering s) (hgood : s.rdstate = {}) :
    s.syncs s.synced = true ∧ flush (E := E) s = (.returned ⟨⟩, { s with synced := s.synced + 1 }) ∨
    s.syncs s.synced = false ∧ s.exceptions.badbit = true ∧
      flush (E := E) s = (.threw .iosFailure, { s with synced := s.synced + 1, rdstate := { badbit := true } }) ∨
    s.syncs s.synced = false ∧ s.exceptions.badbit = false ∧
      flush (E := E) s = (.returned ⟨⟩, { s with synced := s.synced + 1, rdstate := { badbit := true } }) := by
  have hflush : flush (E := E) s = if s.syncs s.synced then (.returned ⟨⟩, { s with synced := s.synced + 1 })
      else setstate { badbit := true } { s with synced := s.synced + 1 } := by
    rw [flush, bind_of_returned (sentry_of_good hgood), if_pos rfl, bind_of_returned (pubsync_of_filtering h)]
    cases s.syncs s.synced <;> rfl
  have hset : setstate (E := E) { badbit := true } { s with synced := s.synced + 1 } =
      (if s.exceptions.badbit then .threw .iosFailure else .returned ⟨⟩,
        { s with synced := s.synced + 1, rdstate := { badbit := true } }) := by
    simp [setstate, hgood, IoState.or, IoState.masks]
  cases hsync : s.syncs s.synced with
  | true => exact .inl ⟨rfl, hflush.trans (if_pos hsync)⟩
  | false =>
    have hflush := (hflush.trans (if_neg (by simp [hsync]))).trans hset
    cases hbad : s.exceptions.badbit with
    | true => exact .inr (.inl ⟨rfl, rfl, by simpa only [hbad, if_true] using hflush⟩)
    | false => exact .inr (.inr ⟨rfl, rfl, by simpa only [hbad, Bool.false_eq_true, if_false] using hflush⟩)

/-- A flush of a bad stream does not get to the buffer. -/
private theorem flush_of_bad (hbad : s.rdstate.badbit = true) : flush (E := E) s = setstate { failbit := true } s := by
  have hgood : ¬ s.rdstate.good = true := by simp [IoState.good, hbad]
  have hsentry : sentry (E := E) s = (do setstate { failbit := true }; return false : Printing E Bool) s := by
    rw [sentry, if_neg hgood, if_pos hbad]
  cases h : s.exceptions.masks (s.rdstate.or { failbit := true }) with
  | true =>
    have hset := setstate_of_masks (E := E) h
    rw [bind_of_threw hset] at hsentry
    rw [flush, bind_of_threw hsentry, hset]
  | false =>
    have hset := setstate_of_not_masks (E := E) h
    rw [bind_of_returned hset] at hsentry
    rw [flush, bind_of_returned hsentry, hset]
    rfl

/-- Behind a good stream the original buffer is installed unless the flush throws. -/
private theorem reinstalls_of_good (h : Filtering s) (hgood : s.rdstate = {}) :
    Reinstalls (E := E) (do flush; setRdbuf .original) s
      (s.syncs s.synced = true ∨ s.exceptions.badbit = false) := by
  rcases flush_cases E h hgood with ⟨hsync, hflush⟩ | ⟨hsync, hbad, hflush⟩ | ⟨hsync, hbad, hflush⟩
  · exact .bind hflush rfl (reinstalls_setRdbuf _ (.inl hsync))
  · exact .of_threw hflush rfl h.rdbuf (by simp [hsync, hbad])
  · exact .bind hflush rfl (reinstalls_setRdbuf _ (.inr hbad))

/-- Behind a bad stream the flush throws if the stream throws at all. -/
private theorem reinstalls_of_bad (h : Filtering s) (hbad : s.rdstate = { badbit := true }) :
    Reinstalls (E := E) (do flush; setRdbuf .original) s (s.exceptions = {}) := by
  have hflush := flush_of_bad (E := E) (s := s) (by rw [hbad])
  have hmasks : s.exceptions.masks (s.rdstate.or { failbit := true }) =
      (s.exceptions.badbit || s.exceptions.failbit) := by
    simp [hbad, IoState.or, IoState.masks]
  cases hexceptions : s.exceptions.badbit || s.exceptions.failbit with
  | true =>
    have hset := hflush.trans (setstate_of_masks (hmasks.trans hexceptions))
    refine .of_threw hset rfl h.rdbuf fun he => ?_
    rw [he] at hexceptions
    cases hexceptions
  | false =>
    have hset := hflush.trans (setstate_of_not_masks (hmasks.trans hexceptions))
    obtain ⟨hb, hf⟩ := Bool.or_eq_false_iff.1 hexceptions
    refine .bind hset rfl (reinstalls_setRdbuf _ ?_)
    show (⟨s.exceptions.badbit, s.exceptions.failbit⟩ : IoState) = {}
    rw [hb, hf]

/-- Behind two flushes; a first one that fails and does not throw leaves a bad stream. -/
private theorem reinstalls_flushed (h : Filtering s) (hgood : s.rdstate = {}) :
    Reinstalls (E := E) (do flush; flush; setRdbuf .original) s
      (if s.syncs s.synced then s.syncs (s.synced + 1) = true ∨ s.exceptions.badbit = false
        else s.exceptions = {}) := by
  rcases flush_cases E h hgood with ⟨hsync, hflush⟩ | ⟨hsync, hbad, hflush⟩ | ⟨hsync, hbad, hflush⟩
  · rw [hsync]
    exact .bind hflush rfl (reinstalls_of_good ⟨h.rdbuf, h.prefixBuf⟩ hgood)
  · rw [hsync]
    refine .of_threw hflush rfl h.rdbuf fun he => ?_
    have he : s.exceptions = {} := he
    rw [he] at hbad
    cases hbad
  · rw [hsync]
    exact .bind hflush rfl (reinstalls_of_bad ⟨h.rdbuf, h.prefixBuf⟩ rfl)

end Flush

/-- The filtering buffer is installed before the function runs. -/
private theorem body_start (fn : Printing E PUnit) :
    (do setRdbuf .prefixBuf; fn; flush; setRdbuf .original : Printing E PUnit)
        { dst.start with prefixBuf := some ⟨linePrefix, true⟩ } =
      (do fn; flush; setRdbuf .original : Printing E PUnit) (dst.installed linePrefix []) := by
  have hset : setRdbuf (E := E) .prefixBuf { dst.start with prefixBuf := some ⟨linePrefix, true⟩ } =
      (.returned ⟨⟩, dst.installed linePrefix []) := by
    simp [setRdbuf, installed, start]
  exact bind_of_returned hset

/-- Functions that do the same with the stream under the filtering buffer. -/
private theorem withPrefixedOstream_congr {fn fn' : Printing E PUnit}
    (h : fn (dst.installed linePrefix []) = fn' (dst.installed linePrefix [])) :
    withPrefixedOstream linePrefix fn dst.start = withPrefixedOstream linePrefix fn' dst.start :=
  object_congr rfl <|
    calc (do setRdbuf .prefixBuf; fn; flush; setRdbuf .original : Printing E PUnit)
            { dst.start with prefixBuf := some ⟨linePrefix, true⟩ }
        = (do fn; flush; setRdbuf .original : Printing E PUnit) (dst.installed linePrefix []) :=
          body_start dst linePrefix fn
      _ = (do fn'; flush; setRdbuf .original : Printing E PUnit) (dst.installed linePrefix []) := bind_eq_bind h
      _ = _ := (body_start dst linePrefix fn').symm

/-- What happens behind the writes of the function. -/
private theorem reinstalls_finish (finish : Finish E) (text : List Char) :
    Reinstalls (do finish.run; flush; setRdbuf .original) (dst.installed linePrefix text) (finish.Undisturbed dst) := by
  have hfiltering : Filtering (dst.installed linePrefix text) := ⟨rfl, nofun⟩
  cases finish with
  | returned => exact .bind rfl rfl (reinstalls_of_good hfiltering rfl)
  | flushed => exact reinstalls_flushed hfiltering rfl
  | threw e => exact .of_threw (e := .other e) rfl rfl rfl not_false

/-- How `with_prefixed_ostream` ends and leaves the stream: without the original buffer it keeps the destroyed one. -/
structure Leaves (fn : Fn E) (outcome : Ending (StreamError E) PUnit × OstreamState) : Prop where
  original : outcome.2.original = dst.original ++ prefixLines linePrefix fn.text
  prefixBuf : outcome.2.prefixBuf = none
  rdbuf : fn.finish.Undisturbed dst ∧ outcome.1 = .returned ⟨⟩ ∧ outcome.2.rdbuf = .original ∨
    ¬ fn.finish.Undisturbed dst ∧ (∃ e, outcome.1 = .threw e) ∧ outcome.2.rdbuf = .prefixBuf

private theorem withPrefixedOstream_run (fn : Fn E) :
    Leaves dst linePrefix fn (withPrefixedOstream linePrefix fn.run dst.start) := by
  obtain ⟨s', horiginal, hs'⟩ := reinstalls_finish dst linePrefix fn.finish fn.text
  have hbody : (do setRdbuf .prefixBuf; fn.run; flush; setRdbuf .original : Printing E PUnit)
        { dst.start with prefixBuf := some ⟨linePrefix, true⟩ } =
      (do fn.finish.run; flush; setRdbuf .original : Printing E PUnit) (dst.installed linePrefix fn.text) :=
    (body_start dst linePrefix fn.run).trans (bind_eq_bind (run_installed dst linePrefix fn []))
  rcases hs' with ⟨hP, hreturned, hrdbuf⟩ | ⟨hP, ⟨e, hthrew⟩, hrdbuf⟩
  · have hrun : withPrefixedOstream linePrefix fn.run dst.start = (.returned ⟨⟩, { s' with prefixBuf := none }) :=
      object_of_returned rfl (hbody.trans hreturned) rfl
    rw [hrun]
    exact ⟨horiginal, rfl, .inl ⟨hP, rfl, hrdbuf⟩⟩
  · have hrun : withPrefixedOstream linePrefix fn.run dst.start = (.threw e, { s' with prefixBuf := none }) :=
      object_of_threw_accepted rfl (hbody.trans hthrew) rfl
    rw [hrun]
    exact ⟨horiginal, rfl, .inr ⟨hP, ⟨e, rfl⟩, hrdbuf⟩⟩

/-- The original buffer gets the text with the prefix before each line, however the text is cut and whatever happens
then; it is installed again exactly if no exception is thrown. -/
theorem withPrefixedOstream_restores_iff (fn : Fn E) :
    (withPrefixedOstream linePrefix fn.run dst.start).2.original = dst.original ++ prefixLines linePrefix fn.text ∧
    ((withPrefixedOstream linePrefix fn.run dst.start).2.rdbuf = .original ↔ fn.finish.Undisturbed dst) := by
  have h := withPrefixedOstream_run dst linePrefix fn
  refine ⟨h.original, ?_⟩
  rcases h.rdbuf with ⟨hP, -, hrdbuf⟩ | ⟨hP, -, hrdbuf⟩
  · exact iff_of_true hrdbuf hP
  · rw [hrdbuf]
    exact iff_of_false nofun hP

/-- The filter by itself passes on the same text. -/
private theorem foldl_put (text : List Char) : text.foldl LinePrefixingFilter.put { linePrefix := linePrefix } =
    ⟨linePrefix, atLineStart text, prefixLines linePrefix text⟩ := by
  induction text using List.reverseRecOn with
  | nil => rfl
  | append_singleton text c ih =>
    rw [List.foldl_concat, ih, prefixLines_concat, atLineStart_concat]
    cases h : atLineStart text <;> simp [LinePrefixingFilter.put]

/-- The manifest writer: a function that writes a text, and throws nothing, leaves the stream with what
`LinePrefixingFilter` passes on. -/
theorem original_of_undisturbed {fn : Fn E} (h : fn.finish.Undisturbed dst) :
    (withPrefixedOstream linePrefix fn.run dst.start).1 = .returned ⟨⟩ ∧
      (withPrefixedOstream linePrefix fn.run dst.start).2.original =
        dst.original ++ R4R.withPrefixedOstream linePrefix fn.text := by
  have hleaves := withPrefixedOstream_run dst linePrefix fn
  rw [R4R.withPrefixedOstream, foldl_put]
  rcases hleaves.rdbuf with ⟨-, hreturned, -⟩ | ⟨hP, -⟩
  · exact ⟨hreturned, hleaves.original⟩
  · exact absurd h hP

end Ostream

/-! ### The output of `make` -/

/-- What `forward_output` writes at an answer. -/
def Polled.writes : Polled → List (List Char)
  | .ready (some (.ok (c :: chunk))) _ => [c :: chunk]
  | _ => []

/-- The end of `forward_output` at an answer, none when it goes on. -/
def Polled.finish (strerror : Errno → String) (fd : Nat) : Polled → Option (Finish ForwardError)
  | .failed errno => if errno = EINTR then none else some (.threw (.runtimeError ("poll: " ++ strerror errno)))
  | .ready (some (.error errno)) _ =>
    if errno = EINTR ∨ errno = EAGAIN then none
    else some (.threw (.systemError errno ("Unable to read from file descriptor: " ++ toString fd)))
  | .ready (some (.ok [])) _ => some .flushed
  | .ready _ hangup => if hangup then some .flushed else none

/-- What `forward_output` does with a stream that does not fail, none while it waits. -/
def forwarded (strerror : Errno → String) (fd : Nat) : List Polled → Option (Fn ForwardError)
  | [] => none
  | answer :: answers =>
    match answer.finish strerror fd with
    | some finish => some ⟨answer.writes, finish⟩
    | none => (forwarded strerror fd answers).map fun fn => ⟨answer.writes ++ fn.writes, fn.finish⟩

section Make

variable {strerror : Errno → String} {fd : Nat} (dst : Ostream) (linePrefix : List Char)

open Ostream

/-- One turn of the loop. -/
private theorem forwardOutput_step (answer : Polled) (answers : List Polled) (text : List Char) :
    forwardOutput strerror fd (answer :: answers) (dst.installed linePrefix text) =
      (match answer.finish strerror fd with
        | some finish => finish.run
        | none => forwardOutput strerror fd answers) (dst.installed linePrefix (text ++ answer.writes.flatten)) := by
  cases answer with
  | failed errno =>
    simp only [forwardOutput, Polled.finish, Polled.writes, List.flatten_nil, List.append_nil]
    split <;> rfl
  | ready input hangup =>
    rcases input with _ | ⟨errno | (_ | ⟨c, chunk⟩)⟩
    · simp only [forwardOutput, Polled.finish, Polled.writes, List.flatten_nil, List.append_nil]
      cases hangup <;> rfl
    · simp only [forwardOutput, Polled.finish, Polled.writes, List.flatten_nil, List.append_nil]
      split <;> rfl
    · simp only [forwardOutput, Polled.finish, Polled.writes, List.flatten_nil, List.append_nil]
      rfl
    · simp only [forwardOutput, Polled.finish, Polled.writes, List.flatten_cons, List.flatten_nil, List.append_nil]
      rw [bind_of_returned (write_installed dst linePrefix (c :: chunk) text)]
      cases hangup <;> rfl

/-- `forward_output` is one of the functions that write a text. -/
private theorem forwardOutput_installed {answers : List Polled} : ∀ {fn : Fn ForwardError},
    forwarded strerror fd answers = some fn → ∀ text,
      forwardOutput strerror fd answers (dst.installed linePrefix text) =
        fn.finish.run (dst.installed linePrefix (text ++ fn.text)) := by
  induction answers with
  | nil => exact nofun
  | cons answer answers ih =>
    intro fn h text
    rw [forwardOutput_step]
    unfold forwarded at h
    cases hfinish : answer.finish strerror fd with
    | some finish =>
      rw [hfinish] at h
      obtain rfl := Option.some.inj h
      rfl
    | none =>
      rw [hfinish] at h
      obtain ⟨fn', hfn', rfl⟩ := Option.map_eq_some_iff.1 h
      simp only [ih hfn', Fn.text, List.flatten_append, List.append_assoc]

/-- While the answer that ends it has not come it waits. -/
private theorem forwardOutput_waiting {answers : List Polled} (h : forwarded strerror fd answers = none) : ∀ text,
    ∃ text', forwardOutput strerror fd answers (dst.installed linePrefix text) =
      (.waiting, dst.installed linePrefix text') := by
  induction answers with
  | nil => exact fun text => ⟨text, rfl⟩
  | cons answer answers ih =>
    intro text
    rw [forwardOutput_step]
    unfold forwarded at h
    cases hfinish : answer.finish strerror fd with
    | some finish =>
      rw [hfinish] at h
      cases h
    | none =>
      rw [hfinish] at h
      exact ih (Option.map_eq_none_iff.1 h) _

/-- `RunMakefileTask::run_makefile_target` up to the end of the output, where it waits for `make`. -/
def runMakefileTarget (strerror : Errno → String) (fd : Nat) (linePrefix : List Char) (answers : List Polled) :
    Printing ForwardError PUnit :=
  Ostream.withPrefixedOstream linePrefix (forwardOutput strerror fd answers)

/-- Behind the output of `make`: it has got its prefixes, and the stream has its buffer again unless `poll`, `read` or
a flush has failed. -/
theorem runMakefileTarget_run {answers : List Polled} {fn : Fn ForwardError}
    (h : forwarded strerror fd answers = some fn) :
    dst.Leaves linePrefix fn (runMakefileTarget strerror fd linePrefix answers dst.start) := by
  have hfn := (forwardOutput_installed dst linePrefix h []).trans (Ostream.run_installed dst linePrefix fn []).symm
  rw [runMakefileTarget, Ostream.withPrefixedOstream_congr dst linePrefix hfn]
  exact Ostream.withPrefixedOstream_run dst linePrefix fn

/-- While `make` may write the filtering buffer is alive. -/
theorem runMakefileTarget_waiting {answers : List Polled} (h : forwarded strerror fd answers = none) :
    ∃ text, runMakefileTarget strerror fd linePrefix answers dst.start = (.waiting, dst.installed linePrefix text) := by
  obtain ⟨text, hwaiting⟩ := forwardOutput_waiting dst linePrefix h []
  exact ⟨text, object_of_waiting rfl ((Ostream.body_start dst linePrefix _).trans (bind_of_waiting hwaiting))⟩

end Make

def EIO : Errno := 5

/-- A good stream whose buffer takes everything. -/
def cout : Ostream := { original := [], takes := fun _ _ => true, syncs := fun _ => true }

/-- A failing `read` behind the first output of `make` leaves the standard output with the destroyed buffer. -/
theorem runMakefileTarget_dangling :
    let run := runMakefileTarget (fun _ => "") 3 "make> ".toList
      [.ready (some (.ok "cc\n".toList)) false, .ready (some (.error EIO)) false] cout.start
    run.1 = .threw (.other (.systemError EIO "Unable to read from file descriptor: 3")) ∧
      run.2.original = "make> cc\n".toList ∧ run.2.rdbuf = .prefixBuf ∧ run.2.prefixBuf = none :=
  ⟨rfl, rfl, rfl, rfl⟩

end R4R
