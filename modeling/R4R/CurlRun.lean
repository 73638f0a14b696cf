import R4R.Curl

/-!
# The window of transfers in progress

Seen from the keys alone, `run` moves a window over the list of requests: the transfers in progress, and the keys
that wait.  A round drops the keys that finish and takes one key in.  `round` refines this (`window_round`), and the
loop goes on until the window is empty unless some round drops all keys in progress while others wait.
-/

namespace R4R

/-- The keys of the transfers in progress and of those that wait. -/
structure Window (T : Type*) where
  active : List T
  waiting : List T

namespace Window

variable {T : Type*} [DecidableEq T]

def start (parallel : Nat) (keys : List T) : Window T := ⟨keys.take parallel, keys.drop parallel⟩

def round (finished : List T) (w : Window T) : Window T :=
  ⟨w.active.filter (· ∉ finished) ++ w.waiting.take 1, w.waiting.drop 1⟩

def size (w : Window T) : Nat := w.active.length + w.waiting.length

/-- The window after `n` rounds. -/
def after (finished : Nat → List T) (w : Window T) (n : Nat) : Window T :=
  Loops.rounds (fun t => round (finished t)) 0 n w

/-- No round ends all transfers in progress while others wait. -/
def NeverDrained (finished : Nat → List T) (w : Window T) : Prop :=
  ∀ t, (∀ k ∈ (w.after finished t).active, k ∈ finished t) → (w.after finished t).waiting = []

theorem after_succ (finished : Nat → List T) (w : Window T) (n : Nat) :
    w.after finished (n + 1) = (w.after finished n).round (finished n) := by
  show round (finished (0 + n)) _ = _
  rw [Nat.zero_add]
  rfl

private theorem size_round_le (finished : List T) (w : Window T) : (w.round finished).size ≤ w.size := by
  have h := List.length_filter_le (· ∉ finished) w.active
  unfold size round
  simp only [List.length_append, List.length_take, List.length_drop]
  omega

private theorem size_round_lt {finished : List T} {w : Window T} {k : T} (hk : k ∈ w.active) (hf : k ∈ finished) :
    (w.round finished).size < w.size := by
  have h : (w.active.filter (· ∉ finished)).length < w.active.length := by
    apply List.length_filter_lt_length_iff_exists.2
    exact ⟨k, hk, by simpa using hf⟩
  unfold size round
  simp only [List.length_append, List.length_take, List.length_drop]
  omega

private theorem mem_round {finished : List T} {w : Window T} {k : T} (hk : k ∈ w.active) (hf : k ∉ finished) :
    k ∈ (w.round finished).active :=
  List.mem_append_left _ (List.mem_filter.2 ⟨hk, by simpa using hf⟩)

/-- The window is empty only when nothing waits. -/
structure Valid (keys : List T) (w : Window T) : Prop where
  filled : w.active = [] → w.waiting = []
  active_subset : ∀ k ∈ w.active, k ∈ keys
  waiting_subset : ∀ k ∈ w.waiting, k ∈ keys

omit [DecidableEq T] in
theorem valid_start {parallel : Nat} (hparallel : 1 ≤ parallel) (keys : List T) : Valid keys (start parallel keys) := by
  constructor
  · intro h
    rcases List.take_eq_nil_iff.1 h with h | h
    · omega
    · simp [start, h]
  · intro k hk
    exact List.mem_of_mem_take hk
  · intro k hk
    exact List.mem_of_mem_drop hk

private theorem valid_round (finished : List T) {keys : List T} {w : Window T} (hw : Valid keys w) :
    Valid keys (w.round finished) := by
  constructor
  · intro h
    have htake : w.waiting.take 1 = [] := (List.append_eq_nil_iff.1 h).2
    have hnil : w.waiting = [] := by simpa using htake
    simp [round, hnil]
  · intro k hk
    rcases List.mem_append.1 hk with hk | hk
    · exact hw.active_subset k (List.mem_of_mem_filter hk)
    · exact hw.waiting_subset k (List.mem_of_mem_take hk)
  · intro k hk
    exact hw.waiting_subset k (List.mem_of_mem_drop hk)

theorem valid_after {keys : List T} {w : Window T} (hw : Valid keys w) (finished : Nat → List T) (n : Nat) :
    Valid keys (w.after finished n) := Loops.rounds_invariant (fun _ _ => valid_round _) 0 n hw

theorem waiting_after (finished : Nat → List T) (w : Window T) (n : Nat) :
    (w.after finished n).waiting = w.waiting.drop n := by
  induction n with
  | zero => rfl
  | succ n ih =>
    rw [after_succ]
    show (w.after finished n).waiting.drop 1 = _
    rw [ih, List.drop_drop]

/-- When every key finishes again and again, the window empties. -/
private theorem exists_size_eq_zero {finished : Nat → List T} {keys : List T} {w : Window T} (hw : Valid keys w)
    (hfair : ∀ k ∈ keys, ∀ t, ∃ t' ≥ t, k ∈ finished t') : ∃ n, (w.after finished n).size = 0 := by
  refine Loops.exists_measure_zero (P := Valid keys) (E := fun k w => k ∈ w.active)
    (F := fun t k => k ∈ finished t) ?_ ?_ ?_ ?_ ?_ ?_ hw 0
  · exact fun t s hs => valid_round _ hs
  · intro s hs hpos
    apply List.exists_mem_of_ne_nil
    intro hnil
    simp [size, hnil, hs.filled hnil] at hpos
  · exact fun t s _ => size_round_le _ s
  · exact fun t s k _ hk hf => size_round_lt hk hf
  · exact fun t s k _ hk hf => mem_round hk hf
  · exact fun s k hs hk => hfair k (hs.active_subset k hk)

end Window

/-- The keys that an activity finishes. -/
def Activity.finishedKeys {T : Type*} (a : Activity T) : List T := a.finished.map (·.easyHandle)

namespace CURLM

variable {T : Type*} [DecidableEq T]

/-- The keys of the running transfers. -/
def keys (m : CURLM T) : List T := m.running.map (·.request)

/-- The keys whose messages are queued. -/
def reported (m : CURLM T) : List T := m.messages.map (·.easyHandle)

private theorem map_filter_request (l : List (EasyHandle T)) (k : T) :
    (l.filter (·.request ≠ k)).map (·.request) = (l.map (·.request)).filter (· ≠ k) := by
  rw [List.filter_map]
  rfl

@[simp] theorem keys_removeHandle (m : CURLM T) (k : T) : (m.removeHandle k).keys = m.keys.filter (· ≠ k) :=
  map_filter_request m.running k

omit [DecidableEq T] in
@[simp] theorem keys_addHandle (m : CURLM T) (h : EasyHandle T) : (m.addHandle h).keys = m.keys ++ [h.request] := by
  simp [keys, addHandle]

private theorem filter_ne_of_notMem {l : List T} {k : T} (h : k ∉ l) : l.filter (· ≠ k) = l := by
  apply List.filter_eq_self.2
  intro a ha
  simpa using fun hak : a = k => h (hak ▸ ha)

theorem keys_finish (m : CURLM T) (msg : CURLMsg T) :
    (m.finish msg).keys = m.keys.filter (· ≠ msg.easyHandle) := by
  unfold finish
  split
  · exact map_filter_request m.running msg.easyHandle
  · rename_i h
    exact (filter_ne_of_notMem h).symm

private theorem reported_finish {m : CURLM T} (hm : m.keys.Nodup) (msg : CURLMsg T) :
    ((m.finish msg).reported ++ (m.finish msg).keys).Perm (m.reported ++ m.keys) := by
  rw [keys_finish]
  by_cases h : msg.easyHandle ∈ m.keys
  · have hf : (m.finish msg).messages = m.messages ++ [msg] := congrArg messages (if_pos h)
    have hr : (m.finish msg).reported = m.reported ++ [msg.easyHandle] := by
      rw [reported, hf, List.map_append]
      rfl
    have he : m.keys.filter (· ≠ msg.easyHandle) = m.keys.erase msg.easyHandle := by
      rw [List.Nodup.erase_eq_filter hm]
      apply List.filter_congr
      intro k _
      by_cases hk : k = msg.easyHandle <;> simp [hk]
    rw [hr, List.append_assoc, he]
    exact (List.perm_cons_erase h).symm.append_left _
  · have hr : m.finish msg = m := if_neg h
    rw [hr, filter_ne_of_notMem h]

private theorem keys_foldl_finish (msgs : List (CURLMsg T)) : ∀ m : CURLM T,
    (msgs.foldl finish m).keys = m.keys.filter (· ∉ msgs.map (·.easyHandle)) := by
  induction msgs with
  | nil => intro m; simp
  | cons msg msgs ih =>
    intro m
    rw [List.foldl_cons, ih, keys_finish, List.filter_filter]
    apply List.filter_congr
    intro k _
    by_cases hk : k = msg.easyHandle <;> simp [hk]

private theorem reported_foldl_finish (msgs : List (CURLMsg T)) : ∀ m : CURLM T, m.keys.Nodup →
    ((msgs.foldl finish m).reported ++ (msgs.foldl finish m).keys).Perm (m.reported ++ m.keys) := by
  induction msgs with
  | nil => intro m _; exact List.Perm.refl _
  | cons msg msgs ih =>
    intro m hm
    have hm' : (m.finish msg).keys.Nodup := by
      rw [keys_finish]
      exact hm.filter _
    exact (ih _ hm').trans (reported_finish hm msg)

end CURLM

namespace CURLMultipleTransfer

variable {T : Type*} [DecidableEq T]

/-- The keys of `requests_`. -/
def requestKeys (c : CURLMultipleTransfer T) : List T := c.requests.map (·.key)

def window (c : CURLMultipleTransfer T) : Window T := ⟨c.cm.keys, c.pending.map Prod.fst⟩

private theorem requestKeys_addTransfer {c : CURLMultipleTransfer T} {k : T} (hk : k ∉ c.requestKeys)
    (url : List Char) :
    (c.addTransfer k url).requestKeys = c.requestKeys ++ [k] := Emplace.map_key_emplace hk

/-- The first loop of `run` starts requests until `parallel_` of them are in progress. -/
private theorem fillLoop_spec (rest : List (T × List Char)) : ∀ c : CURLMultipleTransfer T, c.requestKeys = c.cm.keys →
    (c.cm.keys ++ rest.map Prod.fst).Nodup →
    (c.fillLoop rest).requestKeys = (c.fillLoop rest).cm.keys ∧ (c.fillLoop rest).cm.messages = c.cm.messages ∧
    (c.fillLoop rest).window =
      ⟨c.cm.keys ++ (rest.map Prod.fst).take (c.parallel - c.requests.length),
        (rest.map Prod.fst).drop (c.parallel - c.requests.length)⟩ := by
  induction rest with
  | nil =>
    intro c hc _
    simp [fillLoop, window, requestKeys] at hc ⊢
    exact hc
  | cons r rest ih =>
    intro c hc hnodup
    obtain ⟨k, url⟩ := r
    unfold fillLoop
    split
    · rename_i hlt
      have hk : k ∉ c.requestKeys := by
        rw [hc]
        intro hmem
        exact (List.nodup_append.1 hnodup).2.2 k hmem k (by simp) rfl
      have hlen : ({ c with pending := rest }.addTransfer k url).requests.length = c.requests.length + 1 := by
        have h := congrArg List.length (requestKeys_addTransfer (c := { c with pending := rest }) hk url)
        simpa [requestKeys] using h
      have hkeys : ({ c with pending := rest }.addTransfer k url).cm.keys = c.cm.keys ++ [k] :=
        CURLM.keys_addHandle ..
      have hreq : ({ c with pending := rest }.addTransfer k url).requestKeys = c.cm.keys ++ [k] := by
        rw [← hc]
        exact requestKeys_addTransfer (c := { c with pending := rest }) hk url
      obtain ⟨h1, h2, h3⟩ := ih ({ c with pending := rest }.addTransfer k url) (hreq.trans hkeys.symm)
        (by rw [hkeys, List.append_assoc]; exact hnodup)
      refine ⟨h1, h2, ?_⟩
      rw [h3, hkeys, hlen]
      show Window.mk _ _ = Window.mk _ _
      have hp : c.parallel - c.requests.length = c.parallel - (c.requests.length + 1) + 1 := by omega
      rw [hp]
      simp
      rfl
    · rename_i hge
      have hp : c.parallel - c.requests.length = 0 := by omega
      rw [hp]
      refine ⟨hc, rfl, ?_⟩
      simp [window]

/-! ### The messages -/

/-- What reading the messages of the keys `ks` does to the state. -/
structure Handled (s : RunState T) (ks : List T) (s' : RunState T) : Prop where
  results : s'.results.map Prod.fst = s.results.map Prod.fst ++ ks
  requestKeys : s'.transfer.requestKeys = s.transfer.requestKeys.filter (· ∉ ks)
  keys : s'.transfer.cm.keys = s.transfer.cm.keys.filter (· ∉ ks)
  messages : s'.transfer.cm.messages = s.transfer.cm.messages
  pending : s'.transfer.pending = s.transfer.pending
  isRunning : s'.isRunning = s.isRunning

private theorem handleMessage_spec {s : RunState T} {msg : CURLMsg T} (hreq : msg.easyHandle ∈ s.transfer.requestKeys)
    (hres : msg.easyHandle ∉ s.results.map Prod.fst) : Handled s [msg.easyHandle] (handleMessage s msg) := by
  cases hfind : s.transfer.requests.find? (·.key = msg.easyHandle) with
  | none =>
    obtain ⟨r, hr, hk⟩ := List.mem_map.1 hreq
    have := List.find?_eq_none.1 hfind r hr
    simp [hk] at this
  | some req =>
    have hkey : req.key = msg.easyHandle := by simpa using List.find?_some hfind
    have hstep : handleMessage s msg = { s with
        results := Emplace.emplace Prod.fst s.results (req.key, processCurlMessage msg req)
        transfer := { s.transfer with
          cm := s.transfer.cm.removeHandle msg.easyHandle
          requests := s.transfer.requests.filter (·.key ≠ req.key) } } := by
      unfold handleMessage
      rw [hfind]
    rw [hstep]
    constructor
    · rw [← hkey] at hres ⊢
      exact Emplace.map_key_emplace hres
    · simp only [CURLMultipleTransfer.requestKeys, hkey, List.mem_singleton, List.filter_map]
      rfl
    · simp
    · rfl
    · rfl
    · rfl

private theorem foldl_handleMessage_spec (msgs : List (CURLMsg T)) : ∀ s : RunState T,
    (∀ msg ∈ msgs, msg.easyHandle ∈ s.transfer.requestKeys) →
    (s.results.map Prod.fst ++ msgs.map (·.easyHandle)).Nodup →
    Handled s (msgs.map (·.easyHandle)) (msgs.foldl handleMessage s) := by
  induction msgs with
  | nil =>
    intro s _ _
    constructor <;> simp
  | cons msg msgs ih =>
    intro s hreq hnodup
    rw [List.map_cons] at hnodup ⊢
    have hnew : msg.easyHandle ∉ msgs.map (·.easyHandle) :=
      (List.nodup_cons.1 (List.nodup_append.1 hnodup).2.1).1
    have h1 := handleMessage_spec (hreq msg (by simp)) fun h =>
      (List.nodup_append.1 hnodup).2.2 _ h msg.easyHandle (by simp) rfl
    have h2 := ih (handleMessage s msg)
      (by
        intro m hm
        rw [h1.requestKeys]
        refine List.mem_filter.2 ⟨hreq m (by simp [hm]), ?_⟩
        have : m.easyHandle ≠ msg.easyHandle := fun he => hnew (he ▸ List.mem_map_of_mem hm)
        simpa using this)
      (by rw [h1.results, List.append_assoc]; exact hnodup)
    rw [List.foldl_cons]
    have hfilter : ∀ l : List T, (l.filter (· ∉ [msg.easyHandle])).filter (· ∉ msgs.map (·.easyHandle)) =
        l.filter (· ∉ msg.easyHandle :: msgs.map (·.easyHandle)) := by
      intro l
      rw [List.filter_filter]
      apply List.filter_congr
      intro k _
      by_cases hk : k = msg.easyHandle <;> simp [hk]
    constructor
    · rw [h2.results, h1.results, List.append_assoc]
      rfl
    · rw [h2.requestKeys, h1.requestKeys, hfilter]
    · rw [h2.keys, h1.keys, hfilter]
    · rw [h2.messages, h1.messages]
    · rw [h2.pending, h1.pending]
    · rw [h2.isRunning, h1.isRunning]

/-! ### One round -/

/-- What holds of the state whenever the condition of the main loop is tested. -/
structure RunInv (keys : List T) (s : RunState T) : Prop where
  requestKeys : s.transfer.requestKeys = s.transfer.cm.keys
  messages : s.transfer.cm.messages = []
  perm : (s.results.map Prod.fst ++ (s.transfer.cm.keys ++ s.transfer.pending.map Prod.fst)).Perm keys

/-- Before the refill the finished keys have moved from the requests to the results. -/
theorem readMessages_perform_spec {keys : List T} (hkeys : keys.Nodup) (a : Activity T) {s : RunState T}
    (hs : RunInv keys s) : RunInv keys (readMessages (perform a s)) ∧
    (readMessages (perform a s)).transfer.cm.keys = s.transfer.cm.keys.filter (· ∉ a.finishedKeys) ∧
    (readMessages (perform a s)).transfer.pending = s.transfer.pending ∧
    (readMessages (perform a s)).isRunning = (readMessages (perform a s)).transfer.cm.keys.length := by
  have hnodup := hs.perm.symm.nodup hkeys
  have hactive : s.transfer.cm.keys.Nodup :=
    (List.nodup_append.1 (List.nodup_append.1 hnodup).2.1).1
  set cm := a.finished.foldl CURLM.finish s.transfer.cm with hcm
  have hcmkeys : cm.keys = s.transfer.cm.keys.filter (· ∉ a.finishedKeys) :=
    CURLM.keys_foldl_finish a.finished s.transfer.cm
  have hreported : (cm.reported ++ cm.keys).Perm s.transfer.cm.keys := by
    have h := CURLM.reported_foldl_finish a.finished s.transfer.cm hactive
    rwa [show s.transfer.cm.reported = [] by rw [CURLM.reported, hs.messages]; rfl] at h
  -- the state in which the messages are read
  set s₁ : RunState T :=
    { perform a s with transfer := { (perform a s).transfer with cm := { cm with messages := [] } } } with hs₁
  have hreq : s₁.transfer.requestKeys = s.transfer.cm.keys := by
    rw [← hs.requestKeys]
    show (List.map _ _).map _ = _
    rw [List.map_map]
    apply List.map_congr_left
    intro r _
    simp only [Function.comp]
    split <;> rfl
  have hperm : (s.results.map Prod.fst ++ (cm.reported ++ (cm.keys ++ s.transfer.pending.map Prod.fst))).Perm keys := by
    rw [← List.append_assoc cm.reported]
    exact ((hreported.append_right _).append_left _).trans hs.perm
  -- each message is about a transfer of its own, so none of them meets a request that is gone
  have hread : Handled s₁ cm.reported (readMessages (perform a s)) := by
    apply foldl_handleMessage_spec cm.messages s₁
    · intro msg hmsg
      rw [hreq]
      exact hreported.subset (List.mem_append_left _ (List.mem_map_of_mem hmsg))
    · have h := hperm.symm.nodup hkeys
      rw [← List.append_assoc] at h
      exact (List.nodup_append.1 h).1
  have hdisj : ∀ k ∈ cm.keys, k ∉ cm.reported := by
    intro k hk hr
    exact (List.nodup_append.1 (hreported.symm.nodup hactive)).2.2 k hr k hk rfl
  have hstay : cm.keys.filter (· ∉ cm.reported) = cm.keys := by
    apply List.filter_eq_self.2
    intro k hk
    simpa using hdisj k hk
  have hleft : s.transfer.cm.keys.filter (· ∉ cm.reported) = cm.keys := by
    rw [hcmkeys]
    apply List.filter_congr
    intro k hk
    have hor : k ∈ cm.reported ∨ k ∈ cm.keys := List.mem_append.1 (hreported.symm.subset hk)
    have hiff : k ∈ cm.keys ↔ k ∉ a.finishedKeys := by
      rw [hcmkeys, List.mem_filter]
      simp [hk]
    have : k ∉ cm.reported ↔ k ∉ a.finishedKeys := by
      rw [← hiff]
      exact ⟨fun h => hor.resolve_left h, hdisj k⟩
    exact decide_eq_decide.2 this
  have hkeys' : (readMessages (perform a s)).transfer.cm.keys = cm.keys := by
    rw [hread.keys]
    exact hstay
  refine ⟨⟨?_, hread.messages, ?_⟩, hkeys'.trans hcmkeys, hread.pending, ?_⟩
  · rw [hread.requestKeys, hreq, hleft, hkeys']
  · rw [hread.results, hkeys', hread.pending, List.append_assoc]
    exact hperm
  · rw [hread.isRunning, hkeys']
    show cm.running.length = _
    rw [CURLM.keys, List.length_map]

private theorem refill_spec {keys : List T} (hkeys : keys.Nodup) {s : RunState T} (hs : RunInv keys s) :
    RunInv keys (refill s) ∧ (refill s).isRunning = s.isRunning ∧
    (refill s).transfer.window =
      ⟨s.transfer.cm.keys ++ (s.transfer.pending.map Prod.fst).take 1, (s.transfer.pending.map Prod.fst).drop 1⟩ := by
  cases hp : s.transfer.pending with
  | nil =>
    have hr : refill s = s := by
      unfold refill
      rw [hp]
    rw [hr]
    refine ⟨hs, rfl, ?_⟩
    simp [window, hp]
  | cons r rest =>
    obtain ⟨k, url⟩ := r
    have hr : refill s = { s with transfer := { s.transfer with pending := rest }.addTransfer k url } := by
      unfold refill
      rw [hp]
    have hperm := hs.perm
    rw [hp] at hperm
    have hk : k ∉ s.transfer.requestKeys := by
      rw [hs.requestKeys]
      intro hmem
      have h := (List.nodup_append.1 (hperm.symm.nodup hkeys)).2.1
      exact (List.nodup_append.1 h).2.2 k hmem k (by simp) rfl
    have hcm : (refill s).transfer.cm.keys = s.transfer.cm.keys ++ [k] := by
      rw [hr]
      exact CURLM.keys_addHandle ..
    have hpend : (refill s).transfer.pending = rest := by
      rw [hr]
      rfl
    refine ⟨⟨?_, ?_, ?_⟩, ?_, ?_⟩
    · rw [hcm, ← hs.requestKeys, hr]
      exact requestKeys_addTransfer (c := { s.transfer with pending := rest }) hk url
    · rw [hr]
      exact hs.messages
    · rw [hcm, hpend, List.append_assoc, hr]
      exact hperm
    · rw [hr]
    · rw [window, hcm, hpend]
      simp

/-- One round of the main loop moves the window. -/
private theorem round_spec {keys : List T} (hkeys : keys.Nodup) (a : Activity T) {s : RunState T} (hs : RunInv keys s) :
    RunInv keys (round a s) ∧ (round a s).transfer.window = s.transfer.window.round a.finishedKeys ∧
    ((round a s).isRunning = 0 ↔ ∀ k ∈ s.transfer.window.active, k ∈ a.finishedKeys) := by
  obtain ⟨hinv, hleft, hpend, hcount⟩ := readMessages_perform_spec hkeys a hs
  obtain ⟨hinv', hrun, hwin⟩ := refill_spec hkeys hinv
  refine ⟨hinv', ?_, ?_⟩
  · show (refill (readMessages (perform a s))).transfer.window = _
    rw [hwin, hleft, hpend]
    rfl
  · show (refill (readMessages (perform a s))).isRunning = 0 ↔ _
    rw [hrun, hcount, hleft, List.length_eq_zero_iff, List.filter_eq_nil_iff]
    simp [window]

/-! ### The whole run -/

omit [DecidableEq T] in
theorem ofRequests_eq (parallel : Nat) (requests : List (T × List Char)) :
    ofRequests parallel requests = { parallel := parallel, pending := requests } := by
  have h : ∀ (l : List (T × List Char)) (c : CURLMultipleTransfer T),
      l.foldl (fun c r => c.add r.1 r.2) c = { c with pending := c.pending ++ l } := by
    intro l
    induction l with
    | nil => intro c; simp
    | cons r l ih =>
      intro c
      rw [List.foldl_cons, ih, add]
      simp
  rw [ofRequests, h]
  rfl

private theorem runStart_spec (parallel : Nat) {requests : List (T × List Char)}
    (hnodup : (requests.map Prod.fst).Nodup) :
    RunInv (requests.map Prod.fst) (ofRequests parallel requests).runStart ∧
    (ofRequests parallel requests).runStart.transfer.window = Window.start parallel (requests.map Prod.fst) := by
  obtain ⟨hreq, hmsg, hwin⟩ := fillLoop_spec requests { parallel := parallel, pending := requests } rfl hnodup
  have hwin' : (ofRequests parallel requests).runStart.transfer.window =
      Window.start parallel (requests.map Prod.fst) := by
    rw [ofRequests_eq]
    exact hwin
  refine ⟨⟨?_, ?_, ?_⟩, hwin'⟩
  · rw [ofRequests_eq]
    exact hreq
  · rw [ofRequests_eq]
    exact hmsg
  · have h1 := congrArg Window.active hwin'
    have h2 := congrArg Window.waiting hwin'
    simp only [window, Window.start] at h1 h2
    rw [h1, h2]
    show ([] ++ _ : List T).Perm _
    rw [List.take_append_drop]
    exact List.Perm.refl _

/-- The state after `n` rounds of the main loop. -/
def runAfter (activity : Nat → Activity T) (c : CURLMultipleTransfer T) (n : Nat) : RunState T :=
  Loops.rounds (fun t => round (activity t)) 0 n c.runStart

theorem runAfter_succ (activity : Nat → Activity T) (c : CURLMultipleTransfer T) (n : Nat) :
    c.runAfter activity (n + 1) = round (activity n) (c.runAfter activity n) := by
  show round (activity (0 + n)) _ = _
  rw [Nat.zero_add]
  rfl

/-- The state seen as a window over the requests. -/
structure Refines (keys : List T) (s : RunState T) (w : Window T) : Prop where
  inv : RunInv keys s
  window : s.transfer.window = w

omit [DecidableEq T] in
theorem Refines.keys_eq_active {keys : List T} {s : RunState T} {w : Window T} (h : Refines keys s w) :
    s.transfer.cm.keys = w.active := congrArg Window.active h.window

omit [DecidableEq T] in
theorem Refines.requests_eq_nil {keys : List T} {s : RunState T} {w : Window T} (h : Refines keys s w) :
    s.transfer.requests = [] ↔ w.active = [] := by
  rw [← h.keys_eq_active, ← h.inv.requestKeys, requestKeys, List.map_eq_nil_iff]

omit [DecidableEq T] in
theorem Refines.pending_eq_nil {keys : List T} {s : RunState T} {w : Window T} (h : Refines keys s w) :
    s.transfer.pending = [] ↔ w.waiting = [] := by
  rw [← h.window]
  show _ ↔ s.transfer.pending.map Prod.fst = []
  rw [List.map_eq_nil_iff]

theorem runAfter_refines (parallel : Nat) {requests : List (T × List Char)}
    (hkeys : (requests.map Prod.fst).Nodup) (activity : Nat → Activity T) (n : Nat) :
    Refines (requests.map Prod.fst) ((ofRequests parallel requests).runAfter activity n)
      ((Window.start parallel (requests.map Prod.fst)).after (fun t => (activity t).finishedKeys) n) := by
  induction n with
  | zero =>
    obtain ⟨hinv, hwin⟩ := runStart_spec parallel hkeys
    exact ⟨hinv, hwin⟩
  | succ n ih =>
    obtain ⟨hinv, hwin, -⟩ := round_spec hkeys (activity n) ih.inv
    rw [runAfter_succ, Window.after_succ]
    exact ⟨hinv, by rw [hwin, ih.window]⟩

theorem runAfter_isRunning (parallel : Nat) {requests : List (T × List Char)}
    (hkeys : (requests.map Prod.fst).Nodup) (activity : Nat → Activity T) (n : Nat) :
    ((ofRequests parallel requests).runAfter activity (n + 1)).isRunning = 0 ↔
      ∀ k ∈ ((Window.start parallel (requests.map Prod.fst)).after (fun t => (activity t).finishedKeys) n).active,
        k ∈ (activity n).finishedKeys := by
  have h := runAfter_refines parallel hkeys activity n
  rw [runAfter_succ, (round_spec hkeys (activity n) h.inv).2.2, h.window]

omit [DecidableEq T] in
theorem runCond_eq_false (s : RunState T) : runCond s = false ↔ s.isRunning = 0 ∨ s.transfer.requests = [] := by
  unfold runCond
  cases s.transfer.requests with
  | nil => simp
  | cons r rs => simp

/-- What `run` promises: one result for every added key, and nothing left to do. -/
def Complete (requests : List (T × List Char)) (out : List (T × CURLResult) × CURLMultipleTransfer T) : Prop :=
  (out.1.map Prod.fst).Perm (requests.map Prod.fst) ∧ out.2.pending = [] ∧ out.2.requests = []

instance (requests : List (T × List Char)) (out : List (T × CURLResult) × CURLMultipleTransfer T) :
    Decidable (Complete requests out) := inferInstanceAs (Decidable (_ ∧ _ ∧ _))

/-- A round that ends all transfers in progress ends the loop, with one more request in progress if some wait. -/
private theorem neverDrained_of_complete {parallel : Nat} {requests : List (T × List Char)}
    (hkeys : (requests.map Prod.fst).Nodup) {activity : Nat → Activity T} {fuel : Nat}
    {out : List (T × CURLResult) × CURLMultipleTransfer T}
    (hrun : (ofRequests parallel requests).run activity fuel = some out) (hout : Complete requests out) :
    (Window.start parallel (requests.map Prod.fst)).NeverDrained fun t => (activity t).finishedKeys := by
  intro t hall
  obtain ⟨s, hloop, rfl⟩ := Option.map_eq_some_iff.1 hrun
  obtain ⟨n, rfl, -, hgo⟩ := Loops.rounds_of_whileLoop fuel hloop
  have hn := runAfter_refines parallel hkeys activity n
  have hwait := hn.pending_eq_nil.1 hout.2.1
  have hact := hn.requests_eq_nil.1 hout.2.2
  by_cases htn : t < n
  · -- the condition fails after round `t`, so `t` is the last round
    have hstop : runCond ((ofRequests parallel requests).runAfter activity (t + 1)) = false :=
      (runCond_eq_false _).2 (.inl ((runAfter_isRunning parallel hkeys activity t).2 hall))
    have hlast : n = t + 1 := by
      by_contra hne
      have hcond : runCond ((ofRequests parallel requests).runAfter activity (t + 1)) = true :=
        hgo (t + 1) (by omega)
      rw [hstop] at hcond
      cases hcond
    rw [hlast, Window.after_succ] at hact
    have htake := (List.append_eq_nil_iff.1 hact).2
    simpa using htake
  · -- the loop has ended before round `t`, and nothing waits from its end on
    rw [Window.waiting_after] at hwait ⊢
    have := List.drop_eq_nil_iff.1 hwait
    exact List.drop_eq_nil_of_le (by omega)

private theorem complete_of_neverDrained {parallel : Nat} (hparallel : 1 ≤ parallel)
    {requests : List (T × List Char)} (hkeys : (requests.map Prod.fst).Nodup) {activity : Nat → Activity T}
    (hfair : ∀ k ∈ requests.map Prod.fst, ∀ t, ∃ t' ≥ t, k ∈ (activity t').finishedKeys)
    (hnever : (Window.start parallel (requests.map Prod.fst)).NeverDrained fun t => (activity t).finishedKeys) :
    ∃ fuel out, (ofRequests parallel requests).run activity fuel = some out ∧ Complete requests out := by
  have hvalid := Window.valid_start hparallel (requests.map Prod.fst)
  obtain ⟨m, hm⟩ := Window.exists_size_eq_zero hvalid hfair
  have hend : runCond ((ofRequests parallel requests).runAfter activity m) = false := by
    apply (runCond_eq_false _).2
    right
    apply (runAfter_refines parallel hkeys activity m).requests_eq_nil.2
    apply List.eq_nil_of_length_eq_zero
    unfold Window.size at hm
    omega
  have hend' : ∃ n, runCond (Loops.rounds (fun t => round (activity t)) 0 n (ofRequests parallel requests).runStart)
      = false := ⟨m, hend⟩
  obtain ⟨n, hstop, hloop⟩ := Loops.whileLoop_exists hend'
  have hn := runAfter_refines parallel hkeys activity n
  -- at the end of the loop the window is empty
  have hempty : ((Window.start parallel (requests.map Prod.fst)).after (fun t => (activity t).finishedKeys) n).active
      = [] := by
    rcases (runCond_eq_false _).1 hstop with hzero | hnil
    · cases n with
      | zero => cases hzero
      | succ n =>
        have hall := (runAfter_isRunning parallel hkeys activity n).1 hzero
        rw [Window.after_succ]
        show List.filter _ _ ++ List.take 1 _ = []
        rw [hnever n hall, List.append_eq_nil_iff, List.filter_eq_nil_iff]
        exact ⟨fun k hk => by simpa using hall k hk, rfl⟩
    · exact hn.requests_eq_nil.1 hnil
  have hwait := (Window.valid_after hvalid (fun t => (activity t).finishedKeys) n).filled hempty
  refine ⟨n + 1, _, by rw [run, hloop]; rfl, ?_, hn.pending_eq_nil.2 hwait, hn.requests_eq_nil.2 hempty⟩
  have hperm := hn.inv.perm
  rw [hn.keys_eq_active, hempty, hn.pending_eq_nil.2 hwait] at hperm
  simp only [List.map_nil, List.append_nil] at hperm
  exact hperm

/-- When all transfers finish, `run` returns one result for every key exactly when no round ends all transfers in
progress while further requests wait. -/
theorem run_complete_iff {parallel : Nat} (hparallel : 1 ≤ parallel) {requests : List (T × List Char)}
    (hkeys : (requests.map Prod.fst).Nodup) {activity : Nat → Activity T}
    (hfair : ∀ k ∈ requests.map Prod.fst, ∀ t, ∃ t' ≥ t, k ∈ (activity t').finishedKeys) :
    (∃ fuel out, (ofRequests parallel requests).run activity fuel = some out ∧ Complete requests out) ↔
      (Window.start parallel (requests.map Prod.fst)).NeverDrained fun t => (activity t).finishedKeys := by
  constructor
  · rintro ⟨fuel, out, hrun, hout⟩
    exact neverDrained_of_complete hkeys hrun hout
  · exact complete_of_neverDrained hparallel hkeys hfair

/-- An activity in which both of two transfers finish at once. -/
def finishBoth : Activity Nat := ⟨fun _ => [], [⟨0, true, [], 200⟩, ⟨1, true, [], 200⟩]⟩

/-- Two transfers at a time finish two requests. -/
theorem run_complete_two : ∃ fuel out,
    (ofRequests 2 [(0, "a".toList), (1, "b".toList)]).run (fun _ => finishBoth) fuel = some out ∧
      Complete [(0, "a".toList), (1, "b".toList)] out := by
  apply (run_complete_iff (by decide) (by decide) ?_).2
  · intro t _
    rw [Window.waiting_after]
    cases t <;> rfl
  · intro k hk t
    exact ⟨t, le_refl t, hk⟩

/-- One transfer at a time does not finish two requests, although each finishes in its first round. -/
theorem run_incomplete_one :
    (∀ k ∈ [0, 1], ∀ t, ∃ t' ≥ t, k ∈ ((fun _ => finishBoth : Nat → Activity Nat) t').finishedKeys) ∧
    ¬ ∃ fuel out, (ofRequests 1 [(0, "a".toList), (1, "b".toList)]).run (fun _ => finishBoth) fuel = some out ∧
      Complete [(0, "a".toList), (1, "b".toList)] out := by
  refine ⟨fun k hk t => ⟨t, le_refl t, hk⟩, ?_⟩
  rintro ⟨fuel, out, hrun, hout⟩
  have hfuel : ∀ fuel, (ofRequests 1 [(0, "a".toList), (1, "b".toList)]).run (fun _ => finishBoth) (fuel + 2) =
      (ofRequests 1 [(0, "a".toList), (1, "b".toList)]).run (fun _ => finishBoth) 2 := fun _ => rfl
  match fuel, hrun with
  | fuel + 2, hrun =>
    rw [hfuel] at hrun
    obtain rfl := Option.some.inj hrun
    exact absurd hout (by decide)

/-- No request waits when they all fit into the window. -/
theorem run_complete_of_length_le {parallel : Nat} (hparallel : 1 ≤ parallel) {requests : List (T × List Char)}
    (hkeys : (requests.map Prod.fst).Nodup) (hlen : requests.length ≤ parallel) {activity : Nat → Activity T}
    (hfair : ∀ k ∈ requests.map Prod.fst, ∀ t, ∃ t' ≥ t, k ∈ (activity t').finishedKeys) :
    ∃ fuel out, (ofRequests parallel requests).run activity fuel = some out ∧ Complete requests out := by
  apply complete_of_neverDrained hparallel hkeys hfair
  intro t _
  rw [Window.waiting_after]
  apply List.drop_eq_nil_of_le
  simp [Window.start]
  omega

end CURLMultipleTransfer

end R4R
