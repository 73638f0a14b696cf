import R4R.CurlRun

/-!
# The data of parallel transfers

Which data `run` returns for which key.  The chunks of several transfers come in one stream of calls of
`write_callback`, and the results of those that finish are collected between them.  However the transfers interleave,
the response for a key is what was received for it from its start to its end, in this order, and nothing else
(`run_delivers`).
-/

namespace R4R

namespace Window

variable {T : Type*} [DecidableEq T]

private theorem nodup_round (finished : List T) {w : Window T} (hw : (w.active ++ w.waiting).Nodup) :
    ((w.round finished).active ++ (w.round finished).waiting).Nodup := by
  have hsplit : w.active.filter (· ∉ finished) ++ w.waiting.take 1 ++ w.waiting.drop 1 =
      w.active.filter (· ∉ finished) ++ w.waiting := by
    rw [List.append_assoc, List.take_append_drop]
  show (w.active.filter (· ∉ finished) ++ w.waiting.take 1 ++ w.waiting.drop 1).Nodup
  rw [hsplit]
  exact hw.sublist (List.filter_sublist.append_right _)

private theorem nodup_after (finished : Nat → List T) {w : Window T} (hw : (w.active ++ w.waiting).Nodup) (n : Nat) :
    ((w.after finished n).active ++ (w.after finished n).waiting).Nodup :=
  Loops.rounds_invariant (P := fun w : Window T => (w.active ++ w.waiting).Nodup) (fun _ _ => nodup_round _) 0 n hw

/-- A key that waits was not in progress before. -/
private theorem notMem_active_of_waiting {finished : Nat → List T} {w : Window T} (hw : (w.active ++ w.waiting).Nodup)
    {k : T} {t n : Nat} (hk : k ∈ (w.after finished n).waiting) (htn : t ≤ n) : k ∉ (w.after finished t).active := by
  intro hactive
  have hwait : k ∈ (w.after finished t).waiting := by
    rw [waiting_after] at hk ⊢
    have hdrop : w.waiting.drop n = (w.waiting.drop t).drop (n - t) := by
      rw [List.drop_drop]
      congr 1
      omega
    rw [hdrop] at hk
    exact List.mem_of_mem_drop hk
  exact (List.nodup_append.1 (nodup_after finished hw t)).2.2 k hactive k hwait rfl

/-- A key that has finished is not in progress again. -/
private theorem notMem_active_of_finished {finished : Nat → List T} {w : Window T} (hw : (w.active ++ w.waiting).Nodup)
    {k : T} {t : Nat} (hk : k ∈ (w.after finished t).active) (hf : k ∈ finished t) (n : Nat) :
    k ∉ (w.after finished (t + 1 + n)).active ∧ k ∉ (w.after finished (t + 1 + n)).waiting := by
  induction n with
  | zero =>
    have hnot : k ∉ (w.after finished t).waiting := fun hwait =>
      (List.nodup_append.1 (nodup_after finished hw t)).2.2 k hk k hwait rfl
    rw [Nat.add_zero, after_succ]
    refine ⟨fun hmem => ?_, fun hmem => hnot (List.mem_of_mem_drop hmem)⟩
    rcases List.mem_append.1 hmem with hmem | hmem
    · simp [hf] at hmem
    · exact hnot (List.mem_of_mem_take hmem)
  | succ n ih =>
    rw [← Nat.add_assoc, after_succ]
    refine ⟨fun hmem => ?_, fun hmem => ih.2 (List.mem_of_mem_drop hmem)⟩
    rcases List.mem_append.1 hmem with hmem | hmem
    · exact ih.1 (List.mem_of_mem_filter hmem)
    · exact ih.2 (List.mem_of_mem_take hmem)

/-- What is received for a key in the first `n` rounds, while its transfer is in progress. -/
def transcript (activity : Nat → Activity T) (w : Window T) (k : T) (n : Nat) : List Char :=
  (List.range n).flatMap fun t =>
    if k ∈ (w.after (fun t => (activity t).finishedKeys) t).active then (activity t).received k else []

private theorem transcript_succ (activity : Nat → Activity T) (w : Window T) (k : T) (n : Nat) :
    w.transcript activity k (n + 1) = w.transcript activity k n ++
      if k ∈ (w.after (fun t => (activity t).finishedKeys) n).active then (activity n).received k else [] := by
  rw [transcript, List.range_succ, List.flatMap_append, ← transcript]
  simp

/-- Nothing is received for a key that waits. -/
private theorem transcript_of_waiting {activity : Nat → Activity T} {w : Window T} (hw : (w.active ++ w.waiting).Nodup)
    {k : T} {n : Nat} (hk : k ∈ (w.after (fun t => (activity t).finishedKeys) n).waiting) :
    w.transcript activity k (n + 1) = [] := by
  refine List.flatMap_eq_nil_iff.2 fun t ht => if_neg ?_
  have hle : t ≤ n := Nat.le_of_lt_succ (List.mem_range.1 ht)
  exact notMem_active_of_waiting hw hk hle

end Window

namespace CURLM

variable {T : Type*} [DecidableEq T]

/-- The messages that are queued are the first ones about the transfers that are running. -/
private theorem messages_foldl_finish (msgs : List (CURLMsg T)) : ∀ m : CURLM T, ∀ msg ∈ (msgs.foldl finish m).messages,
    msg ∈ m.messages ∨ msg.easyHandle ∈ m.keys ∧ msgs.find? (·.easyHandle = msg.easyHandle) = some msg := by
  induction msgs with
  | nil => exact fun m msg hmsg => .inl hmsg
  | cons first msgs ih =>
    intro m msg hmsg
    rw [List.foldl_cons] at hmsg
    rcases ih (m.finish first) msg hmsg with hmsg | ⟨hkey, hfind⟩
    · by_cases hrun : first.easyHandle ∈ m.running.map (·.request)
      · rw [finish, if_pos hrun] at hmsg
        rcases List.mem_append.1 hmsg with hmsg | hmsg
        · exact .inl hmsg
        · obtain rfl := List.mem_singleton.1 hmsg
          exact .inr ⟨hrun, by simp⟩
      · rw [finish, if_neg hrun] at hmsg
        exact .inl hmsg
    · rw [keys_finish] at hkey
      obtain ⟨hkey, hne⟩ := List.mem_filter.1 hkey
      have hne : first.easyHandle ≠ msg.easyHandle := fun heq => by simp [heq] at hne
      exact .inr ⟨hkey, by rw [List.find?_cons_of_neg (by simpa using hne)]; exact hfind⟩

end CURLM

namespace CURLMultipleTransfer

variable {T : Type*} [DecidableEq T]

private theorem handleMessage_mem (s : RunState T) (msg : CURLMsg T) :
    (∀ req ∈ (handleMessage s msg).transfer.requests, req ∈ s.transfer.requests) ∧
      ∀ e ∈ (handleMessage s msg).results, e ∈ s.results ∨
        ∃ req ∈ s.transfer.requests, req.key = msg.easyHandle ∧ e = (req.key, processCurlMessage msg req) := by
  unfold handleMessage
  cases hfind : s.transfer.requests.find? (·.key = msg.easyHandle) with
  | none => exact ⟨fun req hreq => hreq, fun e he => .inl he⟩
  | some req =>
    refine ⟨fun req hreq => List.mem_of_mem_filter hreq, fun e he => ?_⟩
    rcases Emplace.mem_emplace.1 he with he | ⟨rfl, -⟩
    · exact .inl he
    · exact .inr ⟨req, List.mem_of_find?_eq_some hfind, by simpa using List.find?_some hfind, rfl⟩

private theorem foldl_handleMessage_mem (msgs : List (CURLMsg T)) : ∀ s : RunState T,
    (∀ req ∈ (msgs.foldl handleMessage s).transfer.requests, req ∈ s.transfer.requests) ∧
      ∀ e ∈ (msgs.foldl handleMessage s).results, e ∈ s.results ∨
        ∃ msg ∈ msgs, ∃ req ∈ s.transfer.requests, req.key = msg.easyHandle ∧
          e = (req.key, processCurlMessage msg req) := by
  induction msgs with
  | nil => exact fun s => ⟨fun req hreq => hreq, fun e he => .inl he⟩
  | cons msg msgs ih =>
    intro s
    obtain ⟨hreqs, hres⟩ := handleMessage_mem s msg
    obtain ⟨hreqs', hres'⟩ := ih (handleMessage s msg)
    refine ⟨fun req hreq => hreqs req (hreqs' req hreq), fun e he => ?_⟩
    rcases hres' e he with he | ⟨msg', hmsg', req, hreq, hkey, rfl⟩
    · rcases hres e he with he | ⟨req, hreq, hkey, rfl⟩
      · exact .inl he
      · exact .inr ⟨msg, List.mem_cons_self .., req, hreq, hkey, rfl⟩
    · exact .inr ⟨msg', List.mem_cons_of_mem msg hmsg', req, hreqs req hreq, hkey, rfl⟩

/-! ### The responses -/

/-- What a transfer returns that is in progress when round `t` ends it. -/
structure Delivered (activity : Nat → Activity T) (w : Window T) (k : T) (res : CURLResult) (t : Nat) : Prop where
  active : k ∈ (w.after (fun t => (activity t).finishedKeys) t).active
  result : ∃ msg, (activity t).finished.find? (·.easyHandle = k) = some msg ∧
    res = processCurlMessage msg ⟨k, w.transcript activity k (t + 1)⟩

private theorem Delivered.finished {activity : Nat → Activity T} {w : Window T} {k : T} {res : CURLResult} {t : Nat}
    (h : Delivered activity w k res t) : k ∈ (activity t).finishedKeys := by
  obtain ⟨msg, hfind, -⟩ := h.result
  have hkey : msg.easyHandle = k := by simpa using List.find?_some hfind
  exact hkey ▸ List.mem_map_of_mem (List.mem_of_find?_eq_some hfind)

/-- A transfer returns once. -/
theorem Delivered.unique {activity : Nat → Activity T} {w : Window T} (hw : (w.active ++ w.waiting).Nodup) {k : T}
    {res res' : CURLResult} {t t' : Nat} (h : Delivered activity w k res t) (h' : Delivered activity w k res' t') :
    t = t' ∧ res = res' := by
  have hnot : ∀ {t t' : Nat} {res res' : CURLResult}, Delivered activity w k res t → Delivered activity w k res' t' →
      ¬ t < t' := by
    intro t t' res res' h h' hlt
    obtain ⟨n, rfl⟩ := Nat.exists_eq_add_of_le hlt
    exact (Window.notMem_active_of_finished hw h.active h.finished n).1 h'.active
  obtain rfl : t = t' := by
    have h₁ := hnot h h'
    have h₂ := hnot h' h
    omega
  obtain ⟨msg, hfind, rfl⟩ := h.result
  obtain ⟨msg', hfind', rfl⟩ := h'.result
  rw [hfind] at hfind'
  obtain rfl := Option.some.inj hfind'
  exact ⟨rfl, rfl⟩

/-- The data after `n` rounds: each request has what came for it so far, and each result is that of its transfer. -/
structure Responses (activity : Nat → Activity T) (w : Window T) (n : Nat) (s : RunState T) : Prop where
  requests : ∀ req ∈ s.transfer.requests, req.response = w.transcript activity req.key n
  results : ∀ e ∈ s.results, ∃ t < n, Delivered activity w e.1 e.2 t

private theorem requests_fillLoop (rest : List (T × List Char)) : ∀ c : CURLMultipleTransfer T,
    (∀ req ∈ c.requests, req.response = []) → ∀ req ∈ (c.fillLoop rest).requests, req.response = [] := by
  induction rest with
  | nil => exact fun c hc => hc
  | cons r rest ih =>
    intro c hc
    unfold fillLoop
    by_cases hlt : c.requests.length < c.parallel
    · rw [if_pos hlt]
      refine ih _ fun req hreq => ?_
      rcases Emplace.mem_emplace.1 hreq with hreq | ⟨rfl, -⟩
      · exact hc req hreq
      · rfl
    · rw [if_neg hlt]
      exact hc

private theorem response_perform {activity : Nat → Activity T} {w : Window T} {n : Nat} {s : RunState T}
    (hactive : s.transfer.cm.keys = (w.after (fun t => (activity t).finishedKeys) n).active)
    (hs : ∀ req ∈ s.transfer.requests, req.response = w.transcript activity req.key n) :
    ∀ req ∈ (perform (activity n) s).transfer.requests, req.response = w.transcript activity req.key (n + 1) := by
  intro req hreq
  obtain ⟨r, hr, rfl⟩ := List.mem_map.1 hreq
  have hkeys : s.transfer.cm.running.map (·.request) = (w.after (fun t => (activity t).finishedKeys) n).active :=
    hactive
  rw [hkeys]
  by_cases hk : r.key ∈ (w.after (fun t => (activity t).finishedKeys) n).active
  · rw [if_pos hk]
    show r.response ++ (activity n).received r.key = w.transcript activity r.key (n + 1)
    rw [Window.transcript_succ, if_pos hk, hs r hr]
  · rw [if_neg hk, Window.transcript_succ, if_neg hk, hs r hr, List.append_nil]

/-- One round. -/
private theorem responses_round {keys : List T} (hkeys : keys.Nodup) {activity : Nat → Activity T} {w : Window T}
    (hw : (w.active ++ w.waiting).Nodup) {n : Nat} {s : RunState T}
    (href : Refines keys s (w.after (fun t => (activity t).finishedKeys) n)) (hs : Responses activity w n s) :
    Responses activity w (n + 1) (round (activity n) s) := by
  have hperform := response_perform href.keys_eq_active hs.requests
  obtain ⟨-, -, hpending, -⟩ := readMessages_perform_spec hkeys (activity n) href.inv
  have hread := foldl_handleMessage_mem (perform (activity n) s).transfer.cm.messages
    { perform (activity n) s with transfer := { (perform (activity n) s).transfer with
        cm := { (perform (activity n) s).transfer.cm with messages := [] } } }
  have hreads : Responses activity w (n + 1) (readMessages (perform (activity n) s)) := by
    refine ⟨fun req hreq => hperform req (hread.1 req hreq), fun e he => ?_⟩
    rcases hread.2 e he with he | ⟨msg, hmsg, req, hreq, hkey, rfl⟩
    · obtain ⟨t, ht, hdelivered⟩ := hs.results e he
      exact ⟨t, by omega, hdelivered⟩
    · rcases CURLM.messages_foldl_finish (activity n).finished s.transfer.cm msg hmsg with hold | ⟨hactive, hfind⟩
      · rw [href.inv.messages] at hold
        cases hold
      · have hresponse := hperform req hreq
        rw [href.keys_eq_active] at hactive
        rw [← hkey] at hactive hfind
        refine ⟨n, by omega, hactive, msg, hfind, ?_⟩
        rw [← hresponse]
  refine ⟨fun req hreq => ?_, fun e he => hreads.results e ?_⟩
  · unfold round refill at hreq
    cases hp : (readMessages (perform (activity n) s)).transfer.pending with
    | nil =>
      rw [hp] at hreq
      exact hreads.requests req hreq
    | cons r rest =>
      rw [hp] at hreq
      rcases Emplace.mem_emplace.1 hreq with hreq | ⟨rfl, -⟩
      · exact hreads.requests req hreq
      · -- the transfer that is started has waited up to this round
        have hwait : r.1 ∈ (w.after (fun t => (activity t).finishedKeys) n).waiting := by
          rw [← href.window]
          show r.1 ∈ s.transfer.pending.map Prod.fst
          rw [← hpending, hp]
          exact List.mem_map_of_mem (List.mem_cons_self ..)
        exact (Window.transcript_of_waiting hw hwait).symm
  · unfold round refill at he
    cases hp : (readMessages (perform (activity n) s)).transfer.pending with
    | nil =>
      rw [hp] at he
      exact he
    | cons r rest =>
      rw [hp] at he
      exact he

section Run

variable {parallel : Nat} {requests : List (T × List Char)} {activity : Nat → Activity T}

omit [DecidableEq T] in
private theorem nodup_start (hkeys : (requests.map Prod.fst).Nodup) :
    ((Window.start parallel (requests.map Prod.fst)).active ++
      (Window.start parallel (requests.map Prod.fst)).waiting).Nodup := by
  show ((requests.map Prod.fst).take parallel ++ (requests.map Prod.fst).drop parallel).Nodup
  rwa [List.take_append_drop]

private theorem responses_runAfter (hkeys : (requests.map Prod.fst).Nodup) (n : Nat) :
    Responses activity (Window.start parallel (requests.map Prod.fst)) n
      ((ofRequests parallel requests).runAfter activity n) := by
  induction n with
  | zero =>
    refine ⟨fun req hreq => ?_, fun e he => by cases he⟩
    have hempty : ∀ req ∈ (ofRequests parallel requests).requests, req.response = [] := by
      rw [ofRequests_eq]
      intro req hreq
      cases hreq
    exact requests_fillLoop _ _ hempty req hreq
  | succ n ih =>
    rw [runAfter_succ]
    exact responses_round hkeys (nodup_start hkeys) (runAfter_refines parallel hkeys activity n) ih

/-- When no round ends all transfers in progress while others wait, a run that ends has a result for every key. -/
theorem complete_of_run (hparallel : 1 ≤ parallel) (hkeys : (requests.map Prod.fst).Nodup)
    (hnever : (Window.start parallel (requests.map Prod.fst)).NeverDrained fun t => (activity t).finishedKeys)
    {fuel : Nat} {out : List (T × CURLResult) × CURLMultipleTransfer T}
    (hrun : (ofRequests parallel requests).run activity fuel = some out) : Complete requests out := by
  obtain ⟨s, hloop, rfl⟩ := Option.map_eq_some_iff.1 hrun
  obtain ⟨n, rfl, hstop, -⟩ := Loops.rounds_of_whileLoop fuel hloop
  have hn := runAfter_refines parallel hkeys activity n
  have hempty : ((Window.start parallel (requests.map Prod.fst)).after (fun t => (activity t).finishedKeys) n).active
      = [] := by
    rcases (runCond_eq_false _).1 hstop with hzero | hnil
    · cases n with
      | zero => cases hzero
      | succ n =>
        have hall := (runAfter_isRunning parallel hkeys activity n).1 hzero
        rw [Window.after_succ]
        show List.filter _ _ ++ List.take 1 _ = []
        rw [hnever n hall, List.append_eq_nil_iff, List.filter_eq_nil_iff]
        exact ⟨fun k hk => by simpa using hall k hk, rfl⟩
    · exact hn.requests_eq_nil.1 hnil
  have hvalid := Window.valid_start hparallel (requests.map Prod.fst)
  have hwait := (Window.valid_after hvalid (fun t => (activity t).finishedKeys) n).filled hempty
  refine ⟨?_, hn.pending_eq_nil.2 hwait, hn.requests_eq_nil.2 hempty⟩
  have hperm := hn.inv.perm
  rw [hn.keys_eq_active, hempty, hn.pending_eq_nil.2 hwait] at hperm
  simp only [List.map_nil, List.append_nil] at hperm
  exact hperm

theorem delivered_of_run (hkeys : (requests.map Prod.fst).Nodup) {fuel : Nat}
    {out : List (T × CURLResult) × CURLMultipleTransfer T}
    (hrun : (ofRequests parallel requests).run activity fuel = some out) (k : T) (res : CURLResult)
    (hmem : (k, res) ∈ out.1) : k ∈ requests.map Prod.fst ∧
      ∃ t, Delivered activity (Window.start parallel (requests.map Prod.fst)) k res t := by
  obtain ⟨s, hloop, rfl⟩ := Option.map_eq_some_iff.1 hrun
  obtain ⟨n, rfl, -, -⟩ := Loops.rounds_of_whileLoop fuel hloop
  have hperm := (runAfter_refines parallel hkeys activity n).inv.perm
  obtain ⟨t, -, hdelivered⟩ := (responses_runAfter hkeys n).results (k, res) hmem
  exact ⟨hperm.subset (List.mem_append_left _ (List.mem_map_of_mem hmem)), t, hdelivered⟩

/-- Whatever the network does, `run` returns at most one result for a key, and it is what its own transfer returns: the
first message about it, and the data received for it from its start to its end. -/
theorem run_delivers (hkeys : (requests.map Prod.fst).Nodup) {fuel : Nat}
    {out : List (T × CURLResult) × CURLMultipleTransfer T}
    (hrun : (ofRequests parallel requests).run activity fuel = some out) :
    (out.1.map Prod.fst).Nodup ∧ ∀ k res, (k, res) ∈ out.1 → k ∈ requests.map Prod.fst ∧
      ∃ t, Delivered activity (Window.start parallel (requests.map Prod.fst)) k res t ∧ ∀ t' res',
        Delivered activity (Window.start parallel (requests.map Prod.fst)) k res' t' → t' = t ∧ res' = res := by
  refine ⟨?_, fun k res hmem => ?_⟩
  · obtain ⟨s, hloop, rfl⟩ := Option.map_eq_some_iff.1 hrun
    obtain ⟨n, rfl, -, -⟩ := Loops.rounds_of_whileLoop fuel hloop
    exact (List.nodup_append.1 ((runAfter_refines parallel hkeys activity n).inv.perm.symm.nodup hkeys)).1
  · obtain ⟨hkey, t, hdelivered⟩ := delivered_of_run hkeys hrun k res hmem
    exact ⟨hkey, t, hdelivered, fun t' res' h' => h'.unique (nodup_start hkeys) hdelivered⟩

end Run

/-- Two transfers whose chunks come by turns. -/
def byTurns : Nat → Activity Nat
  | 0 => ⟨fun k => if k = 0 then "ab".toList else "xy".toList, []⟩
  | 1 => ⟨fun k => if k = 0 then "c".toList else [], [⟨0, true, [], 200⟩]⟩
  | _ => ⟨fun _ => "z".toList, [⟨1, true, [], 404⟩]⟩

theorem run_delivers_byTurns : ∃ out,
    (ofRequests 2 [(0, "a".toList), (1, "b".toList)]).run byTurns 4 = some out ∧
    out.1 = [(0, .http ⟨200, "abc".toList⟩), (1, .http ⟨404, "xyz".toList⟩)] ∧
    ∀ k res, (k, res) ∈ out.1 → ∃ t, Delivered byTurns (Window.start 2 [0, 1]) k res t := by
  obtain ⟨out, hrun, hout⟩ : ∃ out, (ofRequests 2 [(0, "a".toList), (1, "b".toList)]).run byTurns 4 = some out ∧
      out.1 = [(0, .http ⟨200, "abc".toList⟩), (1, .http ⟨404, "xyz".toList⟩)] := ⟨_, rfl, by decide⟩
  refine ⟨out, hrun, hout, fun k res hmem => ?_⟩
  obtain ⟨t, hdelivered, -⟩ := ((run_delivers (by decide) hrun).2 k res hmem).2
  exact ⟨t, hdelivered⟩

end CURLMultipleTransfer

end R4R
