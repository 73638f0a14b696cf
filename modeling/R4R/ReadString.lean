import Mathlib.Data.List.TakeWhile
import Mathlib.Data.Nat.Bitwise
import R4R.ProcessTracer

/-!
# Strings of a tracee

`SyscallMonitor::read_string_from_process` copies a string out of the memory of a tracee, in requests that should not
cross a page boundary.  The size of a request is computed from the address of the string and the size of the buffer,
so that all requests have the size of the first one, wherever they start and however much room is left.
-/

namespace R4R

open SyscallMonitor

def EPERM : Errno := 1
def EFAULT : Errno := 14

/-- The answer of `process_vm_readv` to a request for `n` bytes. -/
inductive ReadAnswer (n : Nat) where
  | failed (errno : Errno)
  | read (bytes : List UInt8) (h : bytes.length ≤ n)

/-- The answers to the requests, by their number, address and size. -/
abbrev ReadAnswers := Nat → UInt64 → (n : UInt64) → ReadAnswer n.toNat

inductive ReadFailure where
  | systemError (errno : Errno) (message : String)
  /-- the kernel has written behind the end of the buffer -/
  | overflow
  | outOfFuel
deriving DecidableEq

/-- A turn of the loop: it ends with a result, or goes on with the bytes read so far. -/
inductive ReadTurn where
  | done (result : Except ReadFailure (List UInt8))
  | next (bytes : List UInt8)

/-- The requests, each with the bytes read before and the bytes asked for, and the result. -/
structure ReadRun where
  requests : List (Nat × Nat)
  result : Except ReadFailure (List UInt8)

/-- The size of a request. -/
def readNext (pageSize addr maxLen : UInt64) : UInt64 :=
  let next := if maxLen > pageSize then pageSize else maxLen
  let pageOffset := (addr + next) &&& (pageSize - 1)
  if next > pageOffset then next - pageOffset else next

def readTurn (maxLen : UInt64) (bytes : List UInt8) {n : Nat} : ReadAnswer n → ReadTurn
  | .failed errno =>
    if errno = EPERM then .done (.error (.systemError errno "process_vm_readv"))
    else if errno = EFAULT then .done (.ok bytes)
    else .done (.error (.systemError errno "process_vm_readv"))
  | .read more _ =>
    if maxLen.toNat < bytes.length + more.length then .done (.error .overflow)
    else if 0 ∈ more then .done (.ok (bytes ++ more.takeWhile (· != 0)))
    else if more.length ≠ n then .done (.ok (bytes ++ more))
    else .next (bytes ++ more)

def readLoop (answers : ReadAnswers) (addr maxLen next : UInt64) : Nat → Nat → List UInt8 → ReadRun
  | 0, _, _ => ⟨[], .error .outOfFuel⟩
  | fuel + 1, i, bytes =>
    if bytes.length < maxLen.toNat then
      match readTurn maxLen bytes (answers i (addr + .ofNat bytes.length) next) with
      | .done result => ⟨[(bytes.length, next.toNat)], result⟩
      | .next bytes' =>
        let run := readLoop answers addr maxLen next fuel (i + 1) bytes'
        ⟨(bytes.length, next.toNat) :: run.requests, run.result⟩
    else ⟨[], .ok bytes⟩

/-- `SyscallMonitor::read_string_from_process`. -/
def readStringFromProcess (answers : ReadAnswers) (pageSize addr maxLen : UInt64) : ReadRun :=
  if maxLen = 0 then ⟨[], .ok []⟩
  else readLoop answers addr maxLen (readNext pageSize addr maxLen) (maxLen.toNat + 1) 0 []

/-! ### The size of the requests -/

/-- What is left of the page of an address, or the buffer if it is smaller. -/
def chunk (pageSize addr maxLen : UInt64) : Nat :=
  min maxLen.toNat (pageSize.toNat - addr.toNat % pageSize.toNat)

/-- Page sizes. -/
def IsPageSize (pageSize : UInt64) : Prop := ∃ k, pageSize.toNat = 2 ^ k

section Chunk

variable {pageSize addr maxLen : UInt64}

private theorem IsPageSize.pos (h : IsPageSize pageSize) : 0 < pageSize.toNat := by
  obtain ⟨k, hk⟩ := h
  rw [hk]
  exact Nat.two_pow_pos k

/-- Addresses wrap at a page boundary. -/
theorem IsPageSize.dvd (h : IsPageSize pageSize) : pageSize.toNat ∣ 2 ^ 64 := by
  obtain ⟨k, hk⟩ := h
  have hlt : 2 ^ k < 2 ^ 64 := hk ▸ pageSize.toNat_lt
  rw [hk]
  exact Nat.pow_dvd_pow 2 ((Nat.pow_lt_pow_iff_right (by decide)).1 hlt).le

private theorem IsPageSize.and_mask (h : IsPageSize pageSize) (n : UInt64) :
    (n &&& (pageSize - 1)).toNat = n.toNat % pageSize.toNat := by
  have hpos := h.pos
  obtain ⟨k, hk⟩ := h
  have hle : (1 : UInt64) ≤ pageSize := UInt64.le_iff_toNat_le.2 hpos
  rw [UInt64.toNat_and, UInt64.toNat_sub_of_le _ _ hle, hk]
  exact Nat.and_two_pow_sub_one_eq_mod _ k

theorem chunk_pos (hpage : IsPageSize pageSize) (hlen : 0 < maxLen.toNat) : 0 < chunk pageSize addr maxLen := by
  have hmod := Nat.mod_lt addr.toNat hpage.pos
  exact Nat.lt_min.2 ⟨hlen, by omega⟩

theorem chunk_le : chunk pageSize addr maxLen ≤ maxLen.toNat := Nat.min_le_left ..

private theorem sub_offset_eq {page addr len : Nat} (hpage : 0 < page) :
    (if (addr + min len page) % page < min len page then min len page - (addr + min len page) % page
      else min len page) = min len (page - addr % page) := by
  have haddr := Nat.mod_lt addr hpage
  have hsum : (addr + min len page) % page = (addr % page + min len page) % page := by rw [Nat.mod_add_mod]
  have hlow : addr % page + min len page < page →
      (addr % page + min len page) % page = addr % page + min len page := Nat.mod_eq_of_lt
  have hhigh : page ≤ addr % page + min len page →
      (addr % page + min len page) % page = addr % page + min len page - page := by
    intro h
    rw [Nat.mod_eq_sub_mod h, Nat.mod_eq_of_lt (by omega)]
  rw [hsum]
  rcases Nat.lt_or_ge (addr % page + min len page) page with h | h
  · rw [hlow h]
    split <;> omega
  · rw [hhigh h]
    split <;> omega

/-- The loop asks for the rest of the page of the address every time. -/
theorem readNext_toNat (hpage : IsPageSize pageSize) :
    (readNext pageSize addr maxLen).toNat = chunk pageSize addr maxLen := by
  have hnext : (if maxLen > pageSize then pageSize else maxLen).toNat = min maxLen.toNat pageSize.toNat := by
    split
    · rename_i h
      exact (Nat.min_eq_right (UInt64.lt_iff_toNat_lt.1 h).le).symm
    · rename_i h
      exact (Nat.min_eq_left (Nat.le_of_not_lt fun hlt => h (UInt64.lt_iff_toNat_lt.2 hlt))).symm
  have hoffset : ∀ n : UInt64, ((addr + n) &&& (pageSize - 1)).toNat = (addr.toNat + n.toNat) % pageSize.toNat := by
    intro n
    rw [hpage.and_mask, UInt64.toNat_add, Nat.mod_mod_of_dvd _ hpage.dvd]
  rw [chunk, ← sub_offset_eq hpage.pos, ← hnext, ← hoffset]
  unfold readNext
  generalize (if maxLen > pageSize then pageSize else maxLen) = next
  by_cases h : next > (addr + next) &&& (pageSize - 1)
  · rw [if_pos h, if_pos (UInt64.lt_iff_toNat_lt.1 h)]
    exact UInt64.toNat_sub_of_le _ _ (UInt64.le_of_lt h)
  · rw [if_neg h, if_neg fun hlt => h (UInt64.lt_iff_toNat_lt.2 hlt)]

private theorem readNext_eq (hpage : IsPageSize pageSize) :
    readNext pageSize addr maxLen = .ofNat (chunk pageSize addr maxLen) := by
  rw [← readNext_toNat hpage, UInt64.ofNat_toNat]

end Chunk

/-! ### Turns of the loop -/

/-- The answer transfers all bytes that are asked for, and no NUL is among them. -/
def ReadAnswer.isFull {n : Nat} : ReadAnswer n → Bool
  | .failed _ => false
  | .read bytes _ => bytes.length == n && !bytes.contains 0

/-- The run asks for no byte outside of the buffer, and the string fits into it. -/
structure ReadRun.WithinBuffer (maxLen : UInt64) (run : ReadRun) : Prop where
  requests : ∀ r ∈ run.requests, r.1 + r.2 ≤ maxLen.toNat
  result : ∀ bytes, run.result = .ok bytes → bytes.length ≤ maxLen.toNat

section Turn

variable {maxLen : UInt64} {bytes : List UInt8} {n : Nat} {a : ReadAnswer n}

/-- The ways in which a turn ends after a transfer. -/
theorem readTurn_read (more : List UInt8) (h : more.length ≤ n) :
    maxLen.toNat < bytes.length + more.length ∧
      readTurn maxLen bytes (.read more h) = .done (.error .overflow) ∨
    bytes.length + more.length ≤ maxLen.toNat ∧ 0 ∈ more ∧
      readTurn maxLen bytes (.read more h) = .done (.ok (bytes ++ more.takeWhile (· != 0))) ∨
    bytes.length + more.length ≤ maxLen.toNat ∧ 0 ∉ more ∧ more.length ≠ n ∧
      readTurn maxLen bytes (.read more h) = .done (.ok (bytes ++ more)) ∨
    bytes.length + more.length ≤ maxLen.toNat ∧ 0 ∉ more ∧ more.length = n ∧
      readTurn maxLen bytes (.read more h) = .next (bytes ++ more) := by
  simp only [readTurn]
  by_cases hover : maxLen.toNat < bytes.length + more.length
  · exact .inl ⟨hover, if_pos hover⟩
  · have hle := Nat.le_of_not_lt hover
    rw [if_neg hover]
    by_cases hnul : 0 ∈ more
    · exact .inr (.inl ⟨hle, hnul, if_pos hnul⟩)
    · rw [if_neg hnul]
      by_cases hlen : more.length = n
      · exact .inr (.inr (.inr ⟨hle, hnul, hlen, if_neg (not_not.2 hlen)⟩))
      · exact .inr (.inr (.inl ⟨hle, hnul, hlen, if_pos hlen⟩))

private theorem readTurn_failed (errno : Errno) : ∃ result,
    readTurn maxLen bytes (.failed errno : ReadAnswer n) = .done result ∧
    (result = .ok bytes ∨ result = .error (.systemError errno "process_vm_readv")) := by
  by_cases hperm : errno = EPERM
  · exact ⟨_, if_pos hperm, .inr rfl⟩
  · by_cases hfault : errno = EFAULT
    · exact ⟨_, (if_neg hperm).trans (if_pos hfault), .inl rfl⟩
    · exact ⟨_, (if_neg hperm).trans (if_neg hfault), .inr rfl⟩

/-- The loop goes on after a full answer. -/
private theorem readTurn_next {bytes' : List UInt8} (h : readTurn maxLen bytes a = .next bytes') :
    a.isFull = true ∧ bytes'.length = bytes.length + n ∧ bytes'.length ≤ maxLen.toNat := by
  cases a with
  | failed errno =>
    obtain ⟨result, hturn, -⟩ := @readTurn_failed maxLen bytes n errno
    rw [hturn] at h
    cases h
  | read more hmore =>
    rcases @readTurn_read maxLen bytes n more hmore with
      ⟨-, hturn⟩ | ⟨-, -, hturn⟩ | ⟨-, -, -, hturn⟩ | ⟨hle, hnul, hlen, hturn⟩
    all_goals
      rw [hturn] at h
      cases h
    rw [List.length_append]
    exact ⟨by simp [ReadAnswer.isFull, hlen, hnul], by rw [hlen], hle⟩

/-- A full answer that fits into the buffer lets the loop go on. -/
private theorem readTurn_of_full (ha : a.isFull = true) (hle : bytes.length + n ≤ maxLen.toNat) :
    ∃ more, more.length = n ∧ readTurn maxLen bytes a = .next (bytes ++ more) := by
  cases a with
  | failed errno => cases ha
  | read more hmore =>
    simp only [ReadAnswer.isFull, Bool.and_eq_true, beq_iff_eq, Bool.not_eq_true', List.contains_eq_mem,
      decide_eq_false_iff_not] at ha
    obtain ⟨hlen, hnul⟩ := ha
    rcases @readTurn_read maxLen bytes n more hmore with
      ⟨hover, -⟩ | ⟨-, hnul', -⟩ | ⟨-, -, hlen', -⟩ | ⟨-, -, -, hturn⟩
    · omega
    · exact absurd hnul' hnul
    · exact absurd hlen hlen'
    · exact ⟨more, hlen, hturn⟩

/-- A string that fits into the buffer, or an error of the loop. -/
def FitsIn (maxLen : UInt64) : Except ReadFailure (List UInt8) → Prop
  | .ok bytes => bytes.length ≤ maxLen.toNat
  | .error e => e ≠ .outOfFuel

private theorem readTurn_done {result : Except ReadFailure (List UInt8)} (h : readTurn maxLen bytes a = .done result)
    (hbytes : bytes.length ≤ maxLen.toNat) : FitsIn maxLen result := by
  cases a with
  | failed errno =>
    obtain ⟨result', hturn, hresult⟩ := @readTurn_failed maxLen bytes n errno
    rw [hturn] at h
    cases h
    rcases hresult with rfl | rfl
    · exact hbytes
    · exact nofun
  | read more hmore =>
    rcases @readTurn_read maxLen bytes n more hmore with
      ⟨-, hturn⟩ | ⟨hle, -, hturn⟩ | ⟨hle, -, -, hturn⟩ | ⟨-, -, -, hturn⟩
    all_goals
      rw [hturn] at h
      cases h
    · exact nofun
    · refine le_trans ?_ hle
      rw [List.length_append]
      exact Nat.add_le_add_left (List.takeWhile_prefix _).length_le _
    · rw [← List.length_append] at hle
      exact hle

end Turn

/-! ### The loop -/

section Loop

variable {answers : ReadAnswers} {addr maxLen next : UInt64}

theorem readLoop_done {fuel i : Nat} {bytes : List UInt8} {result : Except ReadFailure (List UInt8)}
    (hlt : bytes.length < maxLen.toNat)
    (h : readTurn maxLen bytes (answers i (addr + .ofNat bytes.length) next) = .done result) :
    readLoop answers addr maxLen next (fuel + 1) i bytes = ⟨[(bytes.length, next.toNat)], result⟩ := by
  rw [readLoop, if_pos hlt, h]

theorem readLoop_next {fuel i : Nat} {bytes bytes' : List UInt8} (hlt : bytes.length < maxLen.toNat)
    (h : readTurn maxLen bytes (answers i (addr + .ofNat bytes.length) next) = .next bytes') :
    readLoop answers addr maxLen next (fuel + 1) i bytes =
      ⟨(bytes.length, next.toNat) :: (readLoop answers addr maxLen next fuel (i + 1) bytes').requests,
        (readLoop answers addr maxLen next fuel (i + 1) bytes').result⟩ := by
  rw [readLoop, if_pos hlt, h]

/-- The loop comes to an end, and its string fits into the buffer. -/
private theorem readLoop_result (hnext : 0 < next.toNat) : ∀ (fuel i : Nat) (bytes : List UInt8),
    bytes.length ≤ maxLen.toNat → maxLen.toNat - bytes.length < fuel →
    FitsIn maxLen (readLoop answers addr maxLen next fuel i bytes).result := by
  intro fuel
  induction fuel with
  | zero => exact fun i bytes _ h => absurd h (Nat.not_lt_zero _)
  | succ fuel ih =>
    intro i bytes hbytes hfuel
    unfold readLoop
    split
    · split
      · rename_i result hturn
        exact readTurn_done hturn hbytes
      · rename_i bytes' hturn
        obtain ⟨-, hlen, hle⟩ := readTurn_next hturn
        exact ih (i + 1) bytes' hle (by omega)
    · exact hbytes

/-- The answer to request `i` of a run in which all requests before it are answered in full. -/
def fullAnswer (answers : ReadAnswers) (addr next : UInt64) (i : Nat) : Bool :=
  (answers i (addr + .ofNat (i * next.toNat)) next).isFull

/-- The requests stay in the buffer when they come out even, or when one of those that fit is the last. -/
private theorem requests_le_iff (hnext : 0 < next.toNat) : ∀ (d i : Nat) (bytes : List UInt8) (fuel : Nat),
    i + d = maxLen.toNat / next.toNat → bytes.length = i * next.toNat → d < fuel →
    ((∀ r ∈ (readLoop answers addr maxLen next fuel i bytes).requests, r.1 + r.2 ≤ maxLen.toNat) ↔
      next.toNat ∣ maxLen.toNat ∨
        ∃ j, i ≤ j ∧ j < maxLen.toNat / next.toNat ∧ fullAnswer answers addr next j = false) := by
  have hdiv := Nat.div_add_mod maxLen.toNat next.toNat
  rw [Nat.mul_comm] at hdiv
  intro d
  induction d with
  | zero =>
    intro i bytes fuel hi hbytes hfuel
    obtain ⟨fuel, rfl⟩ := Nat.exists_eq_succ_of_ne_zero (Nat.ne_of_gt hfuel)
    rw [Nat.add_zero] at hi
    rw [← hi, ← hbytes] at hdiv
    have hnone : ¬ ∃ j, i ≤ j ∧ j < maxLen.toNat / next.toNat ∧ fullAnswer answers addr next j = false :=
      fun ⟨j, hle, hlt, _⟩ => absurd (hi ▸ hlt) (Nat.not_lt_of_ge hle)
    rw [or_iff_left hnone, Nat.dvd_iff_mod_eq_zero]
    unfold readLoop
    split
    · -- what is left of the buffer is smaller than a request
      rename_i hlt
      refine iff_of_false (fun hall => ?_) (by omega)
      have hmod := Nat.mod_lt maxLen.toNat hnext
      have hrequest : bytes.length + next.toNat ≤ maxLen.toNat := by
        split at hall
        · exact hall _ (List.mem_singleton_self _)
        · exact hall _ (List.mem_cons_self ..)
      omega
    · exact iff_of_true nofun (by omega)
  | succ d ih =>
    intro i bytes fuel hi hbytes hfuel
    obtain ⟨fuel, rfl⟩ := Nat.exists_eq_succ_of_ne_zero (Nat.ne_of_gt (Nat.zero_lt_of_lt hfuel))
    have hfit : bytes.length + next.toNat ≤ maxLen.toNat := by
      have hmul : (i + 1) * next.toNat ≤ maxLen.toNat / next.toNat * next.toNat :=
        Nat.mul_le_mul_right _ (by omega)
      rw [Nat.succ_mul] at hmul
      omega
    have hlt : bytes.length < maxLen.toNat := by omega
    cases hfull : fullAnswer answers addr next i with
    | true =>
      rw [fullAnswer, ← hbytes] at hfull
      obtain ⟨more, hlen, hturn⟩ := readTurn_of_full hfull hfit
      have hbytes' : (bytes ++ more).length = (i + 1) * next.toNat := by
        rw [List.length_append, hlen, hbytes, Nat.succ_mul]
      rw [readLoop_next hlt hturn, List.forall_mem_cons, and_iff_right hfit,
        ih (i + 1) (bytes ++ more) fuel (by omega) hbytes' (by omega)]
      refine or_congr_right ⟨?_, ?_⟩
      · rintro ⟨j, hj, h⟩
        exact ⟨j, by omega, h⟩
      · rintro ⟨j, hj, hjq, hnot⟩
        refine ⟨j, Nat.lt_of_le_of_ne hj ?_, hjq, hnot⟩
        rintro rfl
        rw [fullAnswer, ← hbytes, hfull] at hnot
        cases hnot
    | false =>
      refine iff_of_true ?_ (.inr ⟨i, le_rfl, by omega, hfull⟩)
      cases hturn : readTurn maxLen bytes (answers i (addr + .ofNat bytes.length) next) with
      | done result =>
        rw [readLoop_done hlt hturn]
        exact List.forall_mem_singleton.2 hfit
      | next bytes' =>
        rw [fullAnswer, ← hbytes, (readTurn_next hturn).1] at hfull
        cases hfull

end Loop

/-! ### The buffer -/

section Buffer

variable {pageSize addr maxLen : UInt64}

/-- The requests come out even, or one of those that fit into the buffer is not answered in full. -/
def StopsInBuffer (answers : ReadAnswers) (pageSize addr maxLen : UInt64) : Prop :=
  chunk pageSize addr maxLen ∣ maxLen.toNat ∨
    ∃ i < maxLen.toNat / chunk pageSize addr maxLen,
      fullAnswer answers addr (.ofNat (chunk pageSize addr maxLen)) i = false

/-- The loop stays in its buffer exactly when its requests come out even or one of those that fit is the last. -/
theorem withinBuffer_iff (answers : ReadAnswers) (hpage : IsPageSize pageSize) (hlen : 0 < maxLen) :
    (readStringFromProcess answers pageSize addr maxLen).WithinBuffer maxLen ↔
      StopsInBuffer answers pageSize addr maxLen := by
  have hlen' : 0 < maxLen.toNat := UInt64.lt_iff_toNat_lt.1 hlen
  have hnext : (UInt64.ofNat (chunk pageSize addr maxLen)).toNat = chunk pageSize addr maxLen := by
    rw [← readNext_eq hpage, readNext_toNat hpage]
  have hpos : 0 < (UInt64.ofNat (chunk pageSize addr maxLen)).toNat :=
    lt_of_lt_of_eq (chunk_pos hpage hlen') hnext.symm
  have hresult := @readLoop_result answers addr maxLen _ hpos (maxLen.toNat + 1) 0 [] (Nat.zero_le _)
    (Nat.lt_succ_self _)
  have hrequests := @requests_le_iff answers addr maxLen _ hpos (maxLen.toNat / chunk pageSize addr maxLen) 0 []
    (maxLen.toNat + 1) (by rw [hnext, Nat.zero_add]) (Nat.zero_mul _).symm
    (Nat.lt_succ_of_le (Nat.div_le_self ..))
  simp only [hnext, Nat.zero_le, true_and] at hrequests
  rw [readStringFromProcess, if_neg (by rintro rfl; exact absurd hlen (by decide)), readNext_eq hpage]
  refine ⟨fun h => hrequests.1 h.requests, fun h => ⟨hrequests.2 h, fun bytes hbytes => ?_⟩⟩
  rw [hbytes] at hresult
  exact hresult

end Buffer

/-- Memory that holds `Hi` everywhere. -/
def greeting : ReadAnswers := fun _ _ n => if h : 3 ≤ n.toNat then .read [72, 105, 0] h else .failed EFAULT

theorem withinBuffer_greeting : (readStringFromProcess greeting 4096 0x7f0000000064 4096).WithinBuffer 4096 :=
  (withinBuffer_iff greeting ⟨12, rfl⟩ (by decide)).2 (.inr ⟨0, by decide, by decide⟩)

/-- Memory that holds no NUL. -/
def noNul : ReadAnswers := fun _ _ n => .read (List.replicate n.toNat 97) (List.length_replicate ..).le

/-- The second request asks for 3996 bytes where 100 are left. -/
theorem not_withinBuffer_noNul :
    (readStringFromProcess noNul 4096 0x7f0000000064 4096).requests = [(0, 3996), (3996, 3996)] ∧
    ¬ (readStringFromProcess noNul 4096 0x7f0000000064 4096).WithinBuffer 4096 := by
  have hrequests : (readStringFromProcess noNul 4096 0x7f0000000064 4096).requests = [(0, 3996), (3996, 3996)] := by
    decide +kernel
  refine ⟨hrequests, fun h => ?_⟩
  have hle := h.requests (3996, 3996) (by rw [hrequests]; decide)
  exact absurd hle (by decide)

end R4R
