import R4R.ReadString

/-!
# Strings in the memory of a tracee

What `read_string_from_process` returns for a tracee whose pages are readable or not: a request that touches an
unreadable page fails with `EFAULT`, any other is answered in full.  The string that is meant ends before the first
NUL, at the first unreadable page, or with the buffer.  Addresses count modulo `2 ^ 64`.
-/

namespace R4R

open SyscallMonitor

structure Memory (pageSize : UInt64) where
  /-- the byte at an address, none when its page is unreadable -/
  byte? : UInt64 → Option UInt8
  uniform : ∀ a b, a / pageSize = b / pageSize → (byte? a).isSome = (byte? b).isSome

namespace Memory

variable {pageSize : UInt64} (m : Memory pageSize)

/-- The bytes from an address on, none when one of them is unreadable. -/
def bytes (addr : UInt64) : Nat → Option (List UInt8)
  | 0 => some []
  | n + 1 => do
    let b ← m.byte? addr
    let bs ← bytes (addr + 1) n
    return b :: bs

private theorem bytes_succ {addr : UInt64} {n : Nat} {bs : List UInt8} (h : m.bytes addr (n + 1) = some bs) :
    ∃ b bs', m.byte? addr = some b ∧ m.bytes (addr + 1) n = some bs' ∧ bs = b :: bs' := by
  obtain ⟨b, hb, h⟩ := Option.bind_eq_some_iff.1 h
  obtain ⟨bs', hbs', h⟩ := Option.bind_eq_some_iff.1 h
  exact ⟨b, bs', hb, hbs', (Option.some.inj h).symm⟩

private theorem length_bytes
    {n : Nat} : ∀ {addr : UInt64} {bs : List UInt8}, m.bytes addr n = some bs → bs.length = n := by
  induction n with
  | zero =>
    intro addr bs h
    cases h
    rfl
  | succ n ih =>
    intro addr bs h
    obtain ⟨b, bs', -, hbs', rfl⟩ := m.bytes_succ h
    rw [List.length_cons, ih hbs']

/-- `process_vm_readv` of a stopped tracee. -/
def answers : ReadAnswers := fun _ addr n =>
  match h : m.bytes addr n.toNat with
  | none => .failed EFAULT
  | some bs => .read bs (m.length_bytes h).le

/-- The string at an address in a buffer of `n` bytes. -/
def textAt (addr : UInt64) : Nat → List UInt8
  | 0 => []
  | n + 1 =>
    match m.byte? addr with
    | none => []
    | some b => if b = 0 then [] else b :: textAt (addr + 1) n

/-- The string of a buffer with room for `room` bytes, when the requests are of `size` bytes: it fills the buffer and
the requests come out even, or the request that its end falls into is answered and fits, or it begins at the end. -/
def ReadsText (size : Nat) (addr : UInt64) (room : Nat) : Prop :=
  (m.textAt addr room).length = room ∧ size ∣ room ∨
  (m.textAt addr room).length < room ∧
    (if (m.bytes (addr + .ofNat ((m.textAt addr room).length / size * size)) size).isSome then
      ((m.textAt addr room).length / size + 1) * size ≤ room
    else (m.textAt addr room).length / size * size = (m.textAt addr room).length)

/-! ### The string and the requests -/

variable {m}

private theorem length_textAt (n : Nat) : ∀ addr, (m.textAt addr n).length ≤ n := by
  induction n with
  | zero => exact fun addr => le_rfl
  | succ n ih =>
    intro addr
    unfold textAt
    split
    · exact Nat.zero_le _
    · split
      · exact Nat.zero_le _
      · exact Nat.succ_le_succ (ih (addr + 1))

private theorem add_ofNat_succ (addr : UInt64) (n : Nat) : addr + .ofNat (n + 1) = addr + 1 + .ofNat n := by
  rw [UInt64.add_assoc, UInt64.ofNat_add, UInt64.add_comm (UInt64.ofNat n)]
  rfl

/-- The string goes on behind a byte that is not NUL. -/
private theorem textAt_succ {addr : UInt64} {b : UInt8} (hb : m.byte? addr = some b) (hnul : b ≠ 0) (room : Nat) :
    m.textAt addr (room + 1) = b :: m.textAt (addr + 1) room := by
  simp only [textAt, hb, if_neg hnul]

private theorem textAt_succ_nul {addr : UInt64} (hb : m.byte? addr = some 0) (room : Nat) :
    m.textAt addr (room + 1) = [] := by
  simp only [textAt, hb, if_true]

/-- The string goes on behind bytes without a NUL. -/
private theorem textAt_of_full (room : Nat) : ∀ {n : Nat} {addr : UInt64} {bs : List UInt8}, m.bytes addr n = some bs →
    0 ∉ bs → m.textAt addr (n + room) = bs ++ m.textAt (addr + .ofNat n) room := by
  intro n
  induction n with
  | zero =>
    intro addr bs h _
    cases h
    change m.textAt addr (0 + room) = m.textAt (addr + 0) room
    rw [Nat.zero_add, UInt64.add_zero]
  | succ n ih =>
    intro addr bs h hnul
    obtain ⟨b, bs', hb, hbs', rfl⟩ := m.bytes_succ h
    rw [List.mem_cons, not_or] at hnul
    rw [Nat.succ_add, textAt_succ hb (Ne.symm hnul.1), ih hbs' hnul.2, add_ofNat_succ, List.cons_append]

/-- The string ends at the first NUL of its bytes. -/
private theorem textAt_of_nul (room : Nat) : ∀ {n : Nat} {addr : UInt64} {bs : List UInt8}, m.bytes addr n = some bs →
    0 ∈ bs → m.textAt addr (n + room) = bs.takeWhile (· != 0) := by
  intro n
  induction n with
  | zero =>
    intro addr bs h hnul
    cases h
    cases hnul
  | succ n ih =>
    intro addr bs h hnul
    obtain ⟨b, bs', hb, hbs', rfl⟩ := m.bytes_succ h
    rw [Nat.succ_add]
    by_cases h0 : b = 0
    · subst h0
      rw [textAt_succ_nul hb, List.takeWhile_cons_of_neg (by decide)]
    · have hnul' : 0 ∈ bs' := (List.mem_cons.1 hnul).resolve_left (Ne.symm h0)
      rw [textAt_succ hb h0, ih hbs' hnul', List.takeWhile_cons_of_pos (by simpa using h0)]

/-- The string ends within bytes of which one is unreadable. -/
private theorem length_textAt_of_unreadable : ∀ {n : Nat} (room : Nat) {addr : UInt64}, m.bytes addr n = none →
    (m.textAt addr room).length < n := by
  intro n
  induction n with
  | zero =>
    intro room addr h
    cases h
  | succ n ih =>
    intro room addr h
    cases room with
    | zero => exact Nat.succ_pos n
    | succ room =>
      cases hb : m.byte? addr with
      | none =>
        simp only [textAt, hb]
        exact Nat.succ_pos n
      | some b =>
        by_cases h0 : b = 0
        · subst h0
          rw [textAt_succ_nul hb]
          exact Nat.succ_pos n
        · rw [textAt_succ hb h0]
          refine Nat.succ_lt_succ (ih room ?_)
          cases hbs : m.bytes (addr + 1) n with
          | none => rfl
          | some bs => simp [bytes, hb, hbs] at h

/-- A string that ends within the first request. -/
private theorem readsText_of_lt {size room : Nat} {addr : UInt64} (hlen : (m.textAt addr room).length < size)
    (hroom : 0 < room) : m.ReadsText size addr room ↔
      if (m.bytes addr size).isSome then size ≤ room else (m.textAt addr room).length = 0 := by
  have heven : ¬ ((m.textAt addr room).length = room ∧ size ∣ room) :=
    fun ⟨he, hdvd⟩ => absurd (Nat.le_of_dvd hroom hdvd) (by omega)
  have haddr : addr + .ofNat (0 * size) = addr := by
    rw [Nat.zero_mul]
    exact UInt64.add_zero addr
  rw [ReadsText, or_iff_right heven, Nat.div_eq_of_lt hlen, haddr, Nat.zero_add, Nat.one_mul, Nat.zero_mul]
  split
  · exact ⟨fun h => h.2, fun h => ⟨by omega, h⟩⟩
  · exact ⟨fun h => h.2.symm, fun h => ⟨by omega, h.symm⟩⟩

/-- A string that goes on behind the first request. -/
private theorem readsText_of_full {size room : Nat} {addr : UInt64} {bs : List UInt8} (hsize : 0 < size)
    (h : m.bytes addr size = some bs) (hnul : 0 ∉ bs) :
    m.ReadsText size addr (size + room) ↔ m.ReadsText size (addr + .ofNat size) room := by
  unfold ReadsText
  rw [textAt_of_full room h hnul, List.length_append, m.length_bytes h, Nat.add_div_left _ hsize,
    Nat.dvd_add_right (Nat.dvd_refl size), Nat.add_left_cancel_iff, Nat.add_lt_add_iff_left]
  generalize (m.textAt (addr + .ofNat size) room).length = length
  have haddr : addr + .ofNat ((length / size).succ * size) = addr + .ofNat size + .ofNat (length / size * size) := by
    rw [Nat.succ_mul, Nat.add_comm, UInt64.ofNat_add, UInt64.add_assoc]
  rw [haddr, Nat.succ_mul (length / size + 1), Nat.add_comm _ size, Nat.add_le_add_iff_left, Nat.succ_mul,
    Nat.add_comm _ size, Nat.add_left_cancel_iff]

private theorem answers_of_none {i : Nat} {addr n : UInt64} (h : m.bytes addr n.toNat = none) :
    m.answers i addr n = .failed EFAULT := by
  unfold answers
  split
  · rfl
  · rename_i bs hbs
    rw [h] at hbs
    cases hbs

private theorem answers_of_some {i : Nat} {addr n : UInt64} {bs : List UInt8} (h : m.bytes addr n.toNat = some bs) :
    m.answers i addr n = .read bs (m.length_bytes h).le := by
  unfold answers
  split
  · rename_i hbs
    rw [h] at hbs
    cases hbs
  · rename_i bs' hbs
    obtain rfl := Option.some.inj (h.symm.trans hbs)
    rfl

private theorem length_takeWhile_lt {bs : List UInt8} (h : 0 ∈ bs) : (bs.takeWhile (· != 0)).length < bs.length := by
  have hpre := List.takeWhile_prefix (l := bs) (· != 0)
  refine Nat.lt_of_le_of_ne hpre.length_le fun he => ?_
  have hall := List.takeWhile_eq_self_iff.1 (hpre.eq_of_length he) 0 h
  cases hall

/-- From any place on, the loop returns the string exactly when its requests read it. -/
private theorem readLoop_text_iff {addr maxLen next : UInt64} (hnext : 0 < next.toNat) :
    ∀ (fuel i : Nat) (bytes : List UInt8), bytes.length ≤ maxLen.toNat → maxLen.toNat - bytes.length < fuel →
    ((readLoop m.answers addr maxLen next fuel i bytes).result =
        .ok (bytes ++ m.textAt (addr + .ofNat bytes.length) (maxLen.toNat - bytes.length)) ↔
      m.ReadsText next.toNat (addr + .ofNat bytes.length) (maxLen.toNat - bytes.length)) := by
  intro fuel
  induction fuel with
  | zero => exact fun i bytes _ h => absurd h (Nat.not_lt_zero _)
  | succ fuel ih =>
    intro i bytes hle hfuel
    by_cases hlt : bytes.length < maxLen.toNat
    · cases hbytes : m.bytes (addr + .ofNat bytes.length) next.toNat with
      | none =>
        have hturn : readTurn maxLen bytes (m.answers i (addr + .ofNat bytes.length) next) = .done (.ok bytes) := by
          rw [answers_of_none hbytes]
          rfl
        rw [readLoop_done hlt hturn, readsText_of_lt (length_textAt_of_unreadable _ hbytes) (by omega), hbytes]
        simp
      | some bs =>
        have hlen := m.length_bytes hbytes
        have hsome : (m.bytes (addr + .ofNat bytes.length) next.toNat).isSome = true := by rw [hbytes]; rfl
        rcases @readTurn_read maxLen bytes next.toNat bs hlen.le with
          ⟨hover, hturn⟩ | ⟨hfit, hnul, hturn⟩ | ⟨-, -, hshort, hturn⟩ | ⟨hfit, hnul, -, hturn⟩
        all_goals rw [← answers_of_some (i := i) hbytes] at hturn
        · -- the kernel writes behind the end of the buffer
          have htext := length_textAt (m := m) (maxLen.toNat - bytes.length) (addr + .ofNat bytes.length)
          rw [readLoop_done hlt hturn, readsText_of_lt (by omega) (by omega), if_pos hsome]
          exact iff_of_false nofun (by omega)
        · obtain ⟨room, hroom⟩ := Nat.exists_eq_add_of_le (hlen ▸ Nat.le_sub_of_add_le' hfit)
          have htext := textAt_of_nul room hbytes hnul
          have hshort := length_takeWhile_lt hnul
          rw [readLoop_done hlt hturn, hroom, readsText_of_lt (by rw [htext]; omega) (by omega), htext,
            if_pos hsome]
          exact iff_of_true rfl (by omega)
        · exact absurd hlen hshort
        · obtain ⟨room, hroom⟩ := Nat.exists_eq_add_of_le (hlen ▸ Nat.le_sub_of_add_le' hfit)
          have hstart : addr + .ofNat (bytes ++ bs).length = addr + .ofNat bytes.length + .ofNat next.toNat := by
            rw [List.length_append, hlen, UInt64.ofNat_add, UInt64.add_assoc]
          have hleft : maxLen.toNat - (bytes ++ bs).length = room := by
            rw [List.length_append]
            omega
          rw [← List.length_append] at hfit
          have hnext' := ih (i + 1) (bytes ++ bs) hfit (by omega)
          rw [hleft, hstart] at hnext'
          rw [readLoop_next hlt hturn, hroom, textAt_of_full room hbytes hnul, ← List.append_assoc,
            readsText_of_full hnext hbytes hnul]
          exact hnext'
    · have hroom : maxLen.toNat - bytes.length = 0 := by omega
      rw [readLoop, if_neg hlt, hroom, textAt, List.append_nil]
      exact iff_of_true rfl (.inl ⟨rfl, Nat.dvd_zero _⟩)

/-! ### Runs -/

/-- `read_string_from_process` returns the string in the memory exactly when its requests read it. -/
theorem readStringFromProcess_iff (m : Memory pageSize) (hpage : IsPageSize pageSize) {addr maxLen : UInt64}
    (hlen : 0 < maxLen) :
    (readStringFromProcess m.answers pageSize addr maxLen).result = .ok (m.textAt addr maxLen.toNat) ↔
      m.ReadsText (chunk pageSize addr maxLen) addr maxLen.toNat := by
  have hlen' : 0 < maxLen.toNat := UInt64.lt_iff_toNat_lt.1 hlen
  have hpos : 0 < (readNext pageSize addr maxLen).toNat := by
    rw [readNext_toNat hpage]
    exact chunk_pos hpage hlen'
  have hloop := @readLoop_text_iff _ m addr maxLen _ hpos (maxLen.toNat + 1) 0 [] (Nat.zero_le _) (Nat.lt_succ_self _)
  have haddr : addr + .ofNat ([] : List UInt8).length = addr := UInt64.add_zero addr
  rw [haddr, List.nil_append, List.length_nil, Nat.sub_zero, readNext_toNat hpage] at hloop
  rw [readStringFromProcess, if_neg (by rintro rfl; exact absurd hlen (by decide))]
  exact hloop

/-! ### The first request -/

section First

variable {addr maxLen : UInt64}

/-- The addresses up to a page boundary. -/
private theorem page_add_ofNat (hpage : IsPageSize pageSize) {j : Nat}
    (hj : j < pageSize.toNat - addr.toNat % pageSize.toNat) :
    (addr + .ofNat j) / pageSize = addr / pageSize := by
  have hdiv := Nat.div_add_mod addr.toNat pageSize.toNat
  have hend : pageSize.toNat * (addr.toNat / pageSize.toNat) + pageSize.toNat ≤ 2 ^ 64 := by
    obtain ⟨pages, hpages⟩ := hpage.dvd
    have hlt := addr.toNat_lt
    rw [hpages] at hlt ⊢
    exact Nat.mul_le_mul_left _ (Nat.div_lt_of_lt_mul hlt)
  have hsmall := pageSize.toNat_lt
  have htoNat : (addr + .ofNat j).toNat = addr.toNat + j := by
    rw [UInt64.toNat_add, UInt64.toNat_ofNat', Nat.mod_eq_of_lt (a := j) (by omega), Nat.mod_eq_of_lt (by omega)]
  refine UInt64.toNat.inj ?_
  rw [UInt64.toNat_div, UInt64.toNat_div, htoNat]
  refine Nat.div_eq_of_lt_le ?_ ?_
  · rw [Nat.mul_comm]
    omega
  · rw [Nat.succ_mul, Nat.mul_comm]
    omega

private theorem isSome_bytes {start : UInt64} (hstart : (m.byte? start).isSome = true) : ∀ {n : Nat} {addr : UInt64},
    (∀ j < n, (addr + .ofNat j) / pageSize = start / pageSize) → (m.bytes addr n).isSome = true := by
  intro n
  induction n with
  | zero => exact fun _ => rfl
  | succ n ih =>
    intro addr h
    have haddr := h 0 (Nat.succ_pos n)
    rw [show addr + .ofNat 0 = addr from UInt64.add_zero addr] at haddr
    obtain ⟨b, hb⟩ := Option.isSome_iff_exists.1 ((m.uniform _ _ haddr).trans hstart)
    have hnext : ∀ j < n, (addr + 1 + .ofNat j) / pageSize = start / pageSize :=
      fun j hj => add_ofNat_succ addr j ▸ h (j + 1) (Nat.succ_lt_succ hj)
    obtain ⟨bs, hbs⟩ := Option.isSome_iff_exists.1 (ih hnext)
    simp [bytes, hb, hbs]

/-- A string that ends within the first request is read: the request stays in one page. -/
private theorem readsText_of_first (hpage : IsPageSize pageSize) (hlen : 0 < maxLen)
    (h : (m.textAt addr maxLen.toNat).length < chunk pageSize addr maxLen) :
    m.ReadsText (chunk pageSize addr maxLen) addr maxLen.toNat := by
  rw [readsText_of_lt h (UInt64.lt_iff_toNat_lt.1 hlen)]
  split
  · exact chunk_le
  · rename_i hnone
    cases hb : m.byte? addr with
    | none =>
      cases maxLen.toNat with
      | zero => rfl
      | succ n => simp only [textAt, hb, List.length_nil]
    | some b =>
      refine absurd (isSome_bytes (by rw [hb]; rfl) fun j hj => page_add_ofNat hpage ?_) hnone
      exact Nat.lt_of_lt_of_le hj (Nat.min_le_right ..)

end First

/-- Pages up to an address, with one NUL. -/
def below (page nul : UInt64) : Memory 4096 where
  byte? a := if a / 4096 < page then some (if a = nul then 0 else 97) else none
  uniform a b h := by
    rw [h]
    split <;> rfl

theorem readStringFromProcess_short :
    (readStringFromProcess (below 0x7f0000001 0x7f0000000066).answers 4096 0x7f0000000064 4096).result =
      .ok [97, 97] :=
  ((below 0x7f0000001 0x7f0000000066).readStringFromProcess_iff ⟨12, rfl⟩ (by decide)).2
    (readsText_of_first ⟨12, rfl⟩ (by decide) (by decide +kernel))

/-- The third request of 2050 bytes begins in a readable page, and the NUL lies there, but it goes on behind. -/
theorem not_read_straddling :
    ((below 0x7f0000002 0x7f000000180c).textAt 0x7f00000007fe 8192).length = 4110 ∧
    (readStringFromProcess (below 0x7f0000002 0x7f000000180c).answers 4096 0x7f00000007fe 8192).result ≠
      .ok ((below 0x7f0000002 0x7f000000180c).textAt 0x7f00000007fe 8192) := by
  have hlength : ((below 0x7f0000002 0x7f000000180c).textAt 0x7f00000007fe 8192).length = 4110 := by
    decide +kernel
  have hnone : ((below 0x7f0000002 0x7f000000180c).bytes (0x7f00000007fe + .ofNat 4100) 2050).isSome = false := by
    decide +kernel
  refine ⟨hlength, fun h => ?_⟩
  have hreads := ((below 0x7f0000002 0x7f000000180c).readStringFromProcess_iff ⟨12, rfl⟩ (by decide)).1 h
  have hchunk : chunk 4096 0x7f00000007fe 8192 = 2050 := rfl
  have hmax : (8192 : UInt64).toNat = 8192 := rfl
  have hbegin : 4110 / 2050 * 2050 = 4100 := rfl
  rw [hchunk, hmax, ReadsText, hlength, hbegin, hnone, if_neg (by decide)] at hreads
  exact absurd hreads (by decide)

end Memory

end R4R
