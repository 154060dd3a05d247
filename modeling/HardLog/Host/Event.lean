import HardLog.Lib.CInt

/-! # Building an audit record

`struct audit_buffer` as HardLog uses it, and the functions of `hl-logger.c` that write into its
event buffer. An index is an integer, since `hardlog_event_consumed` is an `int`. The rendering of
a format and its arguments is the argument `text`; a pointer argument is a function from the offset
to the byte. A null `ab` returns at once in every one of these functions and is left out. -/

namespace HardLog.Host.Event

open HardLog.Lib.CInt

/-- `HARDLOG_AUDIT_EVENTSIZE`: the bytes allocated for an event. -/
def hardlogAuditEventsize : ℤ := 512

/-- `HARDLOG_AUDIT_BLOCKSIZE`: one byte less, for the newline. -/
def hardlogAuditBlocksize : ℤ := hardlogAuditEventsize - 1

/-- The memory from the start of `hardlog_event_buffer` on, before and behind the allocation
included. `written` and `accesses` record what the event did: the indices it has written, and the
ranges `[lo, hi)` it has read or written. -/
structure EventBuffer where
  byte : ℤ → UInt8
  written : ℤ → Bool
  accesses : List (ℤ × ℤ)

/-- The part of `struct audit_context` that HardLog reads: the syscall number. -/
structure AuditContext where
  major : ℤ

/-- `struct audit_buffer`; a null pointer is `none`. -/
structure AuditBuffer where
  ctx : Option AuditContext
  hardlogEventBuffer : Option EventBuffer
  hardlogEventConsumed : ℤ

/-! ### Memory accesses -/

/-- A write of `src` at `off`. -/
def EventBuffer.store (b : EventBuffer) (off : ℤ) (src : List UInt8) : EventBuffer where
  byte i := if off ≤ i ∧ i < off + src.length then src.getD (i - off).toNat 0 else b.byte i
  written i := b.written i || decide (off ≤ i ∧ i < off + src.length)
  accesses := (off, off + src.length) :: b.accesses

/-- A read of the indices `[lo, hi)`. -/
def EventBuffer.load (b : EventBuffer) (lo hi : ℤ) : EventBuffer :=
  { b with accesses := (lo, hi) :: b.accesses }

/-- `strlen` of the event buffer: the bytes before its first NUL. The scan is followed as far as
the allocation reaches, so that the length is `512` if it holds no NUL. -/
def EventBuffer.strlen (b : EventBuffer) : ℕ :=
  ((List.range 512).takeWhile fun i : ℕ => b.byte i != 0).length

/-- The kernel's `vsnprintf` of a rendering at `off`, and its return value: nothing is written for a
size above `INT_MAX` or of `0`, else as much as fits with a NUL behind it. -/
def EventBuffer.vsnprintf (b : EventBuffer) (off : ℤ) (size : ℕ) (text : List UInt8) :
    EventBuffer × ℤ :=
  if intMax < size then (b, 0)
  else if size = 0 then (b, int32 text.length)
  else (b.store off (text.take (size - 1) ++ [0]), int32 text.length)

/-! ### The building functions -/

/-- `audit_log_start_hardlog`, with the memory the allocator returned. -/
def auditLogStartHardlog (ab : AuditBuffer) (alloc : Option (ℤ → UInt8)) : AuditBuffer :=
  match alloc with
  | none => { ab with hardlogEventBuffer := none }
  | some garbage =>
    { ab with
      hardlogEventBuffer := some ⟨garbage, fun _ => false, []⟩
      hardlogEventConsumed := 0 }

/-- The space left in front of the byte kept for the newline. -/
def AuditBuffer.space (ab : AuditBuffer) : ℤ :=
  int32 (hardlogAuditBlocksize - ab.hardlogEventConsumed)

/-- `audit_log_format_hardlog`. -/
def auditLogFormatHardlog (ab : AuditBuffer) (text : List UInt8) : AuditBuffer :=
  match ab.hardlogEventBuffer with
  | none => ab
  | some b =>
    if ab.space ≤ 0 then ab
    else
      let r := b.vsnprintf ab.hardlogEventConsumed (u64 ab.space) text
      if r.2 < ab.space then
        { ab with
          hardlogEventBuffer := some r.1
          hardlogEventConsumed := int32 (ab.hardlogEventConsumed + r.2) }
      else
        -- the untruncated length goes into the sum
        { ab with
          hardlogEventBuffer := some r.1
          hardlogEventConsumed := int32 (ab.hardlogEventConsumed + int32 (r.2 - 10)) }

/-- `audit_log_n_string_hardlog`. The space left is compared as a `size_t` with `slen + 3`. -/
def auditLogNStringHardlog (ab : AuditBuffer) (string : ℕ → UInt8) (slen : UInt64) : AuditBuffer :=
  match ab.hardlogEventBuffer with
  | none => ab
  | some b =>
    if u64 ab.space < (slen.toNat + 3) % 2 ^ 64 then ab
    else
      { ab with
        hardlogEventBuffer := some (b.store ab.hardlogEventConsumed
          (34 :: (List.range slen.toNat).map string ++ [34, 0]))
        hardlogEventConsumed := int32 (ab.hardlogEventConsumed + (slen.toNat + 2)) }

/-- A digit of `hex_asc_upper`. -/
def hexAscUpper (d : UInt8) : UInt8 := if d < 10 then 48 + d else 55 + d

/-- `hex_byte_pack_upper`. -/
def hexBytePackUpper (x : UInt8) : List UInt8 := [hexAscUpper (x / 16), hexAscUpper (x % 16)]

/-- The digits of the first `n` bytes, the index of which is an `int`. -/
def hexText (buf : ℤ → UInt8) (n : ℕ) : List UInt8 :=
  (List.range n).flatMap fun i : ℕ => hexBytePackUpper (buf (int32 i))

/-- The rounds of `for (i = 0; i < len; i++)` with an `int i` that wraps and is compared as a
`size_t`. -/
def hexRounds (len : ℕ) : ℕ :=
  if len ≤ 2 ^ 31 then len
  else if len ≤ 2 ^ 64 - 2 ^ 31 then 2 ^ 31
  else 2 ^ 31 + (len - (2 ^ 64 - 2 ^ 31))

/-- `audit_log_n_hex_hardlog`. The space left is compared as a `size_t` with `len << 1`. -/
def auditLogNHexHardlog (ab : AuditBuffer) (buf : ℤ → UInt8) (len : UInt64) : AuditBuffer :=
  match ab.hardlogEventBuffer with
  | none => ab
  | some b =>
    if u64 ab.space < (2 * len.toNat) % 2 ^ 64 then ab
    else
      { ab with
        hardlogEventBuffer := some (b.store ab.hardlogEventConsumed
          (hexText buf (hexRounds len.toNat) ++ [0]))
        hardlogEventConsumed := int32 (ab.hardlogEventConsumed + 2 * len.toNat) }

/-- The calls that build a record. -/
inductive Call where
  | format (text : List UInt8)
  | nString (string : ℕ → UInt8) (slen : UInt64)
  | nHex (buf : ℤ → UInt8) (len : UInt64)

/-- The event after a call. -/
def Call.run (ab : AuditBuffer) : Call → AuditBuffer
  | .format text => auditLogFormatHardlog ab text
  | .nString string slen => auditLogNStringHardlog ab string slen
  | .nHex buf len => auditLogNHexHardlog ab buf len

/-! ### The end of a record: what `audit_log_end_hardlog` does before it takes the lock -/

/-- The event is not logged: no buffer, or `strlen` below 35. -/
def auditLogEndDrops (ab : AuditBuffer) : Bool :=
  match ab.hardlogEventBuffer with
  | none => true
  | some b => b.strlen < 35

/-- The scan by `strlen` and the newline appended by `snprintf`. -/
def auditLogEndNewline (ab : AuditBuffer) : AuditBuffer :=
  match ab.hardlogEventBuffer with
  | none => ab
  | some b =>
    let r := (b.load 0 (b.strlen + 1)).vsnprintf ab.hardlogEventConsumed (u64 ab.space) [10]
    { ab with
      hardlogEventBuffer := some r.1
      hardlogEventConsumed := int32 (ab.hardlogEventConsumed + r.2) }

/-- The number of bytes `memcpy` takes, and by which the head moves: the `int` as a `size_t`. -/
def AuditBuffer.recordLen (ab : AuditBuffer) : ℕ := u64 ab.hardlogEventConsumed

/-- The bytes copied into the ring. -/
def AuditBuffer.record (ab : AuditBuffer) : List UInt8 :=
  match ab.hardlogEventBuffer with
  | none => []
  | some b => (List.range ab.recordLen).map fun i : ℕ => b.byte i

/-! ### Small facts -/

@[simp] theorem load_written (b : EventBuffer) (lo hi : ℤ) : (b.load lo hi).written = b.written := rfl
@[simp] theorem load_accesses (b : EventBuffer) (lo hi : ℤ) :
    (b.load lo hi).accesses = (lo, hi) :: b.accesses := rfl

@[simp] theorem store_accesses (b : EventBuffer) (off : ℤ) (src : List UInt8) :
    (b.store off src).accesses = (off, off + src.length) :: b.accesses := rfl

theorem store_written (b : EventBuffer) (off : ℤ) (src : List UInt8) (i : ℤ) :
    (b.store off src).written i = true ↔
      b.written i = true ∨ (off ≤ i ∧ i < off + src.length) := by
  simp [EventBuffer.store]

theorem store_byte_of_lt (b : EventBuffer) {off i : ℤ} (src : List UInt8) (h : i < off) :
    (b.store off src).byte i = b.byte i := if_neg (by omega)

theorem store_byte_add (b : EventBuffer) (off : ℤ) {src : List UInt8} {j : ℕ} (h : j < src.length) :
    (b.store off src).byte (off + j) = src[j] := by
  have hidx : (off + (j : ℤ) - off).toNat = j := by omega
  simp only [EventBuffer.store]
  rw [if_pos (by omega), hidx, List.getD_eq_getElem?_getD, List.getElem?_eq_getElem h]
  rfl

@[simp] theorem length_hexText (buf : ℤ → UInt8) (n : ℕ) : (hexText buf n).length = 2 * n := by
  induction n with
  | zero => rfl
  | succ n ih =>
    unfold hexText at ih ⊢
    rw [List.range_succ, List.flatMap_append, List.length_append, ih]
    simp [hexBytePackUpper]; omega

theorem strlen_le (b : EventBuffer) : b.strlen ≤ 512 := by
  unfold EventBuffer.strlen
  exact (List.takeWhile_sublist _).length_le.trans (by simp)

theorem strlen_le_of_nul {b : EventBuffer} {i : ℕ} (h : b.byte i = 0) : b.strlen ≤ i := by
  unfold EventBuffer.strlen
  by_contra hlt
  have hlt' : i < ((List.range 512).takeWhile fun i : ℕ => b.byte i != 0).length := by omega
  have hget := (List.takeWhile_prefix fun i : ℕ => b.byte i != 0).getElem hlt'
  have hall := List.mem_takeWhile_imp (List.getElem_mem hlt')
  rw [hget] at hall
  simp [h] at hall

theorem le_strlen {b : EventBuffer} {n : ℕ} (hn : n ≤ 512) (h : ∀ i : ℕ, i < n → b.byte i ≠ 0) :
    n ≤ b.strlen := by
  obtain ⟨k, hk⟩ := Nat.exists_eq_add_of_le hn
  unfold EventBuffer.strlen
  rw [hk, List.range_add, List.takeWhile_append_of_pos (by simpa using h)]
  simp

theorem strlen_of_no_nul {b : EventBuffer} (h : ∀ i : ℕ, i < 512 → b.byte i ≠ 0) :
    b.strlen = 512 :=
  Nat.le_antisymm (strlen_le b) (le_strlen (Nat.le_refl 512) h)

theorem length_record {ab : AuditBuffer} {b : EventBuffer} (h : ab.hardlogEventBuffer = some b) :
    ab.record.length = ab.recordLen := by
  simp [AuditBuffer.record, h]

end HardLog.Host.Event
