import HardLog.Host.EventText

/-! # The kernel's building functions with HardLog's patch

The entry points of `audit.c` test `hardlog_active` and go to the functions of `hl-logger.c` or to
the native ones, which append to the skb. `audit_log_format` and `audit_log_n_untrustedstring` go
one way or the other. `audit_log_n_hex` and `audit_log_n_string` do not return behind the call of
HardLog's function, so that the native code runs too; and `audit_log_n_string` calls the function
for hex digits. `always_same_text_iff` says for which sequences of calls both ways build one text. -/

namespace HardLog.Host.Kaudit

open HardLog.Lib.Runs HardLog.Host.Event HardLog.Host.EventBounds HardLog.Host.EventText

/-- `struct audit_buffer` with the text in its skb. -/
structure AuditRecord where
  ab : AuditBuffer
  skb : List UInt8

/-- The `n` bytes that a pointer points to. -/
def bytesAt (p : ℤ → UInt8) (n : ℕ) : List UInt8 := (List.range n).map fun i : ℕ => p i

/-- A byte for which a string is written in hex: a double quote, or not printable. -/
def isControl (b : UInt8) : Bool := b == 34 || b < 0x21 || 0x7e < b

/-- `audit_string_contains_control`. -/
def auditStringContainsControl (string : ℤ → UInt8) (len : UInt64) : Bool :=
  (bytesAt string len.toNat).any isControl

/-- What `audit_log_start` leaves, up to its first `audit_log_format`; `ab` is the new
`audit_buffer`, the fields that HardLog has added to which are not initialised. -/
def auditLogStart (active : Bool) (ab : AuditBuffer) (alloc : Option (ℤ → UInt8)) : AuditRecord :=
  ⟨if active then auditLogStartHardlog ab alloc else ab, []⟩

/-- `audit_log_format`, with the rendering of the format. -/
def auditLogFormat (active : Bool) (r : AuditRecord) (text : List UInt8) : AuditRecord :=
  if active then { r with ab := auditLogFormatHardlog r.ab text }
  else { r with skb := r.skb ++ text }

/-- `audit_log_n_hex`. The native code runs in any case. -/
def auditLogNHex (active : Bool) (r : AuditRecord) (buf : ℤ → UInt8) (len : UInt64) : AuditRecord :=
  { ab := if active then auditLogNHexHardlog r.ab buf len else r.ab
    skb := r.skb ++ hexText buf (hexRounds len.toNat) }

/-- `audit_log_n_string`. HardLog's function for hex digits is called, and the native code runs in
any case. -/
def auditLogNString (active : Bool) (r : AuditRecord) (string : ℤ → UInt8) (slen : UInt64) :
    AuditRecord :=
  { ab := if active then auditLogNHexHardlog r.ab string slen else r.ab
    skb := r.skb ++ 34 :: bytesAt string slen.toNat ++ [34] }

/-- `audit_log_n_untrustedstring`. The flag is read once more by the function that is called on the
native way, as `active'`. -/
def auditLogNUntrustedstring (active active' : Bool) (r : AuditRecord) (string : ℤ → UInt8)
    (len : UInt64) : AuditRecord :=
  if active then
    if auditStringContainsControl string len then
      { r with ab := auditLogNHexHardlog r.ab string len }
    else { r with ab := auditLogNStringHardlog r.ab (fun i => string i) len }
  else if auditStringContainsControl string len then auditLogNHex active' r string len
  else auditLogNString active' r string len

/-- The calls of other kernel code that build a record. -/
inductive KCall where
  | format (text : List UInt8)
  | nHex (buf : ℤ → UInt8) (len : UInt64)
  | nString (string : ℤ → UInt8) (slen : UInt64)
  | nUntrustedstring (string : ℤ → UInt8) (len : UInt64)

/-- A call, with `hardlog_active` as it is throughout. -/
def KCall.run (active : Bool) (r : AuditRecord) : KCall → AuditRecord
  | .format text => auditLogFormat active r text
  | .nHex buf len => auditLogNHex active r buf len
  | .nString string slen => auditLogNString active r string slen
  | .nUntrustedstring string len => auditLogNUntrustedstring active active r string len

/-! ### One record built both ways -/

/-- The record as it is built with HardLog active, and as it is built without. -/
structure Twins where
  hardlog : AuditRecord
  native : AuditRecord

/-- The same call on both. -/
def twinStep (t : Twins) (c : KCall) : Option Twins :=
  some ⟨c.run true t.hardlog, c.run false t.native⟩

/-- The event buffer holds the text of the native skb. -/
def Agrees (t : Twins) : Prop := eventText t.hardlog.ab = t.native.skb

/-- The record at `audit_log_start`. -/
def twinStart (ab : AuditBuffer) (garbage : ℤ → UInt8) : Twins :=
  ⟨auditLogStart true ab (some garbage), auditLogStart false ab none⟩

/-- The call of HardLog's functions that would do what a call does natively. -/
def KCall.native : KCall → Call
  | .format text => .format text
  | .nHex buf len => .nHex buf len
  | .nString string slen => .nString (fun i => string i) slen
  | .nUntrustedstring string len =>
    if auditStringContainsControl string len then .nHex string len
    else .nString (fun i => string i) len

/-- A call is not `audit_log_n_string`, and its text fits behind what is there. -/
def Faithful (t : Twins) (c : KCall) : Prop :=
  (∀ string slen, c ≠ .nString string slen) ∧ Takes t.native.skb.length c.native

theorem skb_run_native (r : AuditRecord) (c : KCall) :
    (c.run false r).skb = r.skb ++ callText c.native := by
  cases c with
  | format text => rfl
  | nHex buf len => rfl
  | nString string slen => simp [KCall.run, auditLogNString, KCall.native, callText, bytesAt]
  | nUntrustedstring string len =>
    simp only [KCall.run, auditLogNUntrustedstring, KCall.native]
    cases auditStringContainsControl string len
    · simp [auditLogNString, callText, bytesAt]
    · rfl

theorem ab_run_hardlog (r : AuditRecord) {c : KCall} (h : ∀ string slen, c ≠ .nString string slen) :
    (c.run true r).ab = c.native.run r.ab := by
  cases c with
  | format text => rfl
  | nHex buf len => rfl
  | nString string slen => exact absurd rfl (h string slen)
  | nUntrustedstring string len =>
    simp only [KCall.run, auditLogNUntrustedstring, KCall.native]
    cases auditStringContainsControl string len <;> rfl

theorem hexAscUpper_ne_quote {d : UInt8} (h : d < 16) : hexAscUpper d ≠ 34 := by
  have hall : ∀ d : Fin 16, hexAscUpper (UInt8.ofNat d) ≠ 34 := by decide
  have := hall ⟨d.toNat, UInt8.lt_iff_toNat_lt.mp h⟩
  rwa [UInt8.ofNat_toNat] at this

theorem hexText_ne_quoted (buf : ℤ → UInt8) (n : ℕ) (l : List UInt8) : hexText buf n ≠ 34 :: l := by
  cases n with
  | zero => simp [hexText]
  | succ n =>
    intro h
    have hhead := congrArg List.head? h
    rw [hexText, List.range_succ_eq_map] at hhead
    simp only [List.flatMap_cons, hexBytePackUpper, List.cons_append, List.head?_cons,
      Option.some.injEq] at hhead
    refine hexAscUpper_ne_quote ?_ hhead
    rw [UInt8.lt_iff_toNat_lt, UInt8.toNat_div]
    have := (buf (HardLog.Lib.CInt.int32 (0 : ℕ))).toNat_lt
    exact Nat.div_lt_of_lt_mul this

section Step

variable {t : Twins} {b : EventBuffer} (hI : Inv t.hardlog.ab b)
include hI

theorem nString_ne (ha : Agrees t) (string : ℤ → UInt8) (slen : UInt64) :
    eventText (auditLogNHexHardlog t.hardlog.ab string slen) ≠
      t.native.skb ++ 34 :: bytesAt string slen.toNat ++ [34] := by
  intro h
  have h0 := hI.nonneg
  have h1 := hI.le
  have h64 := slen.toNat_lt
  have hlen := length_eventText hI.buffer
  by_cases ht : Takes t.hardlog.ab.hardlogEventConsumed.toNat (.nHex string slen)
  · have hrun := eventText_run hI ht
    rw [Call.run, h, ha, List.append_assoc] at hrun
    exact hexText_ne_quoted _ _ _ (List.append_cancel_left hrun).symm
  · have hne := length_eventText_run hI (.nHex string slen)
    rw [Call.run, h, hI.inRange.nHexHardlog_spec, ← ha] at hne
    simp only [Takes, callText, callLimit, length_hexText, not_or] at ht
    simp only [List.length_append, List.length_cons, List.length_nil, bytesAt, List.length_map,
      List.length_range, hlen, apply_ite AuditBuffer.hardlogEventConsumed, HardLog.Lib.CInt.int32]
      at hne
    unfold hexRounds at ht
    split_ifs at ht hne <;> omega

theorem agrees_run_iff (ha : Agrees t) (c : KCall) :
    Agrees ⟨c.run true t.hardlog, c.run false t.native⟩ ↔ Faithful t c := by
  have hlen : t.hardlog.ab.hardlogEventConsumed.toNat = t.native.skb.length := by
    rw [← length_eventText hI.buffer, ha]
  by_cases hc : ∀ string slen, c ≠ .nString string slen
  · unfold Agrees Faithful
    rw [ab_run_hardlog _ hc, skb_run_native, ← ha, eventText_run_iff hI, hlen, ha,
      and_iff_right hc]
  · refine iff_of_false ?_ fun hf => hc hf.1
    simp only [not_forall, not_not] at hc
    obtain ⟨string, slen, rfl⟩ := hc
    exact nString_ne hI ha string slen

end Step

/-- **The two ways to build a record**: after every call of a sequence the event buffer holds the text
of the native skb exactly if no call is `audit_log_n_string` and the text of each fits. -/
theorem always_same_text_iff (ab : AuditBuffer) (garbage : ℤ → UInt8) (calls : List KCall) :
    Always twinStep Agrees (twinStart ab garbage) calls ↔
      EachStep twinStep Faithful (twinStart ab garbage) calls := by
  refine always_iff_eachStep (I := fun t => (∃ b, Inv t.hardlog.ab b) ∧ Agrees t) ?_ ?_ calls
    ⟨⟨_, start_inv ab garbage⟩, rfl⟩ rfl
  · rintro t c t' ⟨⟨b, hI⟩, ha⟩ hs ha'
    obtain rfl := Option.some.inj hs
    obtain ⟨hc, htakes⟩ := (agrees_run_iff hI ha c).mp ha'
    refine ⟨?_, ha'⟩
    rw [← ha, length_eventText hI.buffer] at htakes
    change ∃ b, Inv (c.run true t.hardlog).ab b
    rw [ab_run_hardlog _ hc]
    exact inv_run hI htakes
  · rintro t c t' ⟨⟨b, hI⟩, ha⟩ hs
    obtain rfl := Option.some.inj hs
    exact agrees_run_iff hI ha c

/-- `audit_log_n_string` of `abc` adds `616263` to the event buffer, and `"abc"` to the skb. -/
theorem n_string_abc_disagrees :
    ¬ Always twinStep Agrees (twinStart ⟨none, none, 0⟩ fun _ => 0)
      [.nString (fun i => UInt8.ofNat (97 + i.toNat)) 3] := by
  rintro ⟨-, h⟩
  have htext : eventText _ = _ := h _ rfl
  exact absurd htext (by decide)

end HardLog.Host.Kaudit
