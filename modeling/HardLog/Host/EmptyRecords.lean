import HardLog.Host.Kaudit
import HardLog.Lib.Decimal

/-! # Records without a payload

`audit_log_end_hardlog` takes a record of fewer than 35 bytes for an empty one. The header that
`audit_log_start` writes has 14 bytes, or 7 in microlog mode, besides the digits of the seconds and
of the serial number, so a record with a short payload may be taken for an empty one, and an empty
one with many digits for one that is not. `front_run` follows the first 35 bytes of the event buffer
through any calls; `discardsOnlyEmpty_iff` says for which records the test is right. -/

namespace HardLog.Host.EmptyRecords

open HardLog.Lib.CInt HardLog.Lib.CString HardLog.Lib.Decimal HardLog.Host.Event
open HardLog.Host.EventBounds HardLog.Host.EventText HardLog.Host.Kaudit

/-! ### The record -/

/-- `struct timespec64`. -/
structure Timespec64 where
  tvSec : ℤ
  tvNsec : ℕ
  tvNsec_lt : tvNsec < 1000000000

/-- The rendering of `%03lu`. -/
def decimal3 (n : ℕ) : List UInt8 := List.replicate (3 - (decimal n).length) 48 ++ decimal n

/-- The header: `audit(%llu.%03lu:%u): `, or `%llu.%03lu:%u: ` in microlog mode. -/
def header (microlog : Bool) (t : Timespec64) (serial : UInt32) : List UInt8 :=
  let stamp := decimal (u64 t.tvSec) ++ 46 :: decimal3 (t.tvNsec / 1000000) ++
    58 :: decimal serial.toNat
  if microlog then stamp ++ ofChars ": ".toList
  else ofChars "audit(".toList ++ stamp ++ ofChars "): ".toList

/-- The whole of `audit_log_start` with HardLog active. -/
def started (ab : AuditBuffer) (garbage : ℤ → UInt8) (head : List UInt8) : AuditBuffer :=
  (auditLogFormat true (auditLogStart true ab (some garbage)) head).ab

/-- The number of bytes that a call has to add, unless it finds no space. -/
def argLength (ab : AuditBuffer) : Call → ℕ
  | .format text => if ab.space ≤ 0 then 0 else text.length
  | .nString _ slen => if u64 ab.space < (slen.toNat + 3) % 2 ^ 64 then 0 else slen.toNat + 2
  | .nHex _ len => if u64 ab.space < (2 * len.toNat) % 2 ^ 64 then 0 else 2 * len.toNat

/-- The number of bytes that calls have to add to a record. -/
def totalLength : AuditBuffer → List Call → ℕ
  | _, [] => 0
  | ab, c :: calls => argLength ab c + totalLength (c.run ab) calls

/-- The bytes that a call adds. -/
def appended (ab : AuditBuffer) : Call → List UInt8
  | .format text => if ab.space ≤ 0 then [] else text.take (ab.space - 1).toNat
  | .nString string slen =>
    if u64 ab.space < (slen.toNat + 3) % 2 ^ 64 then [] else callText (.nString string slen)
  | .nHex buf len => if u64 ab.space < (2 * len.toNat) % 2 ^ 64 then [] else callText (.nHex buf len)

/-- The payload that calls append to a record. -/
def payload : AuditBuffer → List Call → List UInt8
  | _, [] => []
  | ab, c :: calls => appended ab c ++ payload (c.run ab) calls

/-- **Only empty records are discarded**, and all of them. -/
def DiscardsOnlyEmpty (ab : AuditBuffer) (calls : List Call) : Prop :=
  auditLogEndDrops (calls.foldl Call.run ab) = true ↔ payload ab calls = []

/-- Behind a header of `h` bytes, an empty payload leaves the record below 35 bytes; any other makes
it as long, and has no NUL so far. -/
def Distinguished (h : ℕ) (payload : List UInt8) : Prop :=
  if payload = [] then h < 35 else 35 ≤ h + payload.length ∧ 0 ∉ payload.take (35 - h)

instance (h : ℕ) (payload : List UInt8) : Decidable (Distinguished h payload) := by
  unfold Distinguished; infer_instance

/-! ### The first bytes -/

/-- The first 35 bytes of the text `p` of an event stand in its buffer. A shorter text ends where the
consumed bytes do; of a longer one that many are consumed. -/
structure Front (p : List UInt8) (ab : AuditBuffer) (b : EventBuffer) : Prop where
  buffer : ab.hardlogEventBuffer = some b
  bytes : ∀ k (h : k < p.length), k < 35 → b.byte k = p[k]
  consumed : p.length < 35 → ab.hardlogEventConsumed = p.length
  past : 35 ≤ p.length → 35 ≤ ab.hardlogEventConsumed

/-- A shorter text has a NUL behind it. -/
def Ended (p : List UInt8) (b : EventBuffer) : Prop := p.length < 35 → b.byte p.length = 0

section Front

variable {p : List UInt8} {ab : AuditBuffer} {b : EventBuffer}

theorem Front.nonneg (h : Front p ab b) : 0 ≤ ab.hardlogEventConsumed := by
  rcases Nat.lt_or_ge p.length 35 with hlt | hge
  · rw [h.consumed hlt]
    exact Int.natCast_nonneg _
  · have := h.past hge
    omega

theorem Front.store (h : Front p ab b) {t : List UInt8} {n : ℤ}
    (hn : n = ab.hardlogEventConsumed + t.length ∨
      35 ≤ n ∧ 35 ≤ ab.hardlogEventConsumed + t.length) :
    Front (p ++ t)
      { ab with
        hardlogEventBuffer := some (b.store ab.hardlogEventConsumed (t ++ [0]))
        hardlogEventConsumed := n }
      (b.store ab.hardlogEventConsumed (t ++ [0])) ∧
    Ended (p ++ t) (b.store ab.hardlogEventConsumed (t ++ [0])) := by
  have h0 := h.nonneg
  have hlen : (p ++ t).length = p.length + t.length := List.length_append
  have hsrc : ((t ++ [0]).length : ℤ) = t.length + 1 := by simp
  rcases Nat.lt_or_ge p.length 35 with hlt | hge
  · have hc := h.consumed hlt
    rw [hc]
    refine ⟨⟨rfl, fun k hk hk35 => ?_, fun hp => ?_, fun hp => ?_⟩, fun hp => ?_⟩
    · rcases Nat.lt_or_ge k p.length with hkp | hkp
      · rw [store_byte_of_lt b _ (by omega), h.bytes k hkp hk35, List.getElem_append_left hkp]
      · obtain ⟨j, rfl⟩ := Nat.exists_eq_add_of_le hkp
        have hj : j < t.length := by omega
        rw [Nat.cast_add, store_byte_add b _ (by rw [List.length_append]; omega),
          List.getElem_append_left hj, List.getElem_append_right hkp]
        simp only [Nat.add_sub_cancel_left]
    · simp only
      omega
    · simp only
      omega
    · rw [hlen, Nat.cast_add, store_byte_add b _ (by simp), List.getElem_concat_length rfl]
  · have hc := h.past hge
    refine ⟨⟨rfl, fun k hk hk35 => ?_, fun hp => ?_, fun hp => ?_⟩, fun hp => ?_⟩
    · rw [store_byte_of_lt b _ (by omega), h.bytes k (by omega) hk35, List.getElem_append_left]
    · omega
    · simp only
      omega
    · omega

/-- A call leaves the event as it was, or stores what it adds behind the text. Then that much is
consumed, or, where a rendering is cut, at least 35 bytes are. -/
def Extends (ab : AuditBuffer) (b : EventBuffer) (c : Call) : Prop :=
  (appended ab c = [] ∧ c.run ab = ab) ∨
    ∃ n, c.run ab =
        { ab with
          hardlogEventBuffer := some (b.store ab.hardlogEventConsumed (appended ab c ++ [0]))
          hardlogEventConsumed := n } ∧
      (n = ab.hardlogEventConsumed + (appended ab c).length ∨
        35 ≤ n ∧ 35 ≤ ab.hardlogEventConsumed + (appended ab c).length) ∧
      n ≤ ab.hardlogEventConsumed + argLength ab c

section Calls

variable (hb : ab.hardlogEventBuffer = some b) (h0 : 0 ≤ ab.hardlogEventConsumed)
include hb h0

theorem extends_format {text : List UInt8}
    (hlen : ab.hardlogEventConsumed + argLength ab (.format text) < 2 ^ 31) :
    Extends ab b (.format text) := by
  have hspace : ab.space = 511 - ab.hardlogEventConsumed := space_eq h0 (by omega)
  by_cases hfull : ab.space ≤ 0
  · refine Or.inl ⟨if_pos hfull, ?_⟩
    simp only [Call.run, auditLogFormatHardlog, hb, if_pos hfull]
  unfold Extends
  simp only [argLength, if_neg hfull] at hlen ⊢
  have hI : InRange ab b := ⟨hb, h0, by omega⟩
  have hspec : (Call.format text).run ab = _ := hI.formatHardlog_spec text
  have hcut : (ab.space - 1).toNat = (510 - ab.hardlogEventConsumed).toNat := by omega
  have htake : (text.take (510 - ab.hardlogEventConsumed).toNat).length =
      min (510 - ab.hardlogEventConsumed).toNat text.length := List.length_take
  rw [if_neg (by omega), stored, int32_eq (x := text.length) (by omega) (by omega)] at hspec
  simp only [appended, if_neg hfull, hcut]
  refine Or.inr ⟨_, hspec, ?_⟩
  rw [htake]
  by_cases hfits : (text.length : ℤ) < 511 - ab.hardlogEventConsumed
  · rw [if_pos hfits, int32_eq (by omega) (by omega)]
    omega
  · -- the text is cut, behind the first 35 bytes
    rw [if_neg hfits, int32_eq (x := text.length - 10) (by omega) (by omega),
      int32_eq (by omega) (by omega)]
    omega

theorem extends_nString {string : ℕ → UInt8} {slen : UInt64}
    (hlen : ab.hardlogEventConsumed + argLength ab (.nString string slen) < 2 ^ 31) :
    Extends ab b (.nString string slen) := by
  unfold Extends
  simp only [Call.run, auditLogNStringHardlog, hb, appended]
  by_cases hdrop : u64 ab.space < (slen.toNat + 3) % 2 ^ 64
  · rw [if_pos hdrop, if_pos hdrop]
    exact Or.inl ⟨rfl, rfl⟩
  simp only [argLength, if_neg hdrop] at hlen ⊢
  rw [callText_nString_nul, length_callText_nString, int32_eq (by omega) (by omega)]
  refine Or.inr ⟨_, rfl, Or.inl ?_, ?_⟩ <;> omega

theorem extends_nHex {buf : ℤ → UInt8} {len : UInt64}
    (hlen : ab.hardlogEventConsumed + argLength ab (.nHex buf len) < 2 ^ 31) :
    Extends ab b (.nHex buf len) := by
  unfold Extends
  simp only [Call.run, auditLogNHexHardlog, hb, appended]
  by_cases hdrop : u64 ab.space < (2 * len.toNat) % 2 ^ 64
  · rw [if_pos hdrop, if_pos hdrop]
    exact Or.inl ⟨rfl, rfl⟩
  simp only [argLength, if_neg hdrop] at hlen ⊢
  have hrounds : hexRounds len.toNat = len.toNat := if_pos (by omega)
  have hlength : (callText (.nHex buf len)).length = 2 * len.toNat := by
    rw [callText, length_hexText, hrounds]
  rw [hlength, int32_eq (by omega) (by omega)]
  refine Or.inr ⟨_, rfl, Or.inl ?_, ?_⟩ <;> omega

theorem extends_run {c : Call} (hlen : ab.hardlogEventConsumed + argLength ab c < 2 ^ 31) :
    Extends ab b c := by
  rcases c with text | ⟨string, slen⟩ | ⟨buf, len⟩
  · exact extends_format hb h0 hlen
  · exact extends_nString hb h0 hlen
  · exact extends_nHex hb h0 hlen

end Calls

theorem Front.run (h : Front p ab b) {c : Call}
    (hlen : ab.hardlogEventConsumed + argLength ab c < 2 ^ 31) :
    ∃ b', Front (p ++ appended ab c) (c.run ab) b' ∧
      (Ended p b ∨ c.run ab ≠ ab → Ended (p ++ appended ab c) b') ∧
      (c.run ab).hardlogEventConsumed ≤ ab.hardlogEventConsumed + argLength ab c := by
  rcases extends_run h.buffer h.nonneg hlen with ⟨hnil, hrun⟩ | ⟨n, hrun, hn, hle⟩
  · rw [hrun, hnil, List.append_nil]
    refine ⟨b, h, fun hor => hor.resolve_right fun hne => hne rfl, ?_⟩
    omega
  · obtain ⟨hfront, hended⟩ := h.store hn
    rw [hrun]
    exact ⟨_, hfront, fun _ => hended, hle⟩

theorem front_run {calls : List Call} (h : Front p ab b) (he : Ended p b)
    (hlen : ab.hardlogEventConsumed + totalLength ab calls < 2 ^ 31) :
    ∃ b', Front (p ++ payload ab calls) (calls.foldl Call.run ab) b' ∧
      Ended (p ++ payload ab calls) b' := by
  induction calls generalizing p ab b with
  | nil =>
    rw [payload, List.append_nil]
    exact ⟨b, h, he⟩
  | cons c calls ih =>
    rw [totalLength] at hlen
    obtain ⟨b', h', he', hle⟩ := h.run (c := c) (by omega)
    obtain ⟨b'', hdone⟩ := ih h' (he' (Or.inl he)) (by omega)
    rw [List.append_assoc] at hdone
    exact ⟨b'', hdone⟩

theorem strlen_lt_iff (h : Front p ab b) (he : Ended p b) :
    b.strlen < 35 ↔ p.length < 35 ∨ 0 ∈ p.take 35 := by
  constructor
  · intro hlt
    by_contra hn
    obtain ⟨hge, hmem⟩ := not_or.mp hn
    have : 35 ≤ b.strlen := by
      refine le_strlen (by decide) fun i hi h0 => hmem ?_
      rw [h.bytes i (by omega) hi] at h0
      exact List.mem_take_iff_getElem.mpr ⟨i, by omega, h0⟩
    omega
  · rintro (hshort | hmem)
    · have := strlen_le_of_nul (he hshort)
      omega
    · obtain ⟨i, hi, h0⟩ := List.mem_take_iff_getElem.mp hmem
      have hbyte : b.byte i = 0 := by rw [h.bytes i (by omega) (by omega), h0]
      have := strlen_le_of_nul hbyte
      omega

end Front

/-! ### The header -/

theorem ne_zero_of_mem_decimal {n : ℕ} {b : UInt8} (h : b ∈ decimal n) : b ≠ 0 :=
  isDigit_ne_zero (isDigit_of_mem_decimal h)

theorem length_decimal3 {n : ℕ} (h : n < 1000) : (decimal3 n).length = 3 := by
  have hle : (decimal n).length ≤ 3 := (length_decimal_le (by decide)).mpr h
  rw [decimal3, List.length_append, List.length_replicate]
  omega

/-- **The header** has 14 bytes, or 7, besides the digits of the seconds and of the serial number. -/
theorem length_header (microlog : Bool) (t : Timespec64) (serial : UInt32) :
    (header microlog t serial).length =
      (if microlog then 7 else 14) + (decimal (u64 t.tvSec)).length +
        (decimal serial.toNat).length := by
  have hms : t.tvNsec / 1000000 < 1000 := by
    have := t.tvNsec_lt
    omega
  have h3 := length_decimal3 hms
  have hfront : (ofChars "audit(".toList).length = 6 := rfl
  have hback : (ofChars "): ".toList).length = 3 := rfl
  have hshort : (ofChars ": ".toList).length = 2 := rfl
  rcases microlog with _ | _
  · simp only [header, List.length_append, List.length_cons, h3, hfront, hback, Bool.false_eq_true,
      if_false]
    omega
  · simp only [header, List.length_append, List.length_cons, h3, hshort, if_true]
    omega

theorem header_ne_nil (microlog : Bool) (t : Timespec64) (serial : UInt32) :
    header microlog t serial ≠ [] := by
  refine List.ne_nil_of_length_pos ?_
  rw [length_header]
  split_ifs <;> omega

theorem length_header_le (microlog : Bool) (t : Timespec64) (serial : UInt32) :
    (header microlog t serial).length ≤ 510 := by
  have hsec : (decimal (u64 t.tvSec)).length ≤ 20 := by
    rw [length_decimal_le (by decide)]
    unfold u64
    omega
  have hserial : (decimal serial.toNat).length ≤ 10 := by
    rw [length_decimal_le (by decide)]
    exact serial.toNat_lt.trans (by decide)
  rw [length_header]
  split_ifs <;> omega

theorem header_no_nul (microlog : Bool) (t : Timespec64) (serial : UInt32) :
    0 ∉ header microlog t serial := by
  have hdec : ∀ n, 0 ∉ decimal n := fun n h => ne_zero_of_mem_decimal h rfl
  have hdec3 : ∀ n, 0 ∉ decimal3 n := by
    intro n h
    rcases List.mem_append.mp h with h | h
    · exact absurd (List.eq_of_mem_replicate h) (by decide)
    · exact hdec n h
  have hfront : (0 : UInt8) ∉ ofChars "audit(".toList := by decide
  have hback : (0 : UInt8) ∉ ofChars "): ".toList := by decide
  have hshort : (0 : UInt8) ∉ ofChars ": ".toList := by decide
  rcases microlog with _ | _
  · simp only [header, Bool.false_eq_true, if_false, List.mem_append, List.mem_cons, hdec, hdec3,
      hfront, hback]
    decide
  · simp only [header, if_true, List.mem_append, List.mem_cons, hdec, hdec3, hshort]
    decide

theorem front_started (ab : AuditBuffer) (garbage : ℤ → UInt8) {head : List UInt8}
    (hne : head ≠ []) (hlen : head.length ≤ 510) :
    ∃ b, Front head (started ab garbage head) b ∧ Ended head b ∧
      (started ab garbage head).hardlogEventConsumed ≤ head.length := by
  have hfresh : Front [] (auditLogStartHardlog ab (some garbage)) ⟨garbage, fun _ => false, []⟩ :=
    ⟨rfl, fun k hk => absurd hk (Nat.not_lt_zero k), fun _ => rfl, fun h => absurd h (by decide)⟩
  have htakes : Takes 0 (.format head) := Or.inr (by simpa [callText, callLimit] using hlen)
  have hrun : started ab garbage head =
      (Call.format head).run (auditLogStartHardlog ab (some garbage)) := by
    simp only [started, auditLogFormat, auditLogStart, if_true, Call.run]
  rcases run_of_takes (start_inv ab garbage) htakes with ⟨hnil, -⟩ | heq
  · exact absurd hnil hne
  · obtain ⟨hfront, hended⟩ := hfresh.store (t := head) (Or.inl rfl)
    rw [hrun, heq]
    exact ⟨_, hfront, hended, by simp [callText, auditLogStartHardlog]⟩

/-- **Empty records**: the test is right about a record exactly if the lengths of its header and its
payload tell them apart. -/
theorem discardsOnlyEmpty_iff (ab : AuditBuffer) (garbage : ℤ → UInt8) (microlog : Bool)
    (t : Timespec64) (serial : UInt32) {calls : List Call}
    (hlen : (header microlog t serial).length +
      totalLength (started ab garbage (header microlog t serial)) calls < 2 ^ 31) :
    let record := started ab garbage (header microlog t serial)
    DiscardsOnlyEmpty record calls ↔
      Distinguished (header microlog t serial).length (payload record calls) := by
  intro record
  obtain ⟨b, hfront, hended, hle⟩ := front_started ab garbage (header_ne_nil microlog t serial)
    (length_header_le microlog t serial)
  have hroom : record.hardlogEventConsumed + totalLength record calls < 2 ^ 31 := by
    simp only [record]
    omega
  obtain ⟨b', hfront', hended'⟩ := front_run hfront hended hroom
  have hdrops : auditLogEndDrops (calls.foldl Call.run record) = true ↔
      (header microlog t serial).length + (payload record calls).length < 35 ∨
        0 ∈ (payload record calls).take (35 - (header microlog t serial).length) := by
    have htest := strlen_lt_iff hfront' hended'
    rw [List.length_append, List.take_append, List.mem_append, or_iff_right
      (fun h => header_no_nul microlog t serial (List.mem_of_mem_take h))] at htest
    rw [auditLogEndDrops, hfront'.buffer]
    simpa using htest
  rw [DiscardsOnlyEmpty, hdrops, Distinguished]
  by_cases hnil : payload record calls = []
  · simp [hnil]
  · rw [if_neg hnil, iff_false_right hnil, not_or, Nat.not_lt]

/-- A record that began in March 2022, with the serial number 7. -/
def march (garbage : ℤ → UInt8) : AuditBuffer :=
  started ⟨none, none, 0⟩ garbage (header false ⟨1648000000, 0, by decide⟩ 7)

/-- `fd0=3 fd1=4` behind its 25 bytes. -/
theorem discardsOnlyEmpty_fd_pair :
    DiscardsOnlyEmpty (march fun _ => 0) [.format (ofChars "fd0=3 fd1=4".toList)] :=
  (discardsOnlyEmpty_iff _ _ false ⟨1648000000, 0, by decide⟩ 7 (by decide +kernel)).mpr
    (by decide +kernel)

/-- `cwd="/"` behind its 25 bytes: the record is discarded. -/
theorem cwd_discarded :
    ¬ DiscardsOnlyEmpty (march fun _ => 0)
        [.format (ofChars "cwd=".toList), .nString (fun _ => 47) 1] ∧
      payload (march fun _ => 0) [.format (ofChars "cwd=".toList), .nString (fun _ => 47) 1] =
        ofChars "cwd=".toList ++ [34, 47, 34] := by
  have hdrops : auditLogEndDrops
      ([.format (ofChars "cwd=".toList), .nString (fun _ => 47) 1].foldl Call.run
        (march fun _ => 0)) = true := by decide +kernel
  have hpayload : payload (march fun _ => 0)
      [.format (ofChars "cwd=".toList), .nString (fun _ => 47) 1] =
        ofChars "cwd=".toList ++ [34, 47, 34] := by decide +kernel
  refine ⟨fun h => ?_, hpayload⟩
  rw [DiscardsOnlyEmpty, hpayload] at h
  exact absurd (h.mp hdrops) (by decide)

end HardLog.Host.EmptyRecords
