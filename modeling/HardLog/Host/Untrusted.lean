import HardLog.Host.Kaudit

/-! # Untrusted strings

Names chosen by users enter a record through `audit_log_n_untrustedstring`: between double quotes if
all their bytes are printable, else as hex digits. `untrustedstring_decodes`: with HardLog active what
is added has no newline, no NUL and no double quote of the string in it, and gives the string back,
whatever fields follow. -/

namespace HardLog.Host.Untrusted

open HardLog.Lib.CInt HardLog.Host.Event HardLog.Host.EventBounds HardLog.Host.EventText
open HardLog.Host.Kaudit

/-! ### Decoding -/

/-- The value of an upper-case hex digit. -/
def hexValue (d : UInt8) : Option UInt8 :=
  if 48 ≤ d ∧ d ≤ 57 then some (d - 48) else if 65 ≤ d ∧ d ≤ 70 then some (d - 55) else none

/-- Pairs of hex digits, as far as there are any, and the rest. -/
def readHex : List UInt8 → List UInt8 × List UInt8
  | c :: d :: rest =>
    match hexValue c, hexValue d with
    | some x, some y => ((x * 16 + y) :: (readHex rest).1, (readHex rest).2)
    | _, _ => ([], c :: d :: rest)
  | bs => ([], bs)

/-- A string and the fields behind it: the text up to the next double quote if there is one in front,
else hex digits. -/
def decode : List UInt8 → List UInt8 × List UInt8
  | [] => ([], [])
  | c :: rest =>
    if c = 34 then (rest.takeWhile (· ≠ 34), (rest.dropWhile (· ≠ 34)).tail) else readHex (c :: rest)

/-- What a string is written as. -/
def encode (s : List UInt8) : List UInt8 :=
  if s.any isControl then s.flatMap hexBytePackUpper else 34 :: s ++ [34]

/-- No newline, no NUL, and no double quote but those at the two ends. -/
def Inert (text : List UInt8) : Prop := 10 ∉ text ∧ 0 ∉ text ∧ 34 ∉ text.tail.dropLast

/-- What may follow: nothing, or a field that starts with a space. -/
def Field (rest : List UInt8) : Prop := rest = [] ∨ rest.head? = some 32

/-! ### Digits -/

/-- **A digit** is read back, and is none of the bytes that structure a log. -/
theorem hexAscUpper_spec {d : UInt8} (h : d < 16) :
    hexValue (hexAscUpper d) = some d ∧ hexAscUpper d ≠ 10 ∧ hexAscUpper d ≠ 0 ∧
      hexAscUpper d ≠ 34 := by
  have hall : ∀ d : Fin 16, hexValue (hexAscUpper (UInt8.ofNat d)) = some (UInt8.ofNat d) ∧
      hexAscUpper (UInt8.ofNat d) ≠ 10 ∧ hexAscUpper (UInt8.ofNat d) ≠ 0 ∧
      hexAscUpper (UInt8.ofNat d) ≠ 34 := by decide
  have := hall ⟨d.toNat, UInt8.lt_iff_toNat_lt.mp h⟩
  rwa [UInt8.ofNat_toNat] at this

theorem high_lt (x : UInt8) : x / 16 < 16 := by
  rw [UInt8.lt_iff_toNat_lt, UInt8.toNat_div]
  exact Nat.div_lt_of_lt_mul x.toNat_lt

theorem low_lt (x : UInt8) : x % 16 < 16 := by
  rw [UInt8.lt_iff_toNat_lt, UInt8.toNat_mod]
  exact Nat.mod_lt _ (by decide)

theorem halves (x : UInt8) : x / 16 * 16 + x % 16 = x := by
  refine UInt8.toNat_inj.mp ?_
  have := x.toNat_lt
  rw [UInt8.toNat_add, UInt8.toNat_mul, UInt8.toNat_div, UInt8.toNat_mod]
  have h16 : (16 : UInt8).toNat = 16 := rfl
  rw [h16]
  omega

theorem mem_hexBytePackUpper {x c : UInt8} (h : c ∈ hexBytePackUpper x) :
    ∃ d, d < 16 ∧ c = hexAscUpper d := by
  simp only [hexBytePackUpper, List.mem_cons, List.not_mem_nil, or_false] at h
  rcases h with rfl | rfl
  · exact ⟨_, high_lt x, rfl⟩
  · exact ⟨_, low_lt x, rfl⟩

theorem readHex_field {rest : List UInt8} (h : Field rest) : readHex rest = ([], rest) := by
  rcases h with rfl | h
  · rfl
  · obtain ⟨l, rfl⟩ : ∃ l, rest = 32 :: l := by
      cases rest with
      | nil => simp at h
      | cons c l => exact ⟨l, by rw [List.head?_cons, Option.some.injEq] at h; rw [h]⟩
    cases l with
    | nil => rfl
    | cons c l => rfl

theorem readHex_append (s : List UInt8) {rest : List UInt8} (h : Field rest) :
    readHex (s.flatMap hexBytePackUpper ++ rest) = (s, rest) := by
  induction s with
  | nil => exact readHex_field h
  | cons x s ih =>
    have hhigh := (hexAscUpper_spec (high_lt x)).1
    have hlow := (hexAscUpper_spec (low_lt x)).1
    simp only [List.flatMap_cons, hexBytePackUpper, List.cons_append, List.nil_append, readHex,
      hhigh, hlow] at ih ⊢
    rw [ih, halves]

/-! ### Strings -/

theorem plain_of_not_control {s : List UInt8} (hc : ¬ s.any isControl) {b : UInt8} (hb : b ∈ s) :
    b ≠ 10 ∧ b ≠ 0 ∧ b ≠ 34 := by
  have hnot : isControl b = false := by
    by_contra hcb
    exact hc (List.any_eq_true.mpr ⟨b, hb, by simpa using hcb⟩)
  refine ⟨?_, ?_, ?_⟩
  · rintro rfl
    exact absurd hnot (by decide)
  · rintro rfl
    exact absurd hnot (by decide)
  · rintro rfl
    exact absurd hnot (by decide)

/-- **Decoding** gives the string back, and the fields behind it. -/
theorem decode_encode (s : List UInt8) {rest : List UInt8} (h : Field rest) :
    decode (encode s ++ rest) = (s, rest) := by
  unfold encode
  by_cases hc : s.any isControl
  · rw [if_pos hc]
    cases s with
    | nil => simp at hc
    | cons x s =>
      have hne := (hexAscUpper_spec (high_lt x)).2.2.2
      have := readHex_append (x :: s) h
      simp only [List.flatMap_cons, hexBytePackUpper, List.cons_append] at this ⊢
      rw [decode, if_neg hne]
      exact this
  · have hq : ∀ b ∈ s, decide (b ≠ 34) = true := fun b hb =>
      decide_eq_true (plain_of_not_control hc hb).2.2
    rw [if_neg hc, List.cons_append, List.cons_append, List.append_assoc, decode, if_pos rfl,
      List.takeWhile_append_of_pos hq, List.dropWhile_append_of_pos hq]
    simp

/-- What a string is written as structures nothing. -/
theorem encode_inert (s : List UInt8) : Inert (encode s) := by
  unfold encode
  by_cases hc : s.any isControl
  · rw [if_pos hc]
    have hdigit : ∀ c ∈ s.flatMap hexBytePackUpper, c ≠ 10 ∧ c ≠ 0 ∧ c ≠ 34 := by
      intro c hmem
      obtain ⟨x, -, hx⟩ := List.mem_flatMap.mp hmem
      obtain ⟨d, hd, rfl⟩ := mem_hexBytePackUpper hx
      exact (hexAscUpper_spec hd).2
    refine ⟨fun hm => (hdigit _ hm).1 rfl, fun hm => (hdigit _ hm).2.1 rfl, fun hm => ?_⟩
    exact (hdigit _ (List.mem_of_mem_tail (List.dropLast_subset _ hm))).2.2 rfl
  · rw [if_neg hc]
    have hin : ∀ x, x ≠ 34 → x ∈ (34 :: s ++ [34] : List UInt8) → x ∈ s := by
      intro x hx hm
      simpa [hx] using hm
    refine ⟨fun hm => (plain_of_not_control hc (hin _ (by decide) hm)).1 rfl,
      fun hm => (plain_of_not_control hc (hin _ (by decide) hm)).2.1 rfl, fun hm => ?_⟩
    rw [List.cons_append, List.tail_cons, List.dropLast_concat] at hm
    exact (plain_of_not_control hc hm).2.2 rfl

/-! ### What the call adds -/

/-- A string as it is written fits in the space left, the NUL behind a quoted one included. -/
def Fits (ab : AuditBuffer) (string : ℤ → UInt8) (len : UInt64) : Prop :=
  if auditStringContainsControl string len then
    ab.hardlogEventConsumed + 2 * len.toNat ≤ hardlogAuditBlocksize
  else ab.hardlogEventConsumed + (len.toNat + 3) ≤ hardlogAuditBlocksize

instance (ab : AuditBuffer) (string : ℤ → UInt8) (len : UInt64) : Decidable (Fits ab string len) := by
  unfold Fits
  infer_instance

theorem hexText_eq (p : ℤ → UInt8) {n : ℕ} (h : n ≤ 2 ^ 31) :
    hexText p n = (bytesAt p n).flatMap hexBytePackUpper := by
  unfold hexText bytesAt
  rw [List.flatMap_map]
  refine List.flatMap_congr fun i hi => ?_
  rw [List.mem_range] at hi
  rw [int32_eq (by omega) (by omega)]

theorem callText_untrusted {ab : AuditBuffer} {string : ℤ → UInt8} {len : UInt64}
    (h0 : 0 ≤ ab.hardlogEventConsumed) (hfit : Fits ab string len) :
    callText (KCall.nUntrustedstring string len).native = encode (bytesAt string len.toNat) ∧
      Takes ab.hardlogEventConsumed.toNat (KCall.nUntrustedstring string len).native := by
  unfold Fits hardlogAuditBlocksize hardlogAuditEventsize at hfit
  simp only [KCall.native, encode]
  by_cases hc : auditStringContainsControl string len
  · rw [if_pos hc] at hfit ⊢
    have hr : hexRounds len.toNat = len.toNat := if_pos (by omega)
    have hany : (bytesAt string len.toNat).any isControl := hc
    refine ⟨?_, Or.inr ?_⟩
    · rw [callText, hr, hexText_eq string (by omega), if_pos hany]
    · rw [callText, callLimit, length_hexText, hr]
      omega
  · rw [if_neg hc] at hfit ⊢
    have hany : ¬ (bytesAt string len.toNat).any isControl := hc
    refine ⟨?_, Or.inr ?_⟩
    · rw [if_neg hany]
      rfl
    · simp only [callText, callLimit, List.length_append, List.length_cons, List.length_map,
        List.length_range, List.length_nil]
      omega

/-- **Untrusted strings**: with HardLog active, a string of any bytes that fits adds a text with no
newline, no NUL and no double quote in it but its delimiters, which is decoded to the string whatever
fields follow. -/
theorem untrustedstring_decodes {r : AuditRecord} {b : EventBuffer} (hI : Inv r.ab b)
    (active' : Bool) (string : ℤ → UInt8) (len : UInt64) (hfit : Fits r.ab string len) :
    ∃ text,
      eventText (auditLogNUntrustedstring true active' r string len).ab = eventText r.ab ++ text ∧
        Inert text ∧ ∀ rest, Field rest → decode (text ++ rest) = (bytesAt string len.toNat, rest) := by
  obtain ⟨htext, htakes⟩ := callText_untrusted hI.nonneg hfit
  have hrun : (auditLogNUntrustedstring true active' r string len).ab =
      (KCall.nUntrustedstring string len).native.run r.ab :=
    ab_run_hardlog r (c := .nUntrustedstring string len) fun _ _ => by simp
  refine ⟨encode (bytesAt string len.toNat), ?_, encode_inert _, fun rest h => decode_encode _ h⟩
  rw [hrun, eventText_run hI htakes, htext]

/-- A name with a newline and a quote in it, as the first thing in a record. -/
theorem untrustedstring_newline :
    ∃ text, eventText (auditLogNUntrustedstring true true
        ⟨auditLogStartHardlog ⟨none, none, 0⟩ (some fun _ => 0), []⟩
        (fun i => [97, 10, 34].getD i.toNat 0) 3).ab = text ∧ Inert text ∧
      ∀ rest, Field rest → decode (text ++ rest) = ([97, 10, 34], rest) := by
  obtain ⟨text, h, hin, hdec⟩ := untrustedstring_decodes
    (r := ⟨auditLogStartHardlog ⟨none, none, 0⟩ (some fun _ => 0), []⟩)
    (start_inv ⟨none, none, 0⟩ fun _ => 0) true (fun i => [97, 10, 34].getD i.toNat 0) 3 (by decide)
  exact ⟨text, h, hin, hdec⟩

end HardLog.Host.Untrusted
