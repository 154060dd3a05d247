import HardLog.Host.EventBounds

/-! # Record text only grows

A building call stores behind what is consumed, so what is there stays, but the consumed count can go
back: a format that does not fit adds its untruncated length less 10, and a rendering may be shorter
than that. `grows_iff` is the exact condition, for any event with a consumed count in range and any
call. -/

namespace HardLog.Host.Growth

open HardLog.Lib.CInt HardLog.Host.Event HardLog.Host.EventBounds

/-- The byte at an index is what it was, and nothing has been stored to its address. An address has 64
bits, so indices that differ by `2 ^ 64` have the same. -/
def Kept (b b' : EventBuffer) (i : ℤ) : Prop :=
  b'.byte i = b.byte i ∧ ∃ new, b'.accesses = new ++ b.accesses ∧
    ∀ r ∈ new, ∀ j, r.1 ≤ j → j < r.2 → (j - i) % 2 ^ 64 ≠ 0

/-- A string or hex call that finds no space for its text. -/
def Dropped (ab : AuditBuffer) : Call → Prop
  | .format _ => False
  | .nString _ slen => u64 ab.space < (slen.toNat + 3) % 2 ^ 64
  | .nHex _ len => u64 ab.space < (2 * len.toNat) % 2 ^ 64

/-- **Growth**: the bytes consumed before a call are kept, and it consumes no less; a dropped call
leaves the event as it was. -/
structure Grows (ab : AuditBuffer) (c : Call) : Prop where
  kept : ∀ b b', ab.hardlogEventBuffer = some b → (c.run ab).hardlogEventBuffer = some b' →
    ∀ i, 0 ≤ i → i < ab.hardlogEventConsumed → Kept b b' i
  le : ab.hardlogEventConsumed ≤ (c.run ab).hardlogEventConsumed
  dropped : Dropped ab c → c.run ab = ab

/-- A call under which the text grows. Of a format that does not fit, the rendering has at least ten
bytes, and the sum does not overflow; the length of a string does not overflow with three bytes more,
unless it is dropped even so, or nothing is consumed yet. -/
def KeepsGrowing (ab : AuditBuffer) : Call → Prop
  | .format text =>
    ab.hardlogEventConsumed < hardlogAuditBlocksize →
      0 ≤ int32 text.length ∧
        (hardlogAuditBlocksize - ab.hardlogEventConsumed ≤ int32 text.length →
          10 ≤ int32 text.length ∧ ab.hardlogEventConsumed + int32 text.length - 10 < 2 ^ 31)
  | .nString _ slen =>
    slen.toNat + 3 < 2 ^ 64 ∨
      hardlogAuditBlocksize - ab.hardlogEventConsumed < slen.toNat + 3 - 2 ^ 64 ∨
      (ab.hardlogEventConsumed = 0 ∧ slen.toNat ≠ 2 ^ 64 - 3)
  | .nHex _ _ => True

/-! ### Stores -/

theorem Kept.refl (b : EventBuffer) (i : ℤ) : Kept b b i :=
  ⟨rfl, [], rfl, fun _ hr => absurd hr List.not_mem_nil⟩

theorem kept_store {b : EventBuffer} {i off : ℤ} {src : List UInt8} (hi : i < off)
    (hlen : off - i + src.length ≤ 2 ^ 64) : Kept b (b.store off src) i := by
  refine ⟨store_byte_of_lt _ _ hi, [(off, off + src.length)], rfl, fun r hr j hj hj' => ?_⟩
  obtain rfl := List.mem_singleton.mp hr
  simp only at hj hj'
  omega

/-- A store that reaches round to the address of the index 0. -/
theorem not_kept_store {b : EventBuffer} {off : ℤ} {src : List UInt8} (h0 : 0 < off)
    (h : off ≤ 2 ^ 64) (hlen : 2 ^ 64 ≤ (src.length : ℤ)) : ¬ Kept b (b.store off src) 0 := by
  rintro ⟨-, new, hnew, hall⟩
  have hmem : (off, off + (src.length : ℤ)) ∈ new := by
    have hcons : [(off, off + (src.length : ℤ))] ++ b.accesses = new ++ b.accesses := hnew
    rw [← List.append_cancel_right hcons]
    exact List.mem_singleton_self _
  exact hall _ hmem (2 ^ 64) h (by simp only; omega) (by decide)

/-! ### One call -/

theorem grows_of_eq {ab : AuditBuffer} {c : Call} (hrun : c.run ab = ab) : Grows ab c := by
  refine ⟨fun b1 b2 h1 h2 i _ _ => ?_, by rw [hrun], fun _ => hrun⟩
  rw [hrun, h1] at h2
  obtain rfl := Option.some.inj h2
  exact Kept.refl _ _

section Calls

variable {ab : AuditBuffer} {b : EventBuffer} (hI : InRange ab b)
include hI

theorem grows_store {c : Call} {n : ℤ} {src : List UInt8}
    (hrun : c.run ab =
      { ab with
        hardlogEventBuffer := some (b.store ab.hardlogEventConsumed src)
        hardlogEventConsumed := n })
    (hdrop : ¬ Dropped ab c) :
    Grows ab c ↔ (∀ i, 0 ≤ i → i < ab.hardlogEventConsumed →
      Kept b (b.store ab.hardlogEventConsumed src) i) ∧ ab.hardlogEventConsumed ≤ n := by
  constructor
  · rintro ⟨hkept, hle, -⟩
    rw [hrun] at hkept hle
    exact ⟨hkept b _ hI.buffer rfl, hle⟩
  · rintro ⟨hkept, hle⟩
    refine ⟨fun b1 b2 h1 h2 => ?_, by rw [hrun]; exact hle, fun h => absurd h hdrop⟩
    rw [hrun] at h2
    obtain rfl := Option.some.inj (hI.buffer.symm.trans h1)
    obtain rfl := Option.some.inj h2
    exact hkept

theorem grows_format_iff (text : List UInt8) :
    Grows ab (.format text) ↔ KeepsGrowing ab (.format text) := by
  have h0 := hI.nonneg
  have h1 := hI.le
  have hspec : (Call.format text).run ab = _ := hI.formatHardlog_spec text
  simp only [KeepsGrowing, hardlogAuditBlocksize, hardlogAuditEventsize]
  by_cases hc : ab.hardlogEventConsumed = 511
  · rw [if_pos hc] at hspec
    exact iff_of_true (grows_of_eq hspec) fun h => absurd h (by omega)
  · rw [if_neg hc] at hspec
    have hlen := length_stored ab text
    rw [grows_store hI hspec (fun h => h)]
    have hkept : ∀ i, 0 ≤ i → i < ab.hardlogEventConsumed →
        Kept b (b.store ab.hardlogEventConsumed (stored ab text)) i :=
      fun i hi hlt => kept_store hlt (by omega)
    rw [and_iff_right hkept]
    unfold int32
    split_ifs <;> omega

theorem grows_nString_iff (string : ℕ → UInt8) (slen : UInt64) :
    Grows ab (.nString string slen) ↔ KeepsGrowing ab (.nString string slen) := by
  have h0 := hI.nonneg
  have h1 := hI.le
  have hlt := slen.toNat_lt
  have hspec : (Call.nString string slen).run ab = _ := hI.nStringHardlog_spec string slen
  have hu := hI.u64_space
  simp only [KeepsGrowing, hardlogAuditBlocksize, hardlogAuditEventsize]
  by_cases hd : 511 - ab.hardlogEventConsumed < ((slen.toNat + 3) % 2 ^ 64 : ℕ)
  · rw [if_pos hd] at hspec
    exact iff_of_true (grows_of_eq hspec) (by omega)
  · rw [if_neg hd] at hspec
    have hlen : ((34 :: (List.range slen.toNat).map string ++ [34, 0]).length : ℤ) =
        slen.toNat + 3 := by
      simp only [List.cons_append, List.length_cons, List.length_append, List.length_map,
        List.length_range, List.length_nil]
      omega
    have hnot : ¬ Dropped ab (.nString string slen) := by
      simp only [Dropped]
      omega
    rw [grows_store hI hspec hnot]
    constructor
    · rintro ⟨hkept, hle⟩
      by_contra hover
      have hpos : ab.hardlogEventConsumed = 0 ∨ 0 < ab.hardlogEventConsumed := by omega
      rcases hpos with hzero | hpos
      · unfold int32 at hle
        omega
      · exact not_kept_store hpos (by omega) (by omega) (hkept 0 (Int.le_refl 0) hpos)
    · intro hfit
      refine ⟨fun i hi hi' => kept_store hi' (by omega), ?_⟩
      unfold int32
      omega

theorem grows_nHex (buf : ℤ → UInt8) (len : UInt64) : Grows ab (.nHex buf len) := by
  have h0 := hI.nonneg
  have h1 := hI.le
  have hlt := len.toNat_lt
  have hspec : (Call.nHex buf len).run ab = _ := hI.nHexHardlog_spec buf len
  have hu := hI.u64_space
  by_cases hd : 511 - ab.hardlogEventConsumed < ((2 * len.toNat) % 2 ^ 64 : ℕ)
  · rw [if_pos hd] at hspec
    exact grows_of_eq hspec
  · rw [if_neg hd] at hspec
    have hrounds : hexRounds len.toNat ≤ 2 ^ 31 := by
      unfold hexRounds
      split_ifs <;> omega
    have hlen : (hexText buf (hexRounds len.toNat) ++ [0]).length =
        2 * hexRounds len.toNat + 1 := by
      rw [List.length_append, length_hexText, List.length_singleton]
    have hnot : ¬ Dropped ab (.nHex buf len) := by
      simp only [Dropped]
      omega
    refine (grows_store hI hspec hnot).mpr ⟨fun i hi hi' => kept_store hi' (by omega), ?_⟩
    unfold int32
    omega

end Calls

/-- **Record text only grows**: over an event with a consumed count in range, exactly under the calls
that keep it growing, or if it has no buffer. -/
theorem grows_iff {ab : AuditBuffer} (h0 : 0 ≤ ab.hardlogEventConsumed)
    (h1 : ab.hardlogEventConsumed ≤ hardlogAuditBlocksize) (c : Call) :
    Grows ab c ↔ ab.hardlogEventBuffer = none ∨ KeepsGrowing ab c := by
  rcases hb : ab.hardlogEventBuffer with _ | b
  · have hrun : c.run ab = ab := by
      rcases c with text | ⟨string, slen⟩ | ⟨buf, len⟩
      · simp only [Call.run, auditLogFormatHardlog, hb]
      · simp only [Call.run, auditLogNStringHardlog, hb]
      · simp only [Call.run, auditLogNHexHardlog, hb]
    refine iff_of_true ⟨fun b b' hb' => ?_, by rw [hrun], fun _ => hrun⟩ (Or.inl rfl)
    rw [hb] at hb'
    cases hb'
  · have hI : InRange ab b := ⟨hb, h0, h1⟩
    rw [or_iff_right (Option.some_ne_none b)]
    rcases c with text | ⟨string, slen⟩ | ⟨buf, len⟩
    · exact grows_format_iff hI text
    · exact grows_nString_iff hI string slen
    · exact iff_of_true (grows_nHex hI buf len) trivial

/-- A rendering of three bytes in a fresh event. -/
theorem grows_three_bytes :
    Grows ⟨none, some ⟨fun _ => 0, fun _ => false, []⟩, 0⟩ (.format [65, 66, 67]) :=
  (grows_iff (Int.le_refl 0) (by decide) _).mpr (Or.inr fun _ => ⟨by decide, fun h => by
    exact absurd h (by decide)⟩)

/-- With six bytes left in front of the newline's, a rendering of six bytes takes the consumed count
back from 505 to 501. -/
theorem six_bytes_shrink :
    ¬ Grows ⟨none, some ⟨fun _ => 65, fun _ => true, []⟩, 505⟩ (.format (List.replicate 6 66)) ∧
      ((Call.format (List.replicate 6 66)).run
        ⟨none, some ⟨fun _ => 65, fun _ => true, []⟩, 505⟩).hardlogEventConsumed = 501 :=
  ⟨fun h => absurd h.le (by decide), by decide⟩

end HardLog.Host.Growth
