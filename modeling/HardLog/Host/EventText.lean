import HardLog.Host.EventBounds
import HardLog.Lib.Memory

/-! # The text of an event

`eventText` is what the building functions have put into the event buffer. A call adds its own text
to it exactly if that text ends early enough (`eventText_run_iff`): a format and a quoted string
leave a byte for the NUL in front of the one kept for the newline, hex digits do not. -/

namespace HardLog.Host.EventText

open HardLog.Lib.CInt HardLog.Lib.Memory HardLog.Host.Event HardLog.Host.EventBounds

/-- The memory of an event from its first byte on. -/
def cells (b : EventBuffer) : ℕ → UInt8 := fun i => b.byte i

/-- The bytes of the event buffer that are consumed. -/
def eventText (ab : AuditBuffer) : List UInt8 :=
  match ab.hardlogEventBuffer with
  | none => []
  | some b => slice (cells b) 0 ab.hardlogEventConsumed.toNat

/-- What a call has to add. -/
def callText : Call → List UInt8
  | .format text => text
  | .nString string slen => 34 :: (List.range slen.toNat).map string ++ [34]
  | .nHex buf len => hexText buf (hexRounds len.toNat)

theorem length_callText_nString (string : ℕ → UInt8) (slen : UInt64) :
    (callText (.nString string slen)).length = slen.toNat + 2 := by simp [callText]

theorem callText_nString_nul (string : ℕ → UInt8) (slen : UInt64) :
    (34 :: (List.range slen.toNat).map string ++ [34, 0] : List UInt8) =
      callText (.nString string slen) ++ [0] := by simp [callText]

/-- Where the text of a call ends at the latest. -/
def callLimit : Call → ℕ
  | .nHex _ _ => 511
  | _ => 510

/-- Behind `n` bytes there is space for the text of a call. -/
def Takes (n : ℕ) (c : Call) : Prop := callText c = [] ∨ n + (callText c).length ≤ callLimit c

/-! ### Stores -/

theorem cells_store (b : EventBuffer) (k : ℕ) (src : List UInt8) :
    cells (b.store k src) = memcpy (cells b) k src := by
  funext i
  unfold cells EventBuffer.store memcpy
  by_cases h : k ≤ i ∧ i < k + src.length
  · have hsub : ((i : ℤ) - (k : ℤ)).toNat = i - k := by omega
    have hin : i - k < src.length := by omega
    simp only [dif_pos h, hsub, List.getD_eq_getElem?_getD, List.getElem?_eq_getElem hin]
    rw [if_pos (by omega)]
    rfl
  · rw [dif_neg h]
    exact if_neg (by omega)

theorem eventText_store {ab : AuditBuffer} {b : EventBuffer} (h : ab.hardlogEventBuffer = some b)
    (h0 : 0 ≤ ab.hardlogEventConsumed) {text rest : List UInt8} {n : ℤ}
    (hn : n = ab.hardlogEventConsumed + text.length) :
    eventText { ab with
      hardlogEventBuffer := some (b.store ab.hardlogEventConsumed (text ++ rest))
      hardlogEventConsumed := n } = eventText ab ++ text := by
  obtain ⟨k, hk⟩ := Int.eq_ofNat_of_zero_le h0
  have hnk : n.toNat = k + text.length := by omega
  have hall := slice_memcpy_append (cells b) 0 k (text ++ rest)
  have htake := take_slice (memcpy (cells b) (0 + k) (text ++ rest)) 0
    (k + (text ++ rest).length) (k + text.length)
  rw [hall, Nat.min_eq_left (by rw [List.length_append]; omega), List.take_append, length_slice,
    Nat.add_sub_cancel_left, List.take_of_length_le (by rw [length_slice]; omega),
    List.take_append_of_le_length (Nat.le_refl _), List.take_length, Nat.zero_add] at htake
  simp only [eventText, h, hnk, hk, cells_store, Int.toNat_natCast]
  exact htake.symm

theorem length_eventText {ab : AuditBuffer} {b : EventBuffer} (h : ab.hardlogEventBuffer = some b) :
    (eventText ab).length = ab.hardlogEventConsumed.toNat := by
  simp [eventText, h]

section Calls

variable {ab : AuditBuffer} {b : EventBuffer} (hI : Inv ab b)
include hI

/-- **A call that fits** stores its text with a NUL behind it, or has no text and finds no space. -/
theorem run_of_takes {c : Call} (h : Takes ab.hardlogEventConsumed.toNat c) :
    callText c = [] ∧ c.run ab = ab ∨
      c.run ab =
        { ab with
          hardlogEventBuffer := some (b.store ab.hardlogEventConsumed (callText c ++ [0]))
          hardlogEventConsumed := ab.hardlogEventConsumed + (callText c).length } := by
  have h0 := hI.nonneg
  have h1 := hI.le
  cases c with
  | format text =>
    simp only [Takes, callText, callLimit, Call.run] at h ⊢
    rw [hI.inRange.formatHardlog_spec]
    by_cases hc : ab.hardlogEventConsumed = 511
    · rw [if_pos hc]
      rcases h with h | h
      · exact Or.inl ⟨h, rfl⟩
      · exact absurd h (by omega)
    · have hle : (text.length : ℤ) ≤ 510 - ab.hardlogEventConsumed := by
        rcases h with rfl | h
        · simp; omega
        · omega
      rw [if_neg hc, int32_eq (x := text.length) (by omega) (by omega), if_pos (by omega),
        int32_eq (by omega) (by omega), stored, List.take_of_length_le (by omega)]
      exact Or.inr rfl
  | nString string slen =>
    have hlen := length_callText_nString string slen
    have hle : (slen.toNat : ℤ) + 3 ≤ 511 - ab.hardlogEventConsumed := by
      rcases h with h | h
      · simp [callText] at h
      · rw [hlen] at h
        simp only [callLimit] at h
        omega
    right
    rw [hlen]
    simp only [Call.run]
    rw [hI.inRange.nStringHardlog_spec, if_neg (by omega), int32_eq (by omega) (by omega),
      callText_nString_nul]
    rfl
  | nHex buf len =>
    have hlt := len.toNat_lt
    simp only [Takes, callText, callLimit, Call.run, length_hexText] at h ⊢
    have hr : 2 * hexRounds len.toNat ≤ 511 - ab.hardlogEventConsumed := by
      rcases h with h | h
      · have := congrArg List.length h
        rw [length_hexText, List.length_nil] at this
        omega
      · omega
    have hrounds : hexRounds len.toNat = len.toNat := by
      unfold hexRounds at hr ⊢
      split_ifs at hr ⊢ <;> omega
    rw [hrounds] at hr ⊢
    right
    rw [hI.inRange.nHexHardlog_spec, if_neg (by omega), int32_eq (by omega) (by omega), hrounds]
    rw [Nat.cast_mul, Nat.cast_ofNat]

theorem eventText_run {c : Call} (h : Takes ab.hardlogEventConsumed.toNat c) :
    eventText (c.run ab) = eventText ab ++ callText c := by
  rcases run_of_takes hI h with ⟨hnil, heq⟩ | heq
  · rw [heq, hnil, List.append_nil]
  · rw [heq]
    exact eventText_store hI.buffer hI.nonneg rfl

theorem inv_run {c : Call} (h : Takes ab.hardlogEventConsumed.toNat c) : ∃ b', Inv (c.run ab) b' := by
  have h0 := hI.nonneg
  have h1 := hI.le
  rcases run_of_takes hI h with ⟨-, heq⟩ | heq
  · exact ⟨b, by rw [heq]; exact hI⟩
  · have hlim : callLimit c ≤ 511 := by cases c <;> simp [callLimit]
    have hlen : ((callText c ++ [0]).length : ℤ) = (callText c).length + 1 := by simp
    have hle : ab.hardlogEventConsumed + (callText c).length ≤ 511 := by
      rcases h with h | h
      · rw [h, List.length_nil]
        omega
      · omega
    rw [heq]
    exact ⟨_, hI.of_store rfl (by omega) hle (by omega) (by omega)⟩

theorem length_eventText_run (c : Call) :
    (eventText (c.run ab)).length = (c.run ab).hardlogEventConsumed.toNat := by
  suffices h : ∃ b', (c.run ab).hardlogEventBuffer = some b' by
    obtain ⟨b', hb'⟩ := h
    exact length_eventText hb'
  cases c with
  | format text =>
    simp only [Call.run]
    rw [hI.inRange.formatHardlog_spec]
    split_ifs <;> exact ⟨_, by first | exact hI.buffer | rfl⟩
  | nString string slen =>
    simp only [Call.run]
    rw [hI.inRange.nStringHardlog_spec]
    split_ifs <;> exact ⟨_, by first | exact hI.buffer | rfl⟩
  | nHex buf len =>
    simp only [Call.run]
    rw [hI.inRange.nHexHardlog_spec]
    split_ifs <;> exact ⟨_, by first | exact hI.buffer | rfl⟩

/-- A call that does not fit leaves another number of bytes consumed. -/
theorem consumed_run_ne {c : Call} (h : ¬ Takes ab.hardlogEventConsumed.toNat c) :
    (c.run ab).hardlogEventConsumed.toNat ≠
      ab.hardlogEventConsumed.toNat + (callText c).length := by
  have h0 := hI.nonneg
  have h1 := hI.le
  obtain ⟨hne, hlt⟩ := not_or.mp h
  have hpos : 0 < (callText c).length := List.length_pos_of_ne_nil hne
  cases c with
  | format text =>
    simp only [callText, callLimit] at hpos hlt ⊢
    simp only [Call.run]
    simp only [hI.inRange.formatHardlog_spec, apply_ite AuditBuffer.hardlogEventConsumed, int32]
    split_ifs <;> omega
  | nString string slen =>
    have h64 := slen.toNat_lt
    rw [length_callText_nString] at hlt ⊢
    simp only [callLimit] at hlt
    simp only [Call.run]
    simp only [hI.inRange.nStringHardlog_spec, apply_ite AuditBuffer.hardlogEventConsumed, int32]
    split_ifs <;> omega
  | nHex buf len =>
    have h64 := len.toNat_lt
    simp only [callText, callLimit, length_hexText] at hpos hlt ⊢
    simp only [Call.run]
    simp only [hI.inRange.nHexHardlog_spec, apply_ite AuditBuffer.hardlogEventConsumed, int32]
    unfold hexRounds at hpos hlt ⊢
    split_ifs at * <;> omega

theorem eventText_run_iff (c : Call) :
    eventText (c.run ab) = eventText ab ++ callText c ↔ Takes ab.hardlogEventConsumed.toNat c := by
  constructor
  · intro h
    by_contra hn
    refine consumed_run_ne hI hn ?_
    rw [← length_eventText_run hI, h, List.length_append, length_eventText hI.buffer]
  · exact eventText_run hI

end Calls

end HardLog.Host.EventText
