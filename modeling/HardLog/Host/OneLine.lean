import HardLog.Host.EventText
import HardLog.Lib.CString
import HardLog.Lib.Runs

/-! # One line for each record

`audit_log_end_hardlog` appends the newline with a `snprintf` whose size is the space left, and adds
its return value to what is consumed. With one byte left that byte becomes the NUL, with none left
nothing is stored, and in both cases the record is a byte longer. `oneLine_iff`: a record of an event
that was built without truncation is its content and a newline exactly up to 509 bytes. -/

namespace HardLog.Host.OneLine

open HardLog.Lib.CString HardLog.Lib.Memory HardLog.Lib.Runs HardLog.Host.Event
open HardLog.Host.EventBounds HardLog.Host.EventText

/-- Neither dropped nor truncated. -/
def Untruncated (ab : AuditBuffer) (c : Call) : Prop := Takes ab.hardlogEventConsumed.toNat c

/-- The content that calls have to add. -/
def content (calls : List Call) : List UInt8 := calls.flatMap callText

/-- The bytes copied into the ring are the content and a newline, so that the lines of whatever is
copied next begin behind them. -/
def IsLine (ab : AuditBuffer) (text : List UInt8) : Prop :=
  (auditLogEndNewline ab).record = text ++ [10] ∧
    ∀ next, lines ((auditLogEndNewline ab).record ++ next) =
      lines (auditLogEndNewline ab).record ++ lines next

/-- Behind what is consumed there is a NUL, unless nothing is. -/
def Terminated (ab : AuditBuffer) : Prop :=
  ∀ b, ab.hardlogEventBuffer = some b →
    ab.hardlogEventConsumed = 0 ∨ b.byte ab.hardlogEventConsumed = 0

theorem store_byte_last (b : EventBuffer) (off : ℤ) (text : List UInt8) (x : UInt8) :
    (b.store off (text ++ [x])).byte (off + text.length) = x := by
  have hlt : text.length < (text ++ [x]).length := by simp
  rw [store_byte_add b off hlt, List.getElem_concat_length rfl]

section Build

variable {ab : AuditBuffer} {b : EventBuffer}

theorem terminated_run (hI : Inv ab b) (ht : Terminated ab) {c : Call} (h : Untruncated ab c) :
    Terminated (c.run ab) := by
  rcases run_of_takes hI h with ⟨-, heq⟩ | heq
  · rwa [heq]
  · rw [heq]
    rintro b' hb'
    obtain rfl := Option.some.inj hb'
    exact Or.inr (store_byte_last b _ (callText c) 0)

/-- **A whole event** that is built without truncation holds its content. -/
theorem foldl_untruncated (hI : Inv ab b) (ht : Terminated ab) {calls : List Call}
    (h : EachStep buildStep Untruncated ab calls) :
    (∃ b', Inv (calls.foldl Call.run ab) b') ∧ Terminated (calls.foldl Call.run ab) ∧
      eventText (calls.foldl Call.run ab) = eventText ab ++ content calls := by
  induction calls generalizing ab b with
  | nil => exact ⟨⟨b, hI⟩, ht, (List.append_nil _).symm⟩
  | cons c calls ih =>
    obtain ⟨hc, hrest⟩ := h _ rfl
    obtain ⟨b', hI'⟩ := inv_run hI hc
    obtain ⟨hinv, hterm, htext⟩ := ih hI' (terminated_run hI ht hc) hrest
    refine ⟨hinv, hterm, ?_⟩
    rw [eventText_run hI hc, List.append_assoc] at htext
    exact htext

end Build

/-! ### The newline -/

theorem record_eq_eventText {ab : AuditBuffer} (h0 : 0 ≤ ab.hardlogEventConsumed)
    (h1 : ab.hardlogEventConsumed < 2 ^ 64) : ab.record = eventText ab := by
  have hu := HardLog.Lib.CInt.u64_of_nonneg h0 h1
  unfold AuditBuffer.record eventText
  cases ab.hardlogEventBuffer with
  | none => rfl
  | some b =>
    have hlen : ab.recordLen = ab.hardlogEventConsumed.toNat := by
      unfold AuditBuffer.recordLen
      omega
    simp [slice, cells, hlen]

/-- **The copied bytes**: the newline stands behind the content if there were two bytes left for it;
otherwise there is a NUL in its place. -/
theorem record_endNewline {ab : AuditBuffer} {b : EventBuffer} (hI : Inv ab b) (ht : Terminated ab) :
    (auditLogEndNewline ab).record =
      eventText ab ++ [if (eventText ab).length ≤ 509 then 10 else 0] := by
  have h0 := hI.nonneg
  have h1 := hI.le
  have hlen := length_eventText hI.buffer
  have hscan : ∀ n : ℤ, 0 ≤ n → eventText
      { ab with hardlogEventBuffer := some (b.load 0 (b.strlen + 1)), hardlogEventConsumed := n } =
        slice (cells b) 0 n.toNat := fun _ _ => rfl
  rw [record_eq_eventText] <;> rw [hI.endNewline_spec]
  rotate_left
  · exact Int.le_add_one h0
  · simp only
    omega
  have htext : eventText ab = slice (cells b) 0 ab.hardlogEventConsumed.toNat := by
    simp [eventText, hI.buffer]
  by_cases hfull : ab.hardlogEventConsumed = 511
  · rw [if_pos hfull, hscan _ (by omega), if_neg (by omega), htext, hfull]
    have hnul : b.byte 511 = 0 := by
      have := ht b hI.buffer
      rw [hfull] at this
      exact this.resolve_left (by decide)
    change slice (cells b) 0 (511 + 1) = slice (cells b) 0 511 ++ [0]
    rw [slice_add]
    exact congrArg (slice (cells b) 0 511 ++ [·]) hnul
  · rw [if_neg hfull]
    obtain ⟨ab', hab'⟩ : ∃ ab' : AuditBuffer,
        ab' = { ab with hardlogEventBuffer := some (b.load 0 (b.strlen + 1)) } := ⟨_, rfl⟩
    have hbuf : ab'.hardlogEventBuffer = some (b.load 0 (b.strlen + 1)) := by rw [hab']
    have hload : eventText ab' = eventText ab := by
      rw [hab']
      simp only [eventText, hI.buffer]
      rfl
    by_cases h509 : (eventText ab).length ≤ 509
    · have hst : stored ab [10] = [10] ++ [0] := by
        rw [stored, List.take_of_length_le (by simp; omega)]
      rw [if_pos h509, hst, ← hload]
      subst hab'
      exact eventText_store hbuf h0 rfl
    · have hst : stored ab [10] = [0] ++ [] := by
        rw [stored, show (510 - ab.hardlogEventConsumed).toNat = 0 by omega]
        rfl
      rw [if_neg h509, hst, ← hload]
      subst hab'
      exact eventText_store hbuf h0 rfl

theorem record_of_format (ab : AuditBuffer) (garbage : ℤ → UInt8) {text : List UInt8}
    (h : text.length ≤ 510) :
    EachStep buildStep Untruncated (auditLogStartHardlog ab (some garbage)) [.format text] ∧
      (auditLogEndNewline ((Call.format text).run (auditLogStartHardlog ab (some garbage)))).record =
        text ++ [if text.length ≤ 509 then 10 else 0] := by
  have hstart : Terminated (auditLogStartHardlog ab (some garbage)) := fun _ _ => Or.inl rfl
  have htakes : Untruncated (auditLogStartHardlog ab (some garbage)) (.format text) :=
    Or.inr (show 0 + text.length ≤ 510 by omega)
  have hI := start_inv ab garbage
  obtain ⟨b, hI'⟩ := inv_run hI htakes
  have htext := eventText_run hI htakes
  rw [show eventText (auditLogStartHardlog ab (some garbage)) = [] from rfl] at htext
  refine ⟨fun _ _ => ⟨htakes, trivial⟩, ?_⟩
  rw [record_endNewline hI' (terminated_run hI hstart htakes), htext]
  rfl

/-- **One line**: the record of an event built by any calls without truncation is its content and a
newline exactly if the content has at most 509 bytes. -/
theorem oneLine_iff (ab : AuditBuffer) (garbage : ℤ → UInt8) {calls : List Call}
    (h : EachStep buildStep Untruncated (auditLogStartHardlog ab (some garbage)) calls) :
    IsLine (calls.foldl Call.run (auditLogStartHardlog ab (some garbage))) (content calls) ↔
      (content calls).length ≤ 509 := by
  have hstart : Terminated (auditLogStartHardlog ab (some garbage)) := fun _ _ => Or.inl rfl
  obtain ⟨⟨b, hI⟩, hterm, htext⟩ := foldl_untruncated (start_inv ab garbage) hstart h
  have hrec := record_endNewline hI hterm
  have hnil : eventText (auditLogStartHardlog ab (some garbage)) = [] := rfl
  rw [htext, hnil, List.nil_append] at hrec
  unfold IsLine
  rw [hrec]
  by_cases hle : (content calls).length ≤ 509
  · rw [if_pos hle]
    refine iff_of_true ⟨rfl, fun next => ?_⟩ hle
    rw [List.append_assoc, List.singleton_append]
    exact lines_append_newline (content calls) next
  · rw [if_neg hle]
    refine iff_of_false ?_ hle
    rintro ⟨heq, -⟩
    exact absurd (List.append_cancel_left heq) (by decide)

/-- A record of 100 letters is a line. -/
theorem oneLine_100_letters :
    IsLine ((Call.format (List.replicate 100 65)).run
      (auditLogStartHardlog ⟨none, none, 0⟩ (some fun _ => 0))) (List.replicate 100 65) := by
  have hlen : (List.replicate 100 (65 : UInt8)).length = 100 := List.length_replicate
  have hcontent : content [.format (List.replicate 100 65)] = List.replicate 100 65 :=
    List.append_nil _
  have h := oneLine_iff ⟨none, none, 0⟩ (fun _ => 0)
    (record_of_format _ _ (show (List.replicate 100 65).length ≤ 510 by omega)).1
  rw [hcontent, hlen] at h
  exact h.mpr (by decide)

/-- A record of 510 letters, which the format call takes, ends in a NUL. -/
theorem record_of_510_not_line :
    EachStep buildStep Untruncated (auditLogStartHardlog ⟨none, none, 0⟩ (some fun _ => 0))
        [.format (List.replicate 510 65)] ∧
      ¬ IsLine ((Call.format (List.replicate 510 65)).run
        (auditLogStartHardlog ⟨none, none, 0⟩ (some fun _ => 0))) (List.replicate 510 65) := by
  have hlen : (List.replicate 510 (65 : UInt8)).length = 510 := List.length_replicate
  obtain ⟨htakes, hrec⟩ := record_of_format ⟨none, none, 0⟩ (fun _ => 0) hlen.le
  refine ⟨htakes, ?_⟩
  rintro ⟨h, -⟩
  rw [h, hlen] at hrec
  have hlast := List.append_cancel_left hrec
  exact absurd hlast (by decide)

end HardLog.Host.OneLine
