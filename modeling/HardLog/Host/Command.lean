import HardLog.Host.Mailbox
import HardLog.Lib.Printf

/-! # The way of a command

A command reaches the device as the first line of the command file. SENDREQUEST hands `hreq.data`
to `snprintf` as the format, with no arguments behind it. `transported_iff`: the device reads the
command exactly if it has no percent sign in it. -/

namespace HardLog.Host.Command

open HardLog.Lib.CString HardLog.Lib.Printf HardLog.Device.Response HardLog.Host.Mailbox

/-- The line that `handle_command` gets from the command file. -/
def handleCommandLine (comm : List UInt8) : List UInt8 := (lines comm).headD []

/-- SENDREQUEST of a command. `arg` is what the conversions render to, there being no arguments. -/
def send (arg : ℕ → List UInt8 → List UInt8) (s : Exchange) (command : List UInt8) : Exchange :=
  s.sendRequest command
    (vsprintf arg (cstr (s.hreqData.snprintf (cstr command ++ [10])).bytes))

/-- Whatever conversions render to, the device reads the command. -/
def Transported (s : Exchange) (command : List UInt8) : Prop :=
  ∀ arg, handleCommandLine (send arg s command).comm = command

/-- No NUL, no newline, and at most 510 bytes. -/
structure IsCommand (command : List UInt8) : Prop where
  nul : 0 ∉ command
  newline : 10 ∉ command
  length_le : command.length ≤ 510

/-! ### The first line -/

theorem handleCommandLine_eq (comm : List UInt8) :
    handleCommandLine comm = comm.takeWhile (· ≠ 10) := by
  unfold handleCommandLine
  induction comm with
  | nil => rfl
  | cons c cs ih =>
    rw [lines]
    by_cases hc : c = 10
    · rw [if_pos hc, hc]
      rfl
    · rw [if_neg hc, List.takeWhile_cons, if_pos (by simpa using hc), ← ih]
      cases lines cs <;> rfl

theorem handleCommandLine_append (text rest : List UInt8) :
    handleCommandLine (text ++ rest) <+: text ∨ text <+: handleCommandLine (text ++ rest) := by
  rw [handleCommandLine_eq, List.takeWhile_append]
  split_ifs
  · exact Or.inr (List.prefix_append _ _)
  · exact Or.inl (List.takeWhile_prefix _)

/-- **The command file** after a request begins with the rendering and a NUL, or with the 512 bytes of
it that are sent. -/
theorem comm_sendRequest (s : Exchange) (command rendered : List UInt8) :
    (∃ rest, (s.sendRequest command rendered).comm = rendered ++ 0 :: rest) ∨
      512 ≤ rendered.length ∧
        ∃ rest, (s.sendRequest command rendered).comm = rendered.take 512 ++ rest := by
  have hle : (rendered.take (4096 - 1) ++ [0]).length ≤ 4096 := by
    rw [List.length_append, List.length_take, List.length_singleton]
    omega
  have hbytes := s.requestBuffer.bytes_overwrite hle
  simp only [Exchange.sendRequest, bioWriteRequestFile, writeFront, Buffer.snprintf, hbytes]
  by_cases hlen : 512 ≤ rendered.length
  · refine Or.inr ⟨hlen, ?_⟩
    rw [List.append_assoc, List.take_append_of_le_length (by rw [List.length_take]; omega),
      List.take_take, Nat.min_eq_left (by decide)]
    exact ⟨_, rfl⟩
  · left
    have htake : rendered.take (4096 - 1) = rendered := List.take_of_length_le (by omega)
    rw [htake, List.append_assoc, List.take_append, List.take_of_length_le (by omega),
      List.append_assoc, List.singleton_append, List.take_cons (by omega)]
    exact ⟨_, rfl⟩

section Send

variable {command : List UInt8} (h : IsCommand command) (s : Exchange)
  (arg : ℕ → List UInt8 → List UInt8)
include h

theorem format_eq : cstr (s.hreqData.snprintf (cstr command ++ [10])).bytes = command ++ [10] := by
  have hnul : ∀ b ∈ command ++ [10], b ≠ 0 := by
    intro b hb h0
    rcases List.mem_append.mp hb with hb | hb
    · exact h.nul (h0 ▸ hb)
    · rw [List.mem_singleton.mp hb] at h0
      exact absurd h0 (by decide)
  have hlen := h.length_le
  have hcmd : cstr command = command := by
    have hfree : ∀ b ∈ command, b ≠ 0 := fun b hb => hnul b (List.mem_append_left _ hb)
    simpa [cstr] using cstr_append hfree []
  have hline := s.hreqData.cstr_snprintf (by decide) (command ++ [10]) []
  rw [List.append_nil, List.take_of_length_le (by simp; omega)] at hline
  have hall := cstr_append hnul []
  rw [List.append_nil] at hall
  rw [hcmd, hline, hall]
  exact List.append_nil _

/-- **A command with a percent sign** is not what the device reads, unless an argument happens to
render to one. -/
theorem line_ne (hp : percent ∈ command) (harg : ∀ k spec, percent ∉ arg k spec) :
    handleCommandLine (send arg s command).comm ≠ command := by
  intro heq
  have hfmt := format_eq h s
  have hfewer := (count_render harg (command ++ [10]).length 0 (command ++ [10])).2
    (List.count_pos_iff.mpr (List.mem_append_left _ hp))
  have hten : (command ++ [10]).count percent = command.count percent := by
    rw [List.count_append]
    rfl
  have hlen := h.length_le
  unfold send vsprintf at heq
  rw [hfmt] at heq
  rw [hten] at hfewer
  generalize render arg (command ++ [10]).length 0 (command ++ [10]) = rendered at heq hfewer
  -- a line that ends in the rendering has too few percent signs
  have hprefix : ¬ command <+: rendered := fun hpre =>
    absurd (hpre.sublist.count_le percent) (by omega)
  rcases comm_sendRequest s command rendered with ⟨rest, hcomm⟩ | ⟨hlong, rest, hcomm⟩
  · rw [hcomm, List.append_cons] at heq
    rcases handleCommandLine_append (rendered ++ [0]) rest with hpre | hpre
    · rw [heq] at hpre
      rcases List.prefix_concat_iff.mp hpre with hpre | hpre
      · exact h.nul (by rw [hpre]; simp)
      · exact hprefix hpre
    · rw [heq] at hpre
      exact h.nul (hpre.subset (by simp))
  · rw [hcomm] at heq
    rcases handleCommandLine_append (rendered.take 512) rest with hpre | hpre
    · rw [heq] at hpre
      exact hprefix (hpre.trans (List.take_prefix _ _))
    · rw [heq] at hpre
      have := hpre.length_le
      rw [List.length_take] at this
      omega

theorem line_eq (hp : percent ∉ command) :
    handleCommandLine (send arg s command).comm = command := by
  have hplain : percent ∉ command ++ [10] := by
    rw [List.mem_append, List.mem_singleton, not_or]
    exact ⟨hp, by decide⟩
  have hfmt := format_eq h s
  have hlen := h.length_le
  have hrender : render arg (command ++ [10]).length 0 (command ++ [10]) = command ++ [10] :=
    render_plain (Nat.le_refl _) hplain
  unfold send vsprintf
  rw [hfmt, hrender]
  have hne : ∀ b ∈ command, decide (b ≠ 10) = true := fun b hb =>
    decide_eq_true fun h10 => h.newline (h10 ▸ hb)
  rcases comm_sendRequest s command (command ++ [10]) with ⟨rest, hcomm⟩ | ⟨hlong, -⟩
  · rw [hcomm, handleCommandLine_eq, List.append_assoc, List.takeWhile_append_of_pos hne]
    simp
  · rw [List.length_append, List.length_singleton] at hlong
    omega

/-- **The way of a command**: with any residue in `hreq.data`, the request buffer and the command
file, the device reads a command whatever its conversions render to exactly if it has no percent
sign. -/
theorem transported_iff : Transported s command ↔ percent ∉ command := by
  constructor
  · intro ht hp
    exact line_ne h s (fun _ _ => []) hp (fun _ _ => List.not_mem_nil) (ht _)
  · exact fun hp arg => line_eq h s arg hp

end Send

/-- `ALL` is transported. -/
theorem transported_all :
    Transported (start (zeros _) (zeros _) (zeros _) (zeros _) []) (ofChars "ALL".toList) :=
  (transported_iff ⟨by decide, by decide, by decide⟩ _).mpr (by decide)

/-- `A%%B` is read as `A%B`, with no argument involved. -/
theorem percent_percent_not_transported :
    IsCommand (ofChars "A%%B".toList) ∧
      ¬ Transported (start (zeros _) (zeros _) (zeros _) (zeros _) []) (ofChars "A%%B".toList) := by
  have hcmd : IsCommand (ofChars "A%%B".toList) := ⟨by decide, by decide, by decide⟩
  exact ⟨hcmd, fun ht => line_ne hcmd _ (fun _ _ => []) (by decide) (fun _ _ => List.not_mem_nil)
    (ht _)⟩

end HardLog.Host.Command
