import HardLog.Device.Gadget

/-! # Where a WRITE goes

Each of the three arms of `do_scsi_command` for a WRITE has `check_command_size_in_blocks` look at
the command first, then compares the name of the current LUN, and only then looks at the reply.
`dispatched_iff` says when an arm does no harm and sends the command where it belongs: whenever the
command is for a LUN that there is. `check_command_size_in_blocks` is an argument. -/

namespace HardLog.Device.Dispatch

open HardLog.Device.Gadget

/-- What an arm passes to `check_command_size_in_blocks`, besides the direction, which is always from
the host, and the medium, which is always needed. -/
structure CheckArgs where
  cmndSize : ℕ
  mask : ℕ
  name : String

/-- What becomes of a command: an arm of `do_scsi_command` calls `do_hardlog_write` or `do_write`,
neither of them, or dereferences a null `curlun`. -/
inductive Route where
  | doHardlogWrite
  | doWrite
  | rejected
  | oops
  deriving DecidableEq

/-- What the three arms share. -/
def writeArm (cfg : Config) (c : FsgCommon) (reply : ℤ) : Route :=
  match cfg.luns c.lun with
  | none => .oops
  | some curlun =>
    let logdata := curlun.name == "lun0"
    if reply = 0 then
      if cfg.faststorage && logdata then .doHardlogWrite else .doWrite
    else .rejected

section Arms

variable (cfg : Config) (check : CheckArgs → FsgCommon → ℤ) (c : FsgCommon)

/-- `case WRITE_6`, with the reply of the check. -/
def write6Arm : ℤ × Route :=
  let reply := check ⟨6, 7 <<< 1 ||| 1 <<< 4, "WRITE(6)"⟩ c
  (reply, writeArm cfg c reply)

/-- `case WRITE_10`. -/
def write10Arm : ℤ × Route :=
  let reply := check ⟨10, 1 <<< 1 ||| 0xf <<< 2 ||| 3 <<< 7, "WRITE(10)"⟩ c
  (reply, writeArm cfg c reply)

/-- `case WRITE_12`. -/
def write12Arm : ℤ × Route :=
  let reply := check ⟨12, 1 <<< 1 ||| 0xf <<< 2 ||| 0xf <<< 6, "WRITE(12)"⟩ c
  (reply, writeArm cfg c reply)

/-- The arm of a WRITE, if the command is one. -/
def scsiWrite : Option (ℤ × Route) :=
  if c.cmnd 0 = write6 then some (write6Arm cfg check c)
  else if c.cmnd 0 = write10 then some (write10Arm cfg check c)
  else if c.cmnd 0 = write12 then some (write12Arm cfg check c)
  else none

end Arms

/-- **Safe and exact**: nothing null is dereferenced, a rejected command is not written, and an accepted
one goes to `do_hardlog_write` if `faststorage` is on and its LUN is `lun0`, and else to
`do_write`. -/
structure Dispatched (cfg : Config) (c : FsgCommon) (reply : ℤ) (r : Route) : Prop where
  safe : r ≠ .oops
  rejected : reply ≠ 0 → r ≠ .doHardlogWrite ∧ r ≠ .doWrite
  hardlog_iff : reply = 0 → (r = .doHardlogWrite ↔ cfg.faststorage = true ∧ c.lun = 0)
  write_iff : reply = 0 → (r = .doWrite ↔ ¬ (cfg.faststorage = true ∧ c.lun = 0))

variable {cfg : Config} {check : CheckArgs → FsgCommon → ℤ} {c : FsgCommon}

theorem scsiWrite_eq {reply : ℤ} {r : Route} (h : scsiWrite cfg check c = some (reply, r)) :
    r = writeArm cfg c reply := by
  unfold scsiWrite write6Arm write10Arm write12Arm at h
  split_ifs at h <;> obtain ⟨rfl, rfl⟩ := Prod.mk.inj (Option.some.inj h) <;> rfl

theorem name_eq_lun0_iff {i : ℕ} {lun : FsgLun} (h : cfg.luns i = some lun) :
    lun.name = "lun0" ↔ i = 0 := by
  rw [cfg.name_eq i lun h]
  constructor
  · intro heq
    have hchars : ("lun" ++ toString i).toList = "lun".toList ++ Nat.toDigits 10 0 :=
      congrArg String.toList heq
    rw [String.toList_append, Nat.toString_eq_repr, Nat.toList_repr] at hchars
    have hdigits := List.append_cancel_left hchars
    rw [← Nat.ofDigitChars_ten_toDigits (n := i), hdigits, Nat.ofDigitChars_ten_toDigits]
  · rintro rfl
    decide

theorem doScsiCommand_eq (cfg : Config) (c : FsgCommon) (reply : ℤ) :
    doScsiCommand cfg c reply =
      match writeArm cfg c reply with
      | .oops => .oops
      | .rejected => .idle
      | .doWrite => .doWrite
      | .doHardlogWrite => ((cfg.luns c.lun).map fun curlun => doHardlogWrite c curlun).getD .oops := by
  unfold doScsiCommand writeArm
  rcases hl : cfg.luns c.lun with _ | curlun
  · rfl
  · simp only
    split_ifs <;> rfl

/-- **The dispatch** of any WRITE, whatever the check says: it is safe and exact exactly if the
command's LUN is configured. -/
theorem dispatched_iff {reply : ℤ} {r : Route} (h : scsiWrite cfg check c = some (reply, r)) :
    Dispatched cfg c reply r ↔ (cfg.luns c.lun).isSome = true := by
  rw [scsiWrite_eq h]
  unfold writeArm
  cases hl : cfg.luns c.lun with
  | none => exact ⟨fun hd => absurd rfl hd.safe, fun hs => absurd hs (by simp)⟩
  | some curlun =>
    have hname := name_eq_lun0_iff hl
    refine iff_of_true ?_ rfl
    by_cases hreply : reply = 0
    · by_cases hroute : cfg.faststorage = true ∧ c.lun = 0
      · have hcond : (cfg.faststorage && curlun.name == "lun0") = true := by
          simp [hroute.1, hname.mpr hroute.2]
        simp only [if_pos hreply, hcond, if_true]
        exact ⟨by decide, fun hne => absurd hreply hne, fun _ => by simp [hroute],
          fun _ => by simp [hroute]⟩
      · have hcond : (cfg.faststorage && curlun.name == "lun0") = false := by
          rw [Bool.and_eq_false_iff, beq_eq_false_iff_ne, ne_eq, hname]
          by_contra hc
          rw [not_or, not_not, Bool.not_eq_false] at hc
          exact hroute hc
        simp only [if_pos hreply, hcond]
        exact ⟨by decide, fun hne => absurd hreply hne, fun _ => by simp [hroute],
          fun _ => by simp [hroute]⟩
    · simp only [if_neg hreply]
      exact ⟨by decide, fun _ => ⟨by decide, by decide⟩, fun h0 => absurd h0 hreply,
        fun h0 => absurd h0 hreply⟩

/-- A command block with a given opcode, for a given LUN. -/
def commandFor (opcode : UInt8) (lun : ℕ) : FsgCommon where
  cmnd i := if i = 0 then opcode else 0
  lun
  buffhds _ := ⟨fun _ => 0, .empty, 0, 0, 0, Nat.zero_le _⟩
  nextBuffhdToFill := 0
  nextBuffhdToDrain := 0
  dataSizeFromCmnd := 512
  residue := 512
  usbAmountLeft := 512
  shortPacketReceived := false

/-- A device with the one LUN of the log. -/
def oneLun : Config where
  faststorage := true
  fsgNumBuffers := 2
  luns i := if i = 0 then some ⟨"lun0", false, 2048, 1048576, 9⟩ else none
  name_eq i lun h := by
    obtain ⟨rfl, h⟩ := Option.ite_none_right_eq_some.mp h
    exact Option.some.inj h ▸ rfl

/-- An accepted WRITE(10) to `lun0` goes to `do_hardlog_write`. -/
theorem dispatched_lun0 : Dispatched oneLun (commandFor write10 0) 0 .doHardlogWrite := by
  have h : scsiWrite oneLun (fun _ _ => 0) (commandFor write10 0) = some (0, .doHardlogWrite) := by
    decide
  exact (dispatched_iff h).mpr rfl

/-- A WRITE(10) to a LUN that is not configured is rejected by the check, but the name of that LUN is
looked at all the same. -/
theorem unconfigured_lun_oops :
    ∃ r, scsiWrite oneLun (fun _ c => if (oneLun.luns c.lun).isSome then 0 else -22)
        (commandFor write10 5) = some (-22, r) ∧ r = .oops ∧
      ¬ Dispatched oneLun (commandFor write10 5) (-22) r :=
  ⟨.oops, by decide, rfl, fun h => h.safe rfl⟩

end HardLog.Device.Dispatch
