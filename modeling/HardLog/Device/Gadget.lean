import HardLog.Device.Cbuff

/-! # The mass-storage gadget

The main thread of the gadget takes the host's SCSI commands. `do_scsi_command` sends a WRITE to
`do_hardlog_write` or to the kernel's `do_write`, by the name of its LUN; `do_hardlog_write` receives
the data in buffers that the USB controller fills and copies each of them into `data_cbuff`. Beside
it run the flusher and, for the device library, the REQUEST ioctl. What the kernel code around them
does is an argument of the step: the result of `check_command_size_in_blocks`, the outcome of a
transfer, what `do_write` makes of its LUN's file. -/

namespace HardLog.Device.Gadget

open HardLog.Lib.CInt HardLog.Lib.Memory HardLog.Lib.Files HardLog.Lib.Runs
open HardLog.Device.Cbuff

/-- `WRITE_6`. -/
def write6 : UInt8 := 0x0a
/-- `WRITE_10`. -/
def write10 : UInt8 := 0x2a
/-- `WRITE_12`. -/
def write12 : UInt8 := 0xaa

/-- `FSG_BUFLEN`. -/
def fsgBuflen : ℕ := 16384

/-- `struct fsg_lun`. -/
structure FsgLun where
  name : String
  ro : Bool
  numSectors : ℕ
  fileLength : ℤ
  blkbits : ℕ

/-- `enum fsg_buffer_state`. -/
inductive BufState where
  | empty
  | full
  | busy

/-- `struct fsg_buffhd`, with the `status` and `actual` of its `outreq`. No more is ever asked for than
`buf` has place for. -/
structure FsgBuffhd where
  buf : ℕ → UInt8
  state : BufState
  bulkOutIntendedLength : ℕ
  status : ℤ
  actual : ℕ
  intended_le : bulkOutIntendedLength ≤ fsgBuflen

/-- `struct fsg_common`; `lun` is the number of `curlun`, a buffer head its place in `buffhds`. -/
structure FsgCommon where
  cmnd : ℕ → UInt8
  lun : ℕ
  buffhds : ℕ → FsgBuffhd
  nextBuffhdToFill : ℕ
  nextBuffhdToDrain : ℕ
  dataSizeFromCmnd : ℕ
  residue : ℕ
  usbAmountLeft : ℕ
  shortPacketReceived : Bool

/-- How the gadget is set up. The names are those `fsg_common_create_luns` gives. -/
structure Config where
  faststorage : Bool
  fsgNumBuffers : ℕ
  luns : ℕ → Option FsgLun
  name_eq : ∀ i lun, luns i = some lun → lun.name = "lun" ++ toString i

/-- The variables of `do_hardlog_write`. -/
structure Vars where
  usbOffset : ℤ
  fileOffset : ℤ
  amountLeftToReq : ℕ
  amountLeftToWrite : ℕ
  getSomeMore : Bool

/-- Where the main thread is. -/
inductive MainPc where
  | idle
  /-- At the head of the loop of `do_hardlog_write`. -/
  | loop (v : Vars)
  /-- While `amount` bytes of `bh` are copied into `data_cbuff`, and right behind that. -/
  | copying (v : Vars) (bh : FsgBuffhd) (amount : ℕ)
  | doWrite
  /-- A null `curlun` was dereferenced. -/
  | oops

/-- `struct hardlog_ioctl_request`. -/
structure HardlogIoctlRequest where
  serverRequest : Bool
  logFileStartOffset : ℕ
  logFileEndOffset : ℕ

/-- Where the REQUEST ioctl is. -/
inductive IoctlPc where
  | idle
  /-- With the flag in the reply, at the offsets. -/
  | offsets (serverRequest : Bool)
  /-- At `copy_to_user`. -/
  | copyToUser (hreq : HardlogIoctlRequest)
  /-- At the test of `server_request`. -/
  | test
  /-- At `server_request = false`. -/
  | clear

/-- A reply the library got, and how many bytes had been written to the log file. -/
structure Report where
  hreq : HardlogIoctlRequest
  written : ℕ

/-- The device: the ring with the log file of LUN 0, and the files of the other LUNs. -/
structure GadgetState where
  store : Store
  lunFile : ℕ → ℕ → UInt8
  common : FsgCommon
  main : MainPc
  serverRequest : Bool
  ioctl : IoctlPc
  reports : List Report

/-- What the kernel code that the main thread calls does in a step: whether `start_out_transfer`
succeeds, a signal is pending, what `sleep_thread` returns; and in `do_write` what the file of the
LUN becomes and whether the function returns, at its end or by an error. -/
structure Env where
  started : Bool
  signal : Bool
  sleepRc : ℤ
  newBytes : ℕ → UInt8
  returns : Bool
  atEnd : Bool

/-- A command arrives, the main thread takes a step, a transfer into a buffer ends, the flusher takes
a step, the ioctl takes a step. -/
inductive Action where
  | command (common : FsgCommon) (reply : ℤ)
  | main (env : Env)
  | complete (i : ℕ) (buf : ℕ → UInt8) (status : ℤ) (actual : ℕ)
  | flusher (len : ℤ)
  | ioctl (copied : Bool)

/-! ### `do_hardlog_write` -/

/-- The logical block address of the command. -/
def FsgCommon.lba (c : FsgCommon) : ℕ :=
  if c.cmnd 0 = write6 then (c.cmnd 1).toNat * 2 ^ 16 + (c.cmnd 2).toNat * 2 ^ 8 + (c.cmnd 3).toNat
  else
    (c.cmnd 2).toNat * 2 ^ 24 + (c.cmnd 3).toNat * 2 ^ 16 + (c.cmnd 4).toNat * 2 ^ 8 +
      (c.cmnd 5).toNat

/-- The checks of `do_hardlog_write` and its way to the loop. -/
def doHardlogWrite (c : FsgCommon) (curlun : FsgLun) : MainPc :=
  if curlun.ro then .idle
  else if c.cmnd 0 ≠ write6 ∧ c.cmnd 1 &&& 0xe7 ≠ 0 then .idle
  else if curlun.numSectors ≤ c.lba then .idle
  else
    let fileOffset : ℤ := c.lba * 2 ^ curlun.blkbits
    .loop ⟨fileOffset, fileOffset, c.dataSizeFromCmnd, c.dataSizeFromCmnd, true⟩

/-- The place behind buffer head `i`. -/
def Config.next (cfg : Config) (i : ℕ) : ℕ := (i + 1) % cfg.fsgNumBuffers

/-- The common data with one buffer head changed. -/
def FsgCommon.setBuffhd (c : FsgCommon) (i : ℕ) (bh : FsgBuffhd) : FsgCommon :=
  { c with buffhds := fun j => if j = i then bh else c.buffhds j }

/-- The amount of a received buffer that is taken: what the file has place for, at most what was asked
for, in whole blocks. -/
def amountOf (curlun : FsgLun) (v : Vars) (bh : FsgBuffhd) : ℕ :=
  let room := curlun.fileLength - v.fileOffset
  let amount := if room < bh.actual then (room % 2 ^ 32).toNat else bh.actual
  let amount := min amount bh.bulkOutIntendedLength
  amount - amount % 2 ^ curlun.blkbits

/-- The test at `empty_write`: a short packet ends the loop. -/
def emptyWrite (c : FsgCommon) (v : Vars) (bh : FsgBuffhd) : FsgCommon × MainPc :=
  if bh.actual < bh.bulkOutIntendedLength then ({ c with shortPacketReceived := true }, .idle)
  else (c, .loop v)

/-- A buffer is queued for more data from the host. -/
def queueRequest (cfg : Config) (env : Env) (curlun : FsgLun) (c : FsgCommon) (v : Vars) :
    FsgCommon × MainPc :=
  let bh := c.buffhds c.nextBuffhdToFill
  let amount := min v.amountLeftToReq fsgBuflen
  if curlun.fileLength ≤ v.usbOffset then (c, .loop { v with getSomeMore := false })
  else
    let left := sub32 v.amountLeftToReq amount
    let v' := { v with
      usbOffset := v.usbOffset + amount
      amountLeftToReq := left
      getSomeMore := if left = 0 then false else v.getSomeMore }
    let bh' := { bh with
      bulkOutIntendedLength := amount
      intended_le := Nat.min_le_right _ _ }
    let c' := { c with usbAmountLeft := sub32 c.usbAmountLeft amount }
    if !env.started then (c'.setBuffhd c.nextBuffhdToFill bh', .idle)
    else
      ({ c'.setBuffhd c.nextBuffhdToFill { bh' with state := .busy } with
          nextBuffhdToFill := cfg.next c.nextBuffhdToFill }, .loop v')

/-- A full buffer is taken. -/
def drainBuffer (cfg : Config) (curlun : FsgLun) (c : FsgCommon) (v : Vars) : FsgCommon × MainPc :=
  let bh := c.buffhds c.nextBuffhdToDrain
  let c' := { c.setBuffhd c.nextBuffhdToDrain { bh with state := .empty } with
    nextBuffhdToDrain := cfg.next c.nextBuffhdToDrain }
  if bh.status ≠ 0 then (c', .idle)
  else
    let amount := amountOf curlun v bh
    if amount = 0 then emptyWrite c' v bh else (c', .copying v bh amount)

/-- A round of the loop of `do_hardlog_write`, up to the copying. -/
def hardlogWriteRound (cfg : Config) (env : Env) (curlun : FsgLun) (c : FsgCommon) (v : Vars) :
    FsgCommon × MainPc :=
  if v.amountLeftToWrite = 0 then (c, .idle)
  else
    match (c.buffhds c.nextBuffhdToFill).state, v.getSomeMore with
    | .empty, true => queueRequest cfg env curlun c v
    | _, _ =>
      match (c.buffhds c.nextBuffhdToDrain).state, v.getSomeMore with
      | .empty, false => (c, .idle)
      | .full, _ => drainBuffer cfg curlun c v
      | _, _ => if env.sleepRc ≠ 0 then (c, .idle) else (c, .loop v)

/-- The round behind the copying. -/
def hardlogWriteRest (env : Env) (c : FsgCommon) (v : Vars) (bh : FsgBuffhd) (amount : ℕ) :
    FsgCommon × MainPc :=
  if env.signal then (c, .idle)
  else
    emptyWrite { c with residue := sub32 c.residue amount }
      { v with
        fileOffset := v.fileOffset + amount
        amountLeftToWrite := sub32 v.amountLeftToWrite amount } bh

/-! ### Commands -/

/-- `do_scsi_command` for a WRITE, with the reply of `check_command_size_in_blocks`. The name of the
LUN is looked at before the reply. -/
def doScsiCommand (cfg : Config) (c : FsgCommon) (reply : ℤ) : MainPc :=
  match cfg.luns c.lun with
  | none => .oops
  | some curlun =>
    let logdata := curlun.name == "lun0"
    if reply = 0 then
      if cfg.faststorage && logdata then doHardlogWrite c curlun else .doWrite
    else .idle

/-- A step of the kernel's `do_write` on the file of `curlun`; at its end a write to `lun1` is a
request. -/
def doWriteStep (cfg : Config) (env : Env) (s : GadgetState) : GadgetState :=
  let s' :=
    if s.common.lun = 0 then
      { s with store := { s.store with file := { s.store.file with bytes := env.newBytes } } }
    else { s with lunFile := fun i => if i = s.common.lun then env.newBytes else s.lunFile i }
  if !env.returns then s'
  else
    match cfg.luns s.common.lun with
    | none => { s' with main := .idle }
    | some curlun =>
      { s' with
        main := .idle
        serverRequest := s.serverRequest || (env.atEnd && curlun.name == "lun1") }

/-! ### Steps -/

/-- The device after the main thread went on in `do_hardlog_write`; a buffer that is to be copied
goes to the store. -/
def GadgetState.proceed (s : GadgetState) (r : FsgCommon × MainPc) : Option GadgetState :=
  match r.2 with
  | .copying v bh amount =>
    (storeStep s.store (.chunk (slice bh.buf 0 amount))).map fun store =>
      { s with store, common := r.1, main := .copying v bh amount }
  | pc => some { s with common := r.1, main := pc }

/-- A step of the main thread. -/
def mainStep (cfg : Config) (env : Env) (s : GadgetState) : Option GadgetState :=
  match s.main, cfg.luns s.common.lun with
  | .loop v, some curlun => s.proceed (hardlogWriteRound cfg env curlun s.common v)
  | .copying v bh amount, some _ =>
    match s.store.writer with
    | .idle => s.proceed (hardlogWriteRest env s.common v bh amount)
    | _ => (storeStep s.store .writer).map fun store => { s with store }
  | .doWrite, _ => some (doWriteStep cfg env s)
  | _, _ => none

/-- A step of the REQUEST ioctl, in which `copy_to_user` may fail. The log file's start offset is
always `0`. -/
def ioctlStep (s : GadgetState) (copied : Bool) : GadgetState :=
  match s.ioctl with
  | .idle => { s with ioctl := .offsets s.serverRequest }
  | .offsets flag => { s with ioctl := .copyToUser ⟨flag, 0, s.store.fileEndOffset⟩ }
  | .copyToUser hreq =>
    if copied then { s with ioctl := .test, reports := s.reports ++ [⟨hreq, s.store.file.fPos⟩] }
    else { s with ioctl := .idle }
  | .test => if s.serverRequest then { s with ioctl := .clear } else { s with ioctl := .idle }
  | .clear => { s with ioctl := .idle, serverRequest := false }

/-- A step of the device. -/
def gadgetStep (cfg : Config) (s : GadgetState) : Action → Option GadgetState
  | .command common reply =>
    match s.main with
    | .idle =>
      if common.cmnd 0 ∈ [write6, write10, write12] then
        some { s with common, main := doScsiCommand cfg common reply }
      else none
    | _ => none
  | .main env => mainStep cfg env s
  | .complete i buf status actual =>
    match (s.common.buffhds i).state with
    | .busy =>
      let bh := { s.common.buffhds i with buf, state := .full, status, actual }
      some { s with common := s.common.setBuffhd i bh }
    | _ => none
  | .flusher len => (storeStep s.store (.flusher len)).map fun store => { s with store }
  | .ioctl copied => some (ioctlStep s copied)

/-- The device after `hardlog_setup`. -/
def gadgetInit (garbage log : ℕ → UInt8) (lunFile : ℕ → ℕ → UInt8) (common : FsgCommon) : GadgetState where
  store := storeInit garbage log
  lunFile
  common
  main := .idle
  serverRequest := false
  ioctl := .idle
  reports := []

/-! ### What a step can do -/

theorem FsgCommon.setBuffhd_self (c : FsgCommon) (i : ℕ) (bh : FsgBuffhd) :
    (c.setBuffhd i bh).buffhds i = bh :=
  if_pos rfl

theorem FsgCommon.setBuffhd_of_ne (c : FsgCommon) {i j : ℕ} (bh : FsgBuffhd) (h : j ≠ i) :
    (c.setBuffhd i bh).buffhds j = c.buffhds j :=
  if_neg h

section Steps

variable {cfg : Config}

/-- **The dispatch**: with `faststorage` on, a WRITE to LUN 0 does not reach `do_write`. -/
theorem doScsiCommand_ne_doWrite (hfast : cfg.faststorage = true) {c : FsgCommon} (h0 : c.lun = 0)
    (reply : ℤ) : doScsiCommand cfg c reply ≠ .doWrite := by
  unfold doScsiCommand
  cases hl : cfg.luns c.lun with
  | none => simp
  | some curlun =>
    have hname : curlun.name = "lun0" := by
      rw [cfg.name_eq _ _ hl, h0]
      decide
    simp only [hname, hfast, beq_self_eq_true, Bool.and_self, if_true]
    split_ifs
    · unfold doHardlogWrite
      simp only
      split_ifs <;> simp
    · simp

theorem hardlogWriteRound_ne_doWrite (env : Env) (curlun : FsgLun) (c : FsgCommon) (v : Vars) :
    (hardlogWriteRound cfg env curlun c v).2 ≠ .doWrite := by
  unfold hardlogWriteRound
  by_cases h0 : v.amountLeftToWrite = 0
  · simp [h0]
  rw [if_neg h0]
  split
  · unfold queueRequest
    simp only
    split_ifs <;> simp
  · split
    · simp
    · unfold drainBuffer emptyWrite
      simp only
      split_ifs <;> simp
    · by_cases hrc : env.sleepRc ≠ 0
      · simp [hrc]
      · simp [hrc]

theorem hardlogWriteRest_ne_doWrite (env : Env) (c : FsgCommon) (v : Vars) (bh : FsgBuffhd)
    (amount : ℕ) : (hardlogWriteRest env c v bh amount).2 ≠ .doWrite := by
  unfold hardlogWriteRest emptyWrite
  split_ifs <;> simp

theorem hardlogWriteRest_ne_copying (env : Env) (c : FsgCommon) (v : Vars) (bh : FsgBuffhd)
    (amount : ℕ) {v' : Vars} {bh' : FsgBuffhd} {amount' : ℕ} :
    (hardlogWriteRest env c v bh amount).2 ≠ .copying v' bh' amount' := by
  unfold hardlogWriteRest emptyWrite
  split_ifs <;> simp

/-- **What is taken of a buffer**: whole blocks, and no more than the buffer has. -/
theorem amountOf_spec (curlun : FsgLun) (v : Vars) (bh : FsgBuffhd) :
    amountOf curlun v bh ≤ fsgBuflen ∧ 2 ^ curlun.blkbits ∣ amountOf curlun v bh :=
  ⟨((Nat.sub_le _ _).trans (Nat.min_le_right _ _)).trans bh.intended_le, Nat.dvd_sub_mod _⟩

theorem hardlogWriteRound_copying {env : Env} {curlun : FsgLun} {c : FsgCommon} {v v' : Vars}
    {bh : FsgBuffhd} {amount : ℕ}
    (h : (hardlogWriteRound cfg env curlun c v).2 = .copying v' bh amount) :
    amount ≤ fsgBuflen ∧ 2 ^ curlun.blkbits ∣ amount := by
  suffices amount = amountOf curlun v' bh from this ▸ amountOf_spec curlun v' bh
  unfold hardlogWriteRound at h
  by_cases h0 : v.amountLeftToWrite = 0
  · simp [h0] at h
  rw [if_neg h0] at h
  split at h
  · unfold queueRequest at h
    simp only at h
    split_ifs at h
  · split at h
    · simp at h
    · unfold drainBuffer emptyWrite at h
      simp only at h
      split_ifs at h
      obtain ⟨rfl, rfl, rfl⟩ := MainPc.copying.inj h
      rfl
    · split_ifs at h

/-! ### The store under the gadget -/

/-- A `do_write` in progress is not on LUN 0. -/
def OffLog (s : GadgetState) : Prop := s.main = .doWrite → s.common.lun ≠ 0

/-- A chunk of `do_hardlog_write` is a number of whole blocks, and no longer than a buffer. -/
def ChunkOf (cfg : Config) (s : GadgetState) : Cbuff.Action → Prop
  | .chunk data => data.length ≤ fsgBuflen ∧
      ∃ curlun, cfg.luns s.common.lun = some curlun ∧ 2 ^ curlun.blkbits ∣ data.length
  | _ => True

/-- A step that is not the ioctl's: the store stays as it is or takes a step of its own, `do_write`
stays off LUN 0, and the ioctl is left alone. -/
structure Moves (cfg : Config) (s s' : GadgetState) : Prop where
  store : s'.store = s.store ∨ ∃ b, ChunkOf cfg s b ∧ storeStep s.store b = some s'.store
  offLog : OffLog s'
  ioctl : s'.ioctl = s.ioctl
  reports : s'.reports = s.reports

theorem proceed_moves {s s' : GadgetState} {r : FsgCommon × MainPc} (hr : r.2 ≠ .doWrite)
    (hc : ∀ v bh amount, r.2 = .copying v bh amount →
      ChunkOf cfg s (.chunk (slice bh.buf 0 amount)))
    (hs : s.proceed r = some s') : Moves cfg s s' := by
  unfold GadgetState.proceed at hs
  cases hpc : r.2 with
  | copying v bh amount =>
    simp only [hpc, Option.map_eq_some_iff] at hs
    obtain ⟨store, hstore, rfl⟩ := hs
    exact ⟨Or.inr ⟨_, hc v bh amount hpc, hstore⟩, fun h => (by cases h), rfl, rfl⟩
  | doWrite => exact absurd hpc hr
  | _ =>
    simp only [hpc] at hs
    obtain rfl := Option.some.inj hs
    exact ⟨Or.inl rfl, fun h => (by cases h), rfl, rfl⟩

theorem doWriteStep_moves {s : GadgetState} (h : s.common.lun ≠ 0) (env : Env) :
    Moves cfg s (doWriteStep cfg env s) := by
  unfold doWriteStep
  simp only [if_neg h]
  split_ifs
  · exact ⟨Or.inl rfl, fun _ => h, rfl, rfl⟩
  · split
    · exact ⟨Or.inl rfl, fun h => (by cases h), rfl, rfl⟩
    · exact ⟨Or.inl rfl, fun h => (by cases h), rfl, rfl⟩

theorem mainStep_moves {s s' : GadgetState} {env : Env} (h : OffLog s)
    (hs : mainStep cfg env s = some s') : Moves cfg s s' := by
  unfold mainStep at hs
  split at hs
  · next v curlun _ hcur =>
    refine proceed_moves (hardlogWriteRound_ne_doWrite env _ _ _) (fun v' bh amount hpc => ?_) hs
    obtain ⟨h1, h2⟩ := hardlogWriteRound_copying hpc
    exact ⟨by rwa [length_slice], curlun, hcur, by rwa [length_slice]⟩
  · next v bh amount curlun hpc _ =>
    split at hs
    · exact proceed_moves (hardlogWriteRest_ne_doWrite env _ _ _ _)
        (fun _ _ _ hpc => absurd hpc (hardlogWriteRest_ne_copying env _ _ _ _)) hs
    · obtain ⟨store, hstore, rfl⟩ := Option.map_eq_some_iff.mp hs
      exact ⟨Or.inr ⟨.writer, trivial, hstore⟩, fun hd => absurd (hpc.symm.trans hd) (by simp), rfl, rfl⟩
  · next hpc =>
    obtain rfl := Option.some.inj hs
    exact doWriteStep_moves (h hpc) env
  · cases hs

/-- **A step of the device**: the ioctl's, or one under which the store stays as it is or takes a step
of its own. -/
theorem gadgetStep_cases {s s' : GadgetState} {a : Action} (hfast : cfg.faststorage = true)
    (h : OffLog s) (hs : gadgetStep cfg s a = some s') :
    Moves cfg s s' ∨ ∃ copied, s' = ioctlStep s copied := by
  cases a with
  | command common reply =>
    simp only [gadgetStep] at hs
    split at hs
    · obtain ⟨-, hs⟩ := Option.ite_none_right_eq_some.mp hs
      obtain rfl := Option.some.inj hs
      refine Or.inl ⟨Or.inl rfl, fun hd h0 => ?_, rfl, rfl⟩
      exact doScsiCommand_ne_doWrite hfast h0 reply hd
    · cases hs
  | main env => exact Or.inl (mainStep_moves h hs)
  | complete i buf status actual =>
    simp only [gadgetStep] at hs
    split at hs
    · obtain rfl := Option.some.inj hs
      exact Or.inl ⟨Or.inl rfl, h, rfl, rfl⟩
    · cases hs
  | flusher len =>
    simp only [gadgetStep, Option.map_eq_some_iff] at hs
    obtain ⟨store, hstore, rfl⟩ := hs
    exact Or.inl ⟨Or.inr ⟨.flusher len, trivial, hstore⟩, h, rfl, rfl⟩
  | ioctl copied => exact Or.inr ⟨copied, (Option.some.inj hs).symm⟩

theorem ioctlStep_frame (s : GadgetState) (copied : Bool) :
    (ioctlStep s copied).store = s.store ∧ (ioctlStep s copied).main = s.main ∧
      (ioctlStep s copied).common = s.common := by
  unfold ioctlStep
  cases s.ioctl with
  | copyToUser hreq =>
    simp only
    split_ifs <;> exact ⟨rfl, rfl, rfl⟩
  | test =>
    simp only
    split_ifs <;> exact ⟨rfl, rfl, rfl⟩
  | _ => exact ⟨rfl, rfl, rfl⟩

/-- **Refinement**: every run of the gadget is a run of the store. -/
theorem store_reach (hfast : cfg.faststorage = true) {s s' : GadgetState} (h : OffLog s)
    (hr : Reach (gadgetStep cfg) (fun _ _ => True) s s') :
    Reach storeStep (fun _ _ => True) s.store s'.store := by
  have hstep : ∀ s a s', OffLog s → gadgetStep cfg s a = some s' →
      OffLog s' ∧ Reach storeStep (fun _ _ => True) s.store s'.store := by
    intro s a s' h hs
    rcases gadgetStep_cases hfast h hs with hm | ⟨copied, rfl⟩
    · refine ⟨hm.offLog, ?_⟩
      rcases hm.store with heq | ⟨b, -, hb⟩
      · rw [heq]
      · exact (Reach.refl _).snoc trivial hb
    · obtain ⟨h1, h2, h3⟩ := ioctlStep_frame s copied
      rw [h1]
      refine ⟨?_, Reach.refl _⟩
      unfold OffLog
      rw [h2, h3]
      exact h
  exact hr.rel (I := OffLog) (fun s => Reach.refl s.store) (fun _ _ _ h1 h2 => h1.trans h2)
    (fun s a s' h _ hs => (hstep s a s' h hs).1) (fun s a s' h _ hs => (hstep s a s' h hs).2) h

end Steps

end HardLog.Device.Gadget
