import HardLog.Device.Gadget

/-! # The log file only grows

With `faststorage` on, no WRITE to LUN 0 reaches `do_write`, whatever opcode, address and length it
has: its name is `"lun0"`, so it goes to `do_hardlog_write`, which only touches the ring. The log
file is then written by `fs_write` alone, at its position. So what is below the position stays, in
any order of commands, transfers, flusher steps with any results of `vfs_write`, and ioctls. -/

namespace HardLog.Device.AppendOnly

open HardLog.Lib.Memory HardLog.Lib.Files HardLog.Lib.Runs HardLog.Device.Cbuff
open HardLog.Device.Gadget

/-! ### The store -/

theorem writerStep_file {s s' : Store} (hs : writerStep s = some s') :
    s'.file = s.file ∧ s'.fileEndOffset = s.fileEndOffset := by
  rcases writerStep_cases hs with ⟨_, -, rfl⟩ | ⟨_, -, -, rfl⟩ | ⟨_, _, -, rfl⟩ | ⟨_, -, rfl⟩ <;>
    exact ⟨rfl, rfl⟩

theorem fsWrite_endOffset (len : ℤ) (s : Store) (fin start : ℕ) :
    (fsWrite len s fin start).fileEndOffset = s.fileEndOffset ∨
      (fsWrite len s fin start).fileEndOffset = (fsWrite len s fin start).file.fPos := by
  unfold fsWrite
  by_cases h0 : fin - start = 0
  · rw [if_pos h0]
    exact Or.inl rfl
  · rw [if_neg h0]
    by_cases hlen : len ≤ 0
    · simp [hlen]
    · simp [hlen]

/-- How the log file and its end offset move on. -/
structure StoreGrows (s s' : Store) : Prop where
  file : Grows s.file s'.file
  endOffset : s'.fileEndOffset = s.fileEndOffset ∨ s'.fileEndOffset = s'.file.fPos

theorem StoreGrows.of_eq {s s' : Store} (hf : s'.file = s.file)
    (he : s'.fileEndOffset = s.fileEndOffset) : StoreGrows s s' :=
  ⟨hf ▸ Grows.refl _, Or.inl he⟩

theorem storeGrows_fsWrite (len : ℤ) (s : Store) (fin start : ℕ) :
    StoreGrows s (fsWrite len s fin start) :=
  ⟨by rw [fsWrite_file]; exact Grows.write _ _, fsWrite_endOffset len s fin start⟩

/-- **A step of the flusher** only appends to the file, whatever `vfs_write` returns. -/
theorem storeGrows_flusherStep (s : Store) (len : ℤ) : StoreGrows s (flusherStep s len) := by
  unfold flusherStep
  cases s.flusher with
  | readTail realEnd =>
    simp only
    split_ifs <;> exact StoreGrows.of_eq rfl rfl
  | normal realEnd fin start => exact ⟨(storeGrows_fsWrite len s fin start).file,
      (storeGrows_fsWrite len s fin start).endOffset⟩
  | wrapFirst realEnd fin start => exact ⟨(storeGrows_fsWrite len s _ start).file,
      (storeGrows_fsWrite len s _ start).endOffset⟩
  | wrapSecond realEnd fin => exact ⟨(storeGrows_fsWrite len s fin 0).file,
      (storeGrows_fsWrite len s fin 0).endOffset⟩
  | _ => exact StoreGrows.of_eq rfl rfl

theorem storeGrows_step {s s' : Store} {a : Cbuff.Action} (hs : storeStep s a = some s') :
    StoreGrows s s' := by
  cases a with
  | chunk data =>
    obtain ⟨-, rfl⟩ := chunk_cases hs
    exact StoreGrows.of_eq rfl rfl
  | writer =>
    obtain ⟨hf, he⟩ := writerStep_file hs
    exact StoreGrows.of_eq hf he
  | flusher len =>
    obtain rfl := Option.some.inj hs
    exact storeGrows_flusherStep s len

/-! ### The device -/

section Device

variable {cfg : Config}

/-- The invariant: the end offset is not behind what is in the file, and what is or will be reported
not behind the end offset. -/
structure Inv (s : GadgetState) : Prop where
  offLog : OffLog s
  endOffset_le : s.store.fileEndOffset ≤ s.store.file.fPos
  reply_le : ∀ hreq, s.ioctl = .copyToUser hreq → hreq.logFileEndOffset ≤ s.store.fileEndOffset ∧
    ∀ r ∈ s.reports, r.hreq.logFileEndOffset ≤ hreq.logFileEndOffset
  reports_le : ∀ r ∈ s.reports, r.hreq.logFileEndOffset ≤ s.store.fileEndOffset ∧
    r.hreq.logFileEndOffset ≤ r.written
  sorted : s.reports.Pairwise fun a b => a.hreq.logFileEndOffset ≤ b.hreq.logFileEndOffset

/-- What never goes back: the file, its end offset and the reports. -/
structure Advances (s s' : GadgetState) : Prop where
  file : Grows s.store.file s'.store.file
  endOffset_le : s.store.fileEndOffset ≤ s'.store.fileEndOffset
  reports : s.reports <+: s'.reports

theorem storeGrows_of_moves {s s' : GadgetState} (hm : Moves cfg s s') :
    StoreGrows s.store s'.store := by
  rcases hm.store with heq | ⟨b, -, hb⟩
  · rw [heq]
    exact StoreGrows.of_eq rfl rfl
  · exact storeGrows_step hb

theorem Inv.advances {s s' : GadgetState} (h : Inv s) (hm : Moves cfg s s') : Advances s s' := by
  have hg := storeGrows_of_moves hm
  have h1 := h.endOffset_le
  have h2 := hg.file.fPos_le
  refine ⟨hg.file, ?_, hm.reports ▸ List.prefix_refl _⟩
  rcases hg.endOffset with he | he <;> omega

theorem Inv.moves {s s' : GadgetState} (h : Inv s) (hm : Moves cfg s s') : Inv s' := by
  have hg := storeGrows_of_moves hm
  have h1 := h.endOffset_le
  have h2 := hg.file.fPos_le
  have h3 := (h.advances hm).endOffset_le
  refine ⟨hm.offLog, ?_, fun hreq hio => ?_, fun r hr => ?_, hm.reports ▸ h.sorted⟩
  · rcases hg.endOffset with he | he <;> omega
  · rw [hm.ioctl] at hio
    rw [hm.reports]
    obtain ⟨h4, h5⟩ := h.reply_le hreq hio
    exact ⟨h4.trans h3, h5⟩
  · rw [hm.reports] at hr
    obtain ⟨h4, h5⟩ := h.reports_le r hr
    exact ⟨h4.trans h3, h5⟩

/-- **The ioctl** reports an end offset that has been reached, and no smaller one than before. -/
theorem Inv.ioctl_step {s : GadgetState} (h : Inv s) (copied : Bool) :
    Inv (ioctlStep s copied) ∧ Advances s (ioctlStep s copied) := by
  unfold ioctlStep
  have hadv : ∀ s' : GadgetState, s'.store = s.store → s'.reports = s.reports → Advances s s' :=
    fun s' hs hr => ⟨hs ▸ Grows.refl _, hs ▸ Nat.le_refl _, hr ▸ List.prefix_refl _⟩
  cases hio : s.ioctl with
  | idle =>
    exact ⟨⟨h.offLog, h.endOffset_le, fun hreq hc => (by cases hc), h.reports_le, h.sorted⟩,
      hadv _ rfl rfl⟩
  | offsets flag =>
    refine ⟨⟨h.offLog, h.endOffset_le, fun hreq hc => ?_, h.reports_le, h.sorted⟩, hadv _ rfl rfl⟩
    obtain rfl := IoctlPc.copyToUser.inj hc
    exact ⟨Nat.le_refl _, fun r hr => (h.reports_le r hr).1⟩
  | copyToUser hreq =>
    obtain ⟨h1, h2⟩ := h.reply_le hreq hio
    have h3 := h.endOffset_le
    by_cases hc : copied = true
    · simp only [hc, if_true]
      refine ⟨⟨h.offLog, h3, fun hreq hc => (by cases hc), fun r hr => ?_, ?_⟩,
        ⟨Grows.refl _, Nat.le_refl _, List.prefix_append _ _⟩⟩
      · rcases List.mem_append.mp hr with hr | hr
        · exact h.reports_le r hr
        · obtain rfl := List.mem_singleton.mp hr
          exact ⟨h1, h1.trans h3⟩
      · rw [List.pairwise_append]
        refine ⟨h.sorted, List.pairwise_singleton _ _, fun a ha b hb => ?_⟩
        obtain rfl := List.mem_singleton.mp hb
        exact h2 a ha
    · simp only [hc]
      exact ⟨⟨h.offLog, h3, fun hreq hc => (by cases hc), h.reports_le, h.sorted⟩, hadv _ rfl rfl⟩
  | test =>
    simp only
    split_ifs
    · exact ⟨⟨h.offLog, h.endOffset_le, fun hreq hc => (by cases hc), h.reports_le, h.sorted⟩,
        hadv _ rfl rfl⟩
    · exact ⟨⟨h.offLog, h.endOffset_le, fun hreq hc => (by cases hc), h.reports_le, h.sorted⟩,
        hadv _ rfl rfl⟩
  | clear =>
    exact ⟨⟨h.offLog, h.endOffset_le, fun hreq hc => (by cases hc), h.reports_le, h.sorted⟩,
      hadv _ rfl rfl⟩

/-- **One step** of the device, whatever it is. -/
theorem Inv.step {s s' : GadgetState} {a : Gadget.Action} (hfast : cfg.faststorage = true)
    (h : Inv s) (hs : gadgetStep cfg s a = some s') : Inv s' ∧ Advances s s' := by
  rcases gadgetStep_cases hfast h.offLog hs with hm | ⟨copied, rfl⟩
  · exact ⟨h.moves hm, h.advances hm⟩
  · exact h.ioctl_step copied

theorem gadgetInit_inv (garbage log : ℕ → UInt8) (lunFile : ℕ → ℕ → UInt8) (common : FsgCommon) :
    Inv (gadgetInit garbage log lunFile common) :=
  ⟨fun h => (by cases h), Nat.le_refl _, fun _ h => (by cases h), fun _ h => (by cases h),
    List.Pairwise.nil⟩

end Device

/-- **The log file only grows**: with `faststorage` on, from any state `s` that the device reaches,
whatever happens then, no byte below the file position reached in `s` is changed, the position and
the end offset do not go back, and every end offset reported to the library is at least those
reported before and at most the number of bytes that had been written. -/
theorem append_only (cfg : Config) (hfast : cfg.faststorage = true) (garbage log : ℕ → UInt8)
    (lunFile : ℕ → ℕ → UInt8) (common : FsgCommon) {s s' : GadgetState}
    (h0 : Reach (gadgetStep cfg) (fun _ _ => True) (gadgetInit garbage log lunFile common) s)
    (h : Reach (gadgetStep cfg) (fun _ _ => True) s s') :
    s.store.file.fPos ≤ s'.store.file.fPos ∧
      (∀ p < s.store.file.fPos, s'.store.file.bytes p = s.store.file.bytes p) ∧
      s.store.fileEndOffset ≤ s'.store.fileEndOffset ∧
      (s'.reports.Pairwise fun a b => a.hreq.logFileEndOffset ≤ b.hreq.logFileEndOffset) ∧
      ∀ r ∈ s'.reports, r.hreq.logFileEndOffset ≤ r.written := by
  have hinit := gadgetInit_inv garbage log lunFile common
  have hs : Inv s := h0.inv (fun _ _ _ hi _ hs => (hi.step hfast hs).1) hinit
  have hs' : Inv s' := h.inv (fun _ _ _ hi _ hs => (hi.step hfast hs).1) hs
  have hadv : Advances s s' := by
    refine h.rel (I := Inv) (fun s => ⟨Grows.refl _, Nat.le_refl _, List.prefix_refl _⟩)
      (fun a b c hab hbc => ⟨hab.file.trans hbc.file, hab.endOffset_le.trans hbc.endOffset_le,
        hab.reports.trans hbc.reports⟩)
      (fun _ _ _ hi _ hs => (hi.step hfast hs).1) (fun _ _ _ hi _ hs => (hi.step hfast hs).2) hs
  exact ⟨hadv.file.fPos_le, hadv.file.bytes_eq, hadv.endOffset_le, hs'.sorted,
    fun r hr => (hs'.reports_le r hr).2⟩

/-- Two LUNs of 1 MB. -/
def twoLuns : Config where
  faststorage := true
  fsgNumBuffers := 2
  luns i := if i < 2 then some ⟨"lun" ++ toString i, false, 2048, 1048576, 9⟩ else none
  name_eq i lun h := by
    obtain ⟨-, h⟩ := Option.ite_none_right_eq_some.mp h
    exact Option.some.inj h ▸ rfl

/-- A WRITE(10) of a block to address 0 of LUN 0, with two empty buffers. -/
def writeBlock : FsgCommon where
  cmnd i := if i = 0 then write10 else 0
  lun := 0
  buffhds _ := ⟨fun _ => 0, .empty, 0, 0, 0, by decide⟩
  nextBuffhdToFill := 0
  nextBuffhdToDrain := 0
  dataSizeFromCmnd := 512
  residue := 512
  usbAmountLeft := 512
  shortPacketReceived := false

/-- Kernel code that does not get in the way. -/
def calm : Env := ⟨true, false, 0, fun _ => 0, false, false⟩

/-- The block is received and flushed, and the end offset reported. -/
def blockSchedule : List Gadget.Action :=
  [.command writeBlock 0, .main calm, .complete 0 (fun _ => 65) 0 512] ++
    List.replicate 6 (.main calm) ++ List.replicate 4 (.flusher 512) ++
    List.replicate 3 (.ioctl true)

/-- A block is written, flushed and reported. -/
theorem append_block :
    ∃ s, Reach (gadgetStep twoLuns) (fun _ _ => True)
        (gadgetInit (fun _ => 0) (fun _ => 0) (fun _ _ => 0) writeBlock) s ∧
      s.store.file.fPos = 512 ∧ s.reports.length = 1 ∧
      s.reports.Pairwise (fun a b => a.hreq.logFileEndOffset ≤ b.hreq.logFileEndOffset) ∧
      ∀ r ∈ s.reports, r.hreq.logFileEndOffset ≤ r.written := by
  have hend : (runFrom (gadgetStep twoLuns)
      (gadgetInit (fun _ => 0) (fun _ => 0) (fun _ _ => 0) writeBlock) blockSchedule).map
        (fun s => (s.store.file.fPos, s.reports.length)) = some (512, 1) := by decide +kernel
  obtain ⟨s, hrun, hs⟩ := Option.map_eq_some_iff.mp hend
  obtain ⟨hpos, hrep⟩ := Prod.mk.inj hs
  have hreach := Reach.of_runFrom hrun (EachStep.of_forall (fun _ _ => trivial) _ _)
  obtain ⟨-, -, -, h4, h5⟩ := append_only twoLuns rfl (fun _ => 0) (fun _ => 0) (fun _ _ => 0)
    writeBlock (Reach.refl _) hreach
  exact ⟨s, hreach, hpos, hrep, h4, h5⟩

end HardLog.Device.AppendOnly
