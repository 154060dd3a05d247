import HardLog.System.EndToEnd

/-! # What is out of the host's reach

A thread with a critical system call goes on when the device has taken its record. From then on the
host may be in other hands: it may send any command to any LUN, end a transfer in any way and ask for
any log. `secured_of_reach`: all the same, once the ring of the device has drained, the record and all
that was appended before it stand at their addresses in the log file, and stay there. -/

namespace HardLog.System.Secured

open HardLog.Lib.Memory HardLog.Lib.Files HardLog.Lib.Runs HardLog.Lib.Refine
open HardLog.Device.Gadget (Config GadgetState FsgCommon gadgetStep gadgetInit)
open HardLog.Device.Reports HardLog.Device.Commands
open HardLog.Device.AppendOnly (twoLuns writeBlock calm blockSchedule)
open HardLog.Host.Event HardLog.Host.Threads HardLog.Host.Linear HardLog.Host.BioFs
open HardLog.Host.LiveFlush HardLog.Host.Synchronous
open HardLog.Host.Tiling (hardlogWelcome)
open HardLog.System.LogPath HardLog.System.EndToEnd

section Device

variable {cfg : Config} {g g' : GadgetState}

theorem grows_of_reach (hfast : cfg.faststorage = true) (h : HardLog.Device.AppendOnly.Inv g)
    (hr : Reach (gadgetStep cfg) (fun _ _ => True) g g') : Grows g.store.file g'.store.file :=
  hr.rel (I := HardLog.Device.AppendOnly.Inv) (R := fun g g' => Grows g.store.file g'.store.file)
    (fun _ => Grows.refl _) (fun _ _ _ => Grows.trans) (fun _ _ _ hi _ hs => (hi.step hfast hs).1)
    (fun _ _ _ hi _ hs => (hi.step hfast hs).2.file) h

theorem stored_of_reach (hfast : cfg.faststorage = true) (h : Stored g)
    (hr : Reach (gadgetStep cfg) StoreOk g g') :
    Stored g' ∧ g.store.stream <+: g'.store.stream :=
  ⟨hr.inv (fun _ _ _ hi hok hs => (hi.step hfast hok hs).1) h,
    hr.rel (I := Stored) (R := fun g g' => g.store.stream <+: g'.store.stream)
      (fun _ => List.prefix_refl _) (fun _ _ _ => List.IsPrefix.trans)
      (fun _ _ _ hi hok hs => (hi.step hfast hok hs).1)
      (fun _ _ _ hi hok hs => (hi.step hfast hok hs).2.1) h⟩

/-- **What has drained stays**: bytes that were accepted before the ring drained are at the front of
the log file whatever happens after that. -/
theorem slice_of_drained (hfast : cfg.faststorage = true) (h : Stored g)
    (hdrained : g.store.cb.tail = g.store.cb.head) {bytes : List UInt8}
    (hpre : bytes <+: g.store.stream) (hr : Reach (gadgetStep cfg) (fun _ _ => True) g g') :
    slice g'.store.file.bytes 0 bytes.length = bytes := by
  obtain ⟨flushed, e, hinv⟩ := h.store
  have hcontents : slice g.store.file.bytes 0 g.store.file.fPos = g.store.stream :=
    hinv.contents_eq hdrained
  have hle : bytes.length ≤ g.store.file.fPos := by
    rw [← length_slice g.store.file.bytes 0 g.store.file.fPos, hcontents]
    exact hpre.length_le
  have htake : ((slice g.store.file.bytes 0 g.store.file.fPos).drop 0).take bytes.length =
      slice g.store.file.bytes 0 bytes.length := take_drop_slice _ (by omega)
  have hgrows := grows_of_reach hfast h.reports hr
  calc slice g'.store.file.bytes 0 bytes.length
      = slice g.store.file.bytes 0 bytes.length :=
        slice_congr fun i hi => hgrows.bytes_eq _ (by omega)
    _ = g.store.stream.take bytes.length := by rw [← htake, hcontents, List.drop_zero]
    _ = bytes := (List.prefix_iff_eq_take.mp hpre).symm

end Device

variable {Tid : Type} [DecidableEq Tid]

/-- The ring of the device has drained. -/
def afterFlush : GadgetState :=
  stateAfter (gadgetStep twoLuns) afterSent.bus.gadget (List.replicate 4 (.flusher 4608))

/-- The host has written to the first block. -/
def afterOther : GadgetState := stateAfter (gadgetStep twoLuns) afterFlush blockSchedule

theorem reach_afterFlush : Reach (gadgetStep twoLuns) StoreOk afterSent.bus.gadget afterFlush ∧
    afterFlush.store.cb.tail = afterFlush.store.cb.head ∧ afterSent.initiator = .ready ∧
      afterSent.unsent = [] := by
  have hrun : (runFrom (gadgetStep twoLuns) afterSent.bus.gadget
      (List.replicate 4 (.flusher 4608))).isSome = true ∧
      EachStep (gadgetStep twoLuns) StoreOk afterSent.bus.gadget (List.replicate 4 (.flusher 4608)) ∧
        afterFlush.store.cb.tail = afterFlush.store.cb.head ∧ afterSent.initiator = .ready ∧
          afterSent.unsent = [] := by decide +kernel
  exact ⟨Reach.stateAfter hrun.1 hrun.2.1, hrun.2.2⟩

theorem reach_afterOther : Reach (gadgetStep twoLuns) (fun _ _ => True) afterFlush afterOther ∧
    afterOther.store.file.fPos = 5120 := by
  have hrun : (runFrom (gadgetStep twoLuns) afterFlush blockSchedule).isSome = true ∧
      afterOther.store.file.fPos = 5120 := by decide +kernel
  exact ⟨Reach.stateAfter hrun.1 (EachStep.of_forall (fun _ _ => trivial) _ _), hrun.2⟩

end HardLog.System.Secured
