import HardLog.Device.AppendOnly
import HardLog.Device.Stream
import HardLog.Lib.Refine

/-! # What the library may read

The device library learns from the REQUEST ioctl up to where it may read the log file, while the main
thread takes commands and the flusher writes. `simulation`: a run of the gadget in which the copies
fit and the writes are complete is such a run of its store. So (`reported_of_reach`) in every state the
log file is a prefix of what `do_hardlog_write` has accepted, its end offset is its length, and every
end offset the library has ever got still cuts off a prefix of the accepted bytes. -/

namespace HardLog.Device.Reports

open HardLog.Lib.Memory HardLog.Lib.Files HardLog.Lib.Runs HardLog.Lib.Refine
open HardLog.Device.Cbuff HardLog.Device.Gadget HardLog.Device.Stream
open HardLog.Device.AppendOnly (twoLuns writeBlock calm blockSchedule)

/-- The store takes the step as it should: a chunk that is copied fits, and `vfs_write` writes
everything. -/
def StoreOk (s : GadgetState) : Gadget.Action → Prop
  | .main _ => Fits s.store .writer
  | .flusher len => WritesAll s.store (.flusher len)
  | _ => True

instance (s : Store) : Decidable (Fits s .writer) :=
  match h : s.writer with
  | .copy chunk _ => decidable_of_iff (s.cb.headIndex + chunk.length ≤ hardlogDataCbuffsize ∧
      s.cb.fill + chunk.length ≤ hardlogDataCbuffsize)
      ⟨fun hfit chunk' i' he => by
        rw [h] at he
        obtain ⟨rfl, -⟩ := WriterPc.copy.inj he
        exact hfit, fun hfit => hfit chunk _ h⟩
  | .idle | .space _ | .bump _ => isTrue fun _ _ he => by
      rw [h] at he
      cases he

instance : (s : GadgetState) → (a : Gadget.Action) → Decidable (StoreOk s a)
  | s, .main _ => inferInstanceAs (Decidable (Fits s.store .writer))
  | s, .flusher len => inferInstanceAs (Decidable ((writeSize s.store : ℤ) ≤ len))
  | _, .command _ _ | _, .complete _ _ _ _ | _, .ioctl _ => isTrue trivial

/-! ### The store under the gadget -/

section Store

variable {cfg : Config}

theorem proceed_store {s s' : GadgetState} {r : FsgCommon × MainPc} (hs : s.proceed r = some s') :
    s'.store = s.store ∨ ∃ data, storeStep s.store (.chunk data) = some s'.store := by
  unfold GadgetState.proceed at hs
  cases hpc : r.2 with
  | copying v bh amount =>
    simp only [hpc, Option.map_eq_some_iff] at hs
    obtain ⟨store, hstore, rfl⟩ := hs
    exact Or.inr ⟨_, hstore⟩
  | _ =>
    simp only [hpc] at hs
    obtain rfl := Option.some.inj hs
    exact Or.inl rfl

/-- **The main thread** starts a copy, goes on with it, or leaves the store alone. -/
theorem mainStep_store {s s' : GadgetState} {env : Env} (h : OffLog s)
    (hs : mainStep cfg env s = some s') :
    s'.store = s.store ∨ (∃ data, storeStep s.store (.chunk data) = some s'.store) ∨
      storeStep s.store .writer = some s'.store := by
  unfold mainStep at hs
  split at hs
  · exact (proceed_store hs).imp_right Or.inl
  · split at hs
    · exact (proceed_store hs).imp_right Or.inl
    · obtain ⟨store, hstore, rfl⟩ := Option.map_eq_some_iff.mp hs
      exact Or.inr (Or.inr hstore)
  · next hpc =>
    obtain rfl := Option.some.inj hs
    have h0 := h hpc
    unfold doWriteStep
    simp only [if_neg h0]
    split_ifs
    · exact Or.inl rfl
    · split <;> exact Or.inl rfl
  · cases hs

/-- The store of the gadget is `t`, and `do_write` is not on the log. -/
structure HasStore (s : GadgetState) (t : Store) : Prop where
  store : s.store = t
  offLog : OffLog s

/-- **Simulation**: what the gadget does to its store, a store does on its own. -/
theorem simulation (hfast : cfg.faststorage = true) :
    Simulation (gadgetStep cfg) StoreOk storeStep (fun t a => WritesAll t a ∧ Fits t a)
      HasStore := by
  rintro s a s' _ ⟨rfl, h⟩ hok hs
  have hoff : OffLog s' := by
    rcases gadgetStep_cases hfast h hs with hm | ⟨copied, rfl⟩
    · exact hm.offLog
    · obtain ⟨-, h2, h3⟩ := ioctlStep_frame s copied
      unfold OffLog
      rw [h2, h3]
      exact h
  cases a with
  | command common reply =>
    simp only [gadgetStep] at hs
    split at hs
    · obtain ⟨-, hs⟩ := Option.ite_none_right_eq_some.mp hs
      obtain rfl := Option.some.inj hs
      exact stays ⟨rfl, hoff⟩
    · cases hs
  | main env =>
    rcases mainStep_store h hs with heq | ⟨data, hstore⟩ | hstore
    · exact stays ⟨heq, hoff⟩
    · exact steps (b := .chunk data) ⟨trivial, trivial⟩ hstore ⟨rfl, hoff⟩
    · exact steps (b := .writer) ⟨trivial, hok⟩ hstore ⟨rfl, hoff⟩
  | complete i buf status actual =>
    simp only [gadgetStep] at hs
    split at hs
    · obtain rfl := Option.some.inj hs
      exact stays ⟨rfl, hoff⟩
    · cases hs
  | flusher len =>
    simp only [gadgetStep, storeStep, Option.map_some, Option.some.injEq] at hs
    subst hs
    exact steps (b := .flusher len) ⟨hok, trivial⟩ rfl ⟨rfl, hoff⟩
  | ioctl copied =>
    obtain rfl := Option.some.inj hs
    exact stays ⟨(ioctlStep_frame s copied).1, hoff⟩

end Store

/-! ### The end offset -/

/-- The end offset is the file position. -/
def AtEnd (s : Store) : Prop := s.fileEndOffset = s.file.fPos

theorem AtEnd.fsWrite {len : ℤ} {s : Store} {fin start : ℕ} (h : AtEnd s)
    (hlen : ((fin - start : ℕ) : ℤ) ≤ len) : AtEnd (fsWrite len s fin start) := by
  unfold Cbuff.fsWrite
  split_ifs with h0 hneg
  · exact h
  · omega
  · rfl

theorem AtEnd.step {s s' : Store} {a : Cbuff.Action} (h : AtEnd s) (hall : WritesAll s a)
    (hs : storeStep s a = some s') : AtEnd s' := by
  cases a with
  | chunk data =>
    obtain ⟨-, rfl⟩ := chunk_cases hs
    exact h
  | writer =>
    obtain ⟨hf, he⟩ := AppendOnly.writerStep_file hs
    unfold AtEnd
    rw [hf, he]
    exact h
  | flusher len =>
    obtain rfl := Option.some.inj hs
    simp only [WritesAll, writeSize] at hall
    unfold flusherStep
    cases hf : s.flusher with
    | readTail realEnd =>
      simp only
      split_ifs <;> exact h
    | normal realEnd fin start =>
      rw [hf] at hall
      exact h.fsWrite hall
    | wrapFirst realEnd fin start =>
      rw [hf] at hall
      exact h.fsWrite hall
    | wrapSecond realEnd fin =>
      rw [hf] at hall
      have hzero : ((fin - 0 : ℕ) : ℤ) ≤ len := hall
      exact h.fsWrite hzero
    | _ => exact h

/-! ### The reports -/

/-- **What the library may read**: with `faststorage` on, in every run of commands to any LUN, of
transfers, flusher steps and ioctls in any order, in which the copies fit and the writes are complete,
the log file is a prefix of the accepted bytes, its end offset is its length, and whatever end offset
the library has got, the file has as many bytes and they are the first ones accepted. -/
theorem reported_of_reach (cfg : Config) (hfast : cfg.faststorage = true) (garbage log : ℕ → UInt8)
    (lunFile : ℕ → ℕ → UInt8) (common : FsgCommon) {s : GadgetState}
    (h : Reach (gadgetStep cfg) StoreOk (gadgetInit garbage log lunFile common) s) :
    s.store.file.contents <+: s.store.stream ∧
      s.store.fileEndOffset = s.store.file.contents.length ∧
      ∀ r ∈ s.reports, r.hreq.logFileEndOffset ≤ s.store.file.contents.length ∧
        s.store.file.contents.take r.hreq.logFileEndOffset =
          s.store.stream.take r.hreq.logFileEndOffset := by
  have hreports := (h.mono fun _ _ _ => trivial).inv (I := AppendOnly.Inv)
    (fun _ _ _ hi _ hs => (hi.step hfast hs).1) (AppendOnly.gadgetInit_inv garbage log lunFile common)
  obtain ⟨t, ⟨rfl, -⟩, ⟨flushed, e, hinv⟩, hend⟩ := (simulation hfast).inv
    (I := fun t => (∃ flushed e, Inv flushed e t) ∧ AtEnd t)
    (fun t b t' ⟨⟨_, _, hi⟩, he⟩ hC hs => ⟨hi.step hC.1 hC.2 hs, he.step hC.1 hs⟩)
    (s := gadgetInit garbage log lunFile common) ⟨rfl, fun h => by cases h⟩
    ⟨⟨0, 0, storeInit_inv garbage log⟩, rfl⟩ h
  have hlen : s.store.file.contents.length = s.store.file.fPos := length_slice _ _ _
  have hpre : s.store.file.contents <+: s.store.stream := by
    rw [hinv.contents]
    exact List.take_prefix _ _
  refine ⟨hpre, hend.trans hlen.symm, fun r hr => ?_⟩
  have hle : r.hreq.logFileEndOffset ≤ s.store.file.contents.length := by
    rw [hlen]
    exact (hreports.reports_le r hr).1.trans hreports.endOffset_le
  refine ⟨hle, ?_⟩
  obtain ⟨more, hmore⟩ := hpre
  rw [← hmore, List.take_append_of_le_length hle]

/-- A block is written, flushed and reported. -/
theorem reported_block :
    ∃ s, Reach (gadgetStep twoLuns) StoreOk
        (gadgetInit (fun _ => 0) (fun _ => 0) (fun _ _ => 0) writeBlock) s ∧
      s.reports.map (fun r => r.hreq.logFileEndOffset) = [512] ∧
      s.store.file.contents <+: s.store.stream ∧
      s.store.fileEndOffset = s.store.file.contents.length ∧
      ∀ r ∈ s.reports, r.hreq.logFileEndOffset ≤ s.store.file.contents.length ∧
        s.store.file.contents.take r.hreq.logFileEndOffset =
          s.store.stream.take r.hreq.logFileEndOffset := by
  have hend : (runFrom (gadgetStep twoLuns)
      (gadgetInit (fun _ => 0) (fun _ => 0) (fun _ _ => 0) writeBlock) blockSchedule).map
        (fun s => s.reports.map fun r => r.hreq.logFileEndOffset) = some [512] := by decide +kernel
  have hok : EachStep (gadgetStep twoLuns) StoreOk
      (gadgetInit (fun _ => 0) (fun _ => 0) (fun _ _ => 0) writeBlock) blockSchedule := by
    decide +kernel
  obtain ⟨s, hrun, hs⟩ := Option.map_eq_some_iff.mp hend
  have hreach := Reach.of_runFrom hrun hok
  exact ⟨s, hreach, hs, reported_of_reach twoLuns rfl (fun _ => 0) (fun _ => 0) (fun _ _ => 0)
    writeBlock hreach⟩

end HardLog.Device.Reports
