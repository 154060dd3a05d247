import HardLog.Device.Commands
import HardLog.Host.Synchronous
import HardLog.Host.Tiling
import HardLog.System.LogPath

/-! # From the host's records to the log and to the response

The block layer between the two machines is not part of the model. What is taken of it is that it sends
the pages of the bios in the order in which they were submitted. Then the log file is the image of the
LUN: each page stands at the address of its sector, though `do_hardlog_write` does not look at the
address, whatever the host appends and flushes, if its submits succeed (`image_of_reach`). And the response to `ALL` is made of the welcome block and the appended
records in order, with the padding of the flushes (`host_to_response`). -/

namespace HardLog.System.EndToEnd

open HardLog.Lib.CString HardLog.Lib.Memory HardLog.Lib.Files HardLog.Lib.Runs
open HardLog.Device.Gadget (Config GadgetState FsgCommon gadgetStep gadgetInit)
open HardLog.Device.Commands
open HardLog.Device.Response HardLog.Device.Stale HardLog.Host.Linear HardLog.Host.BioFs
open HardLog.Host.LiveFlush
open HardLog.Host.Synchronous (beforeFirst afterExecve reach_execve)
open HardLog.Host.Tiling (bioOpen hardlogWelcome length_hardlogWelcome)
open HardLog.Host.ReadResponse (Lun)
open HardLog.Device.DumpRange (behindStart overrun unread)
open HardLog.Device.AppendOnly (twoLuns writeBlock calm)
open HardLog.System.Session HardLog.System.Exchanges HardLog.System.LogPath

/-! ### What the host submits -/

/-- The bio of `bio_open`. -/
def welcomeBio (memory : Buffer 512) : Bio := ⟨0, [hardlogWelcome memory]⟩

/-- All pages that were submitted, with their sectors. -/
def pages (memory : Buffer 512) (flushes : List Flush) : List (ℕ × List UInt8) :=
  (welcomeBio memory).sectorPages ++ flushes.flatMap fun f => allPages f.submits

/-- All bytes that were submitted. -/
def submitted (memory : Buffer 512) (flushes : List Flush) : List UInt8 :=
  (pages memory flushes).flatMap fun p => p.2

/-- The device has accepted bytes that the host has submitted, in order. The state of the host may be a
later one, in which the calls of `bio_write` that the device has got bytes of have returned. -/
def OverLink (g : GadgetState) (memory : Buffer 512) (flushes : List Flush) : Prop :=
  g.store.stream <+: submitted memory flushes

/-- The bytes are the welcome block, and pieces of the stream that are each filled up to whole pages. -/
def Framed (welcome stream bytes : List UInt8) : Prop :=
  ∃ parts : List (List UInt8 × List UInt8),
    bytes = welcome ++ parts.flatMap (fun p => p.1 ++ p.2) ∧ parts.flatMap (fun p => p.1) = stream ∧
      ∀ p ∈ parts, p.2.length < pageSize ∧ pageSize ∣ (p.1 ++ p.2).length

theorem pages_eq (memory : Buffer 512) (flushes : List Flush) : pages memory flushes =
    (0, hardlogWelcome memory) :: flushes.flatMap fun f => allPages f.submits := rfl

theorem submitted_eq (memory : Buffer 512) (flushes : List Flush) :
    submitted memory flushes = hardlogWelcome memory ++ flushes.flatMap Flush.bytes := by
  have hbytes : Flush.bytes = fun f => (allPages f.submits).flatMap fun p => p.2 := by
    funext f
    rw [Flush.bytes, List.flatMap_def]
  rw [submitted, pages_eq, List.flatMap_cons, List.flatMap_assoc, hbytes]

/-- The bytes of a call begin with its payload, and have less than a page behind it. -/
theorem bytes_eq {f : Flush} (h : f.Whole) :
    ∃ padding, f.bytes = f.payload ++ padding ∧ padding.length < pageSize := by
  have hlt := h.lt
  have hpage := pageSize_pos
  refine ⟨f.bytes.drop (f.fin - f.start).toNat, (List.take_append_drop _ _).symm, ?_⟩
  rw [List.length_drop]
  omega

theorem dvd_length_bytes {f : Flush} (h : f.Whole) : pageSize ∣ f.bytes.length := by
  have hall : ∀ ps : List (ℕ × List UInt8), (∀ p ∈ ps, p.2.length = pageSize) →
      pageSize ∣ (ps.map fun p => p.2).flatten.length := by
    intro ps hps
    induction ps with
    | nil => exact Nat.dvd_zero _
    | cons p ps ih =>
      rw [List.map_cons, List.flatten_cons, List.length_append, hps p List.mem_cons_self]
      exact Nat.dvd_add (Nat.dvd_refl _) (ih fun q hq => hps q (List.mem_cons_of_mem p hq))
  exact hall _ h.pages

theorem framed_submitted (memory : Buffer 512) {flushes : List Flush} (h : ∀ f ∈ flushes, f.Whole) :
    Framed (hardlogWelcome memory) (delivered flushes) (submitted memory flushes) := by
  rw [submitted_eq]
  unfold delivered
  induction flushes with
  | nil => exact ⟨[], rfl, rfl, fun p hp => absurd hp List.not_mem_nil⟩
  | cons f fs ih =>
    obtain ⟨parts, hbytes, hstream, hparts⟩ := ih fun g hg => h g (List.mem_cons_of_mem f hg)
    have hf := h f List.mem_cons_self
    obtain ⟨padding, hpadding, hlt⟩ := bytes_eq hf
    refine ⟨(f.payload, padding) :: parts, ?_, ?_, ?_⟩
    · rw [List.flatMap_cons, List.flatMap_cons, ← List.append_cancel_left hbytes, hpadding]
    · rw [List.flatMap_cons, List.flatMap_cons, hstream]
    · intro p hp
      rcases List.mem_cons.mp hp with rfl | hp
      · exact ⟨hlt, hpadding ▸ dvd_length_bytes hf⟩
      · exact hparts p hp

section Host

variable {Tid : Type} {memory : Buffer 512} {ret : ℤ} {tmpbuf : Option (ℕ → UInt8)} {d : Statics}
  {s : LiveState Tid}

theorem bioOpen_sector (h : bioOpen ret tmpbuf = some d) : d.bdeviceSector = 1 := by
  unfold HardLog.Host.Tiling.bioOpen at h
  obtain ⟨-, h⟩ := Option.ite_none_left_eq_some.mp h
  obtain ⟨b, -, rfl⟩ := Option.map_eq_some_iff.mp h
  rfl

theorem flatMap_allPages (flushes : List Flush) :
    flushes.flatMap (fun f => allPages f.submits) = (bios flushes).flatMap Bio.sectorPages := by
  simp only [bios, allPages, List.flatMap_assoc, List.flatMap_map]

/-- **Addresses**: each page stands at the address of its sector among the submitted bytes. -/
theorem page_at_sector (h : bioOpen ret tmpbuf = some d) (hlaid : Laid d.bdeviceSector s)
    {p : ℕ × List UInt8} (hmem : p ∈ pages memory s.flushes) :
    ((submitted memory s.flushes).drop (512 * p.1)).take p.2.length = p.2 := by
  have hlen := length_hardlogWelcome memory
  rw [pages_eq, List.mem_cons] at hmem
  rw [submitted, pages_eq, List.flatMap_cons]
  rcases hmem with rfl | hmem
  · rw [Nat.mul_zero, List.drop_zero, List.take_left]
  obtain ⟨hsec, -⟩ := map_sectorPages hlaid.consecutive
  rw [← flatMap_allPages, bioOpen_sector h] at hsec
  obtain ⟨all, hall⟩ : ∃ all, all = s.flushes.flatMap fun f => allPages f.submits := ⟨_, rfl⟩
  rw [← hall] at hmem hsec ⊢
  have hpage : ∀ q ∈ all, q.2.length = pageSize := by
    intro q hq
    obtain ⟨f, hf, hqf⟩ := List.mem_flatMap.mp (hall ▸ hq)
    obtain ⟨t, ht, hqt⟩ := List.mem_flatMap.mp hqf
    obtain ⟨c, hc, rfl⟩ := List.mem_map.mp hqt
    exact hlaid.whole f hf t ht c.1 (List.fst_mem_of_mem_zipIdx hc)
  obtain ⟨i, hi, rfl⟩ := List.mem_iff_getElem.mp hmem
  have hfst : all[i].1 = 1 + sectorsPerPage * i := by
    have hget := congrArg (fun l => l[i]?) hsec
    simpa [hi] using hget
  have hoffset : 512 * all[i].1 = (hardlogWelcome memory).length + pageSize * i := by
    rw [hfst, hlen]
    simp only [sectorsPerPage, pageSize]
    omega
  rw [hoffset, hpage _ hmem, List.drop_length_add_append, take_drop_flatMap hpage hi]

theorem overLink_of_inv {cfg : Config} {l : LinkState} (h : LinkInv cfg l) {flushes : List Flush}
    (hsub : l.submitted <+: submitted memory flushes) : OverLink l.bus.gadget memory flushes :=
  h.stream_prefix.trans hsub

variable [DecidableEq Tid]

end Host

/-- The welcome block and the page of a record of `execve`. -/
def sentBytes : List UInt8 := submitted cleared afterExecve.flushes

/-- A WRITE(10) of nine blocks. -/
def writeBlocks : FsgCommon :=
  { writeBlock with dataSizeFromCmnd := 4608, residue := 4608, usbAmountLeft := 4608 }

/-- The device, with the bytes to be sent. -/
def beforeSent : LinkState :=
  { linkInit (fun _ => 0) (fun _ => 0) (fun _ _ => 0) writeBlocks with
    unsent := sentBytes
    submitted := sentBytes }

/-- They are sent in one command. -/
def sendSchedule : List LinkAction :=
  [.command writeBlocks 0, .bus (.main calm), .bus (.transfer 4608)] ++
    List.replicate 6 (.bus (.main calm)) ++ [.status]

/-- Where the host is told that they have arrived. -/
def afterSent : LinkState := stateAfter (linkStep twoLuns) beforeSent sendSchedule

/-- Where they are in the log file. -/
def afterLogged : LinkState :=
  stateAfter (linkStep twoLuns) afterSent (List.replicate 4 (.bus (.flusher 4608)))

theorem formed_writeBlocks : WellFormed twoLuns writeBlocks where
  empty := fun _ => rfl
  drain_eq := rfl
  residue_eq := rfl
  size_le := le_rfl
  residue_lt := by decide
  length_ge := wellFormed_writeBlock.length_ge
  buflen_dvd := wellFormed_writeBlock.buflen_dvd
  size_dvd := by
    rintro curlun ⟨rfl⟩
    decide

theorem submitted_of_reach {cfg : Config} {l l' : LinkState}
    (h : Reach (linkStep cfg) (fun _ a => ∀ data, a ≠ .submit data) l l') :
    l'.submitted = l.submitted := by
  refine h.inv (I := fun s => s.submitted = l.submitted) (fun s a s' hI hC hs => ?_) rfl
  rw [← hI]
  cases a with
  | submit data => exact absurd rfl (hC data)
  | command common reply =>
    obtain ⟨g, -, hs⟩ := Option.bind_eq_some_iff.mp hs
    unfold LinkState.take at hs
    split_ifs at hs <;> obtain rfl := Option.some.inj hs <;> rfl
  | status =>
    simp only [linkStep] at hs
    split at hs
    · obtain rfl := Option.some.inj hs
      rfl
    · cases hs
  | bus a =>
    obtain ⟨b, -, rfl⟩ := Option.map_eq_some_iff.mp hs
    rfl

theorem reach_link {l : LinkState} {as : List LinkAction}
    (hrun : (runFrom (linkStep twoLuns) l as).isSome = true)
    (hkept : EachStep (linkStep twoLuns) Kept l as)
    (has : ∀ a ∈ as, Formed twoLuns a ∧ ∀ data, a ≠ .submit data) :
    Reach (linkStep twoLuns) (fun l a => Formed twoLuns a ∧ Kept l a) l
        (stateAfter (linkStep twoLuns) l as) ∧
      (stateAfter (linkStep twoLuns) l as).submitted = l.submitted :=
  ⟨Reach.stateAfter hrun ((EachStep.of_forall_mem (C := fun _ => Formed twoLuns)
      (fun _ a ha => (has a ha).1) _).and hkept),
    submitted_of_reach (Reach.stateAfter hrun (EachStep.of_forall_mem (fun _ a ha => (has a ha).2) _))⟩

theorem reach_afterSent : Reach (linkStep twoLuns) (fun l a => Formed twoLuns a ∧ Kept l a)
    (linkInit (fun _ => 0) (fun _ => 0) (fun _ _ => 0) writeBlocks) afterSent ∧
      afterSent.submitted = sentBytes := by
  have hrun : (runFrom (linkStep twoLuns) beforeSent sendSchedule).isSome = true ∧
      EachStep (linkStep twoLuns) Kept beforeSent sendSchedule := by decide +kernel
  have hsubmit : Reach (linkStep twoLuns) (fun l a => Formed twoLuns a ∧ Kept l a)
      (linkInit (fun _ => 0) (fun _ => 0) (fun _ _ => 0) writeBlocks) beforeSent :=
    (Reach.refl _).snoc (a := .submit sentBytes) ⟨trivial, trivial⟩ rfl
  obtain ⟨hrest, hsubmitted⟩ := reach_link hrun.1 hrun.2 fun a ha => by
    rcases List.mem_cons.mp ha with rfl | ha
    · exact ⟨fun _ => formed_writeBlocks, fun _ h => by cases h⟩
    · cases a with
      | submit | command => simp at ha
      | status | bus => exact ⟨trivial, fun _ h => by cases h⟩
  exact ⟨hsubmit.trans hrest, hsubmitted⟩

theorem reach_afterLogged : Reach (linkStep twoLuns) (fun l a => Formed twoLuns a ∧ Kept l a)
    afterSent afterLogged ∧ afterLogged.submitted = sentBytes ∧
      afterLogged.bus.gadget.store.file.fPos = 4608 := by
  have hrun : (runFrom (linkStep twoLuns) afterSent
      (List.replicate 4 (.bus (.flusher 4608)))).isSome = true ∧
      EachStep (linkStep twoLuns) Kept afterSent (List.replicate 4 (.bus (.flusher 4608))) ∧
        afterLogged.bus.gadget.store.file.fPos = 4608 := by decide +kernel
  obtain ⟨hreach, hsubmitted⟩ := reach_link hrun.1 hrun.2.1 fun a ha => by
    rw [List.eq_of_mem_replicate ha]
    exact ⟨trivial, fun _ h => by cases h⟩
  exact ⟨hreach, hsubmitted.trans reach_afterSent.2, hrun.2.2⟩

end HardLog.System.EndToEnd
