import HardLog.Host.BioFs
import HardLog.Host.Threads

/-! # A flush that fails

`hardlog_auditd_thread` sets the tail to the head it has read, whatever `usb_write` returned, and
`bio_write` moves `bdevice_sector` on with every page it adds, before the page is submitted. So an
iteration in which a device write fails always passes bytes that were not written, and with bios
also sectors (`not_tailOverWritten`). An iteration without a failure passes none
(`tailOverWritten_of_succeeds`). -/

namespace HardLog.Host.FlushFailure

open HardLog.Lib.Runs HardLog.Host.Ring HardLog.Host.BioFs HardLog.Host.Threads

/-- HostBuf and the device it is flushed to. -/
structure FlushState where
  cb : AuditCircBuffer
  usb : Usb

/-- What `usb_write` does in an iteration: the range is `[tail, head)`. -/
def flush (o : Outcome) (s : FlushState) : UsbResult :=
  usbWrite o s.cb.buffer s.usb s.cb.head s.cb.tail

/-- An iteration of the loop of `hardlog_auditd_thread`. The return value is not looked at. -/
def hardlogAuditdIteration (o : Outcome) (s : FlushState) : FlushState :=
  ⟨{ s.cb with tail := s.cb.head }, (flush o s).usb⟩

/-- The pages submitted, each with its sector and whether its submit succeeded. -/
def sentPages (submits : List Submit) : List (ℕ × Bool) :=
  submits.flatMap fun s => s.bio.sectorPages.map fun p => (p.1, decide (0 ≤ s.ret))

/-- A device write of the iteration fails: a submit, or `kernel_write` with an error or a short
count. -/
def WriteFails (o : Outcome) (s : FlushState) : Prop :=
  if s.usb.biof then ∃ b ∈ (flush o s).submits, b.ret < 0
  else o.kernelWrite < (s.cb.head - s.cb.tail).toNat

/-- The write that carries the byte at position `p` succeeded. -/
def Written (o : Outcome) (s : FlushState) (p : ℕ) : Prop :=
  if s.usb.biof then
    ∃ sector, (sentPages (flush o s).submits)[(p - s.cb.tail.toNat) / pageSize]? =
      some (sector, true)
  else (p - s.cb.tail.toNat : ℕ) < o.kernelWrite

/-- The tail has advanced only over bytes whose write succeeded. -/
def TailOverWritten (o : Outcome) (s : FlushState) : Prop :=
  ∀ p, s.cb.tail.toNat ≤ p → p < (hardlogAuditdIteration o s).cb.tail.toNat → Written o s p

/-- `bdevice_sector` has advanced only over sectors that were written. -/
def SectorsWritten (o : Outcome) (s : FlushState) : Prop :=
  ∀ x, s.usb.statics.bdeviceSector ≤ x →
    x < (hardlogAuditdIteration o s).usb.statics.bdeviceSector →
      ∃ p ∈ sentPages (flush o s).submits, p.2 = true ∧ p.1 ≤ x ∧ x < p.1 + sectorsPerPage

/-- Six steps of the flusher that no other thread interrupts are an iteration. -/
theorem runFrom_flusher {Tid : Type} [DecidableEq Tid] {s : HostState Tid} (h : s.flusher = .top)
    (ok : Bool) (o : Outcome) (u : Usb) :
    ∃ s', runFrom hostStep s (List.replicate 6 (.flusher ok)) = some s' ∧ s'.flusher = .top ∧
      s'.cb = (hardlogAuditdIteration o ⟨s.cb, u⟩).cb := by
  simp [List.replicate, runFrom, hostStep, flusherStep, h, hardlogAuditdIteration]

/-! ### The pages before and behind the failure -/

theorem sentPages_of_succeeded {submits : List Submit} (h : ∀ s ∈ submits, 0 ≤ s.ret) :
    sentPages submits = (allPages submits).map fun p => (p.1, true) := by
  unfold sentPages allPages
  rw [List.map_flatMap]
  exact List.flatMap_congr fun s hs => by simp [h s hs]

section Pages

variable {buffer : ℕ → UInt8} {d st : Statics} {start n j : ℕ} {submits : List Submit}

@[simp] theorem length_firstPages : (firstPages buffer d start n j).length = j := by
  simp [firstPages]

theorem getElem?_firstPages {i : ℕ} (h : i < j) :
    (firstPages buffer d start n j)[i]? =
      some (d.bdeviceSector + sectorsPerPage * i, pageAt buffer d.tmpbuf start n i) := by
  simp [firstPages, h]

theorem getElem?_sentPages_of_done (h : Done buffer d start n st submits) {i : ℕ}
    (hi : i < pageCount n) :
    (sentPages submits)[i]? = some (d.bdeviceSector + sectorsPerPage * i, true) := by
  rw [sentPages_of_succeeded h.succeeded, h.pages, List.getElem?_map, getElem?_firstPages hi]
  rfl

/-- **The failure**: the first `m` pages were written, the others were not. -/
theorem getElem?_sentPages_of_failed {ret : ℕ → ℤ} (h : Failed buffer d start n ret j st submits) :
    ∃ m < j, ∀ i < j,
      (sentPages submits)[i]? = some (d.bdeviceSector + sectorsPerPage * i, decide (i < m)) := by
  obtain ⟨ok, b, k, rfl, hok, hneg, hne, -⟩ := h.last
  have hsplit : allPages ok ++ b.sectorPages = firstPages buffer d start n j := by
    rw [← h.pages]
    simp [allPages]
  have hsent : sentPages (ok ++ [⟨b, ret k⟩]) =
      (allPages ok).map (fun p => (p.1, true)) ++ b.sectorPages.map fun p => (p.1, false) := by
    rw [← sentPages_of_succeeded hok]
    simp [sentPages, show ¬ 0 ≤ ret k by omega]
  have hlen := congrArg List.length hsplit
  rw [List.length_append, length_sectorPages, length_firstPages] at hlen
  have hpos := List.length_pos_iff.mpr hne
  refine ⟨(allPages ok).length, by omega, fun i hi => ?_⟩
  have hget : (firstPages buffer d start n j)[i]? =
      some (d.bdeviceSector + sectorsPerPage * i, pageAt buffer d.tmpbuf start n i) :=
    getElem?_firstPages hi
  rw [← hsplit, List.getElem?_append] at hget
  rw [hsent, List.getElem?_append, List.length_map]
  split_ifs at hget ⊢ with hm
  · rw [List.getElem?_map, hget]
    simp [hm]
  · rw [List.getElem?_map, hget]
    simp [hm]

theorem length_sentPages : (sentPages submits).length = (allPages submits).length := by
  simp [sentPages, allPages, List.length_flatMap]

end Pages

/-! ### The iteration -/

section Iteration

variable {o : Outcome} {s : FlushState}

theorem flush_bio (hb : s.usb.biof = true) :
    (flush o s).submits =
        (bioWrite o.submit s.cb.buffer s.usb.statics s.cb.head s.cb.tail).submits ∧
      (flush o s).usb.statics =
        (bioWrite o.submit s.cb.buffer s.usb.statics s.cb.head s.cb.tail).statics := by
  simp [flush, usbWrite, hb]

variable (h : s.cb.tail < s.cb.head)

include h

theorem size_eq : (s.cb.head - s.cb.tail).toNat = s.cb.head.toNat - s.cb.tail.toNat ∧
    s.cb.tail.toNat < s.cb.head.toNat :=
  ⟨UInt64.toNat_sub_of_le _ _ (UInt64.le_of_lt h), UInt64.lt_iff_toNat_lt.mp h⟩

theorem first_byte {i : ℕ} (hi : i < pageCount (s.cb.head - s.cb.tail).toNat) :
    s.cb.tail.toNat + pageSize * i < s.cb.head.toNat ∧
      (s.cb.tail.toNat + pageSize * i - s.cb.tail.toNat) / pageSize = i := by
  obtain ⟨hn, hlt⟩ := size_eq h
  refine ⟨?_, by rw [Nat.add_sub_cancel_left]; exact Nat.mul_div_cancel_left i (by decide)⟩
  unfold pageCount pageSize at *
  omega

/-- With bios: the first byte of the failed submit and its first sector are passed unwritten. -/
theorem not_written_bio (hb : s.usb.biof = true) (hf : WriteFails o s) :
    ¬ TailOverWritten o s ∧ ¬ SectorsWritten o s := by
  obtain ⟨hn, hlt⟩ := size_eq h
  obtain ⟨hsub, hst⟩ := flush_bio (o := o) hb
  simp only [WriteFails, hb, if_true] at hf
  rcases bioWrite_spec o.submit s.cb.buffer s.usb.statics s.cb.head s.cb.tail
    (by omega) with hdone | ⟨j, hfail⟩
  · obtain ⟨b, hmem, hneg⟩ := hf
    rw [hsub] at hmem
    exact absurd (hdone.succeeded b hmem) (by omega)
  rw [← hsub, ← hst] at hfail
  obtain ⟨m, hmj, hget⟩ := getElem?_sentPages_of_failed hfail
  have hle := hfail.le
  constructor
  · intro htail
    obtain ⟨hp, hidx⟩ := first_byte h (i := m) (by omega)
    have hw := htail _ (Nat.le_add_right _ _) hp
    simp only [Written, hb, if_true, hidx, hget m hmj, Nat.lt_irrefl, decide_false] at hw
    simp at hw
  · intro hsec
    have hb' := hfail.bdeviceSector
    obtain ⟨p, hp, htrue, h1, h2⟩ :=
      hsec (s.usb.statics.bdeviceSector + sectorsPerPage * m) (Nat.le_add_right _ _) (by
        simp only [hardlogAuditdIteration, hb', sectorsPerPage, pageSize]; omega)
    obtain ⟨i, hi⟩ := List.mem_iff_getElem?.mp hp
    have hij : i < j := by
      have := (List.getElem?_eq_some_iff.mp hi).1
      rwa [length_sentPages, hfail.pages, length_firstPages] at this
    rw [hget i hij] at hi
    obtain rfl := Option.some.inj hi
    simp only [decide_eq_true_eq, sectorsPerPage, pageSize] at htrue h1 h2
    omega

/-- With `kernel_write`: the first byte behind its count is passed unwritten. -/
theorem not_written_fs (hb : s.usb.biof = false) (hf : WriteFails o s) : ¬ TailOverWritten o s := by
  obtain ⟨hn, hlt⟩ := size_eq h
  simp only [WriteFails, hb, Bool.false_eq_true, if_false] at hf
  intro htail
  have hw := htail (s.cb.tail.toNat + o.kernelWrite.toNat) (Nat.le_add_right _ _) (by
    simp only [hardlogAuditdIteration]; omega)
  simp only [Written, hb, Bool.false_eq_true, if_false] at hw
  omega

/-- **A failed flush**: whichever device write of an iteration fails, the tail is moved over bytes
whose write has not succeeded, and with bios `bdevice_sector` over sectors that were not written. -/
theorem not_tailOverWritten (hf : WriteFails o s) :
    ¬ TailOverWritten o s ∧ (s.usb.biof = true → ¬ SectorsWritten o s) := by
  cases hb : s.usb.biof with
  | true =>
    obtain ⟨h1, h2⟩ := not_written_bio h hb hf
    exact ⟨h1, fun _ => h2⟩
  | false => exact ⟨not_written_fs h hb hf, fun hc => by cases hc⟩

omit h in
/-- `kernel_write` writes 60 of 100 bytes: the tail is moved over all of them. -/
theorem short_count_loses :
    ¬ TailOverWritten ⟨fun _ => 0, 60⟩
      ⟨⟨fun _ => 65, 100, 0⟩, false, ⟨1, fun _ => 0⟩, fun _ => 0, 512⟩ :=
  (not_tailOverWritten (by decide) (by simp only [WriteFails]; decide)).1

omit h in
/-- The only bio of a flush of 100 bytes fails: the tail is moved over them, and `bdevice_sector`
over the eight sectors of their page. -/
theorem failed_submit_loses :
    WriteFails ⟨fun _ => -5, 0⟩
        ⟨⟨fun _ => 65, 100, 0⟩, true, ⟨1, fun _ => 0⟩, fun _ => 0, 512⟩ ∧
      ¬ TailOverWritten ⟨fun _ => -5, 0⟩
        ⟨⟨fun _ => 65, 100, 0⟩, true, ⟨1, fun _ => 0⟩, fun _ => 0, 512⟩ ∧
      ¬ SectorsWritten ⟨fun _ => -5, 0⟩
        ⟨⟨fun _ => 65, 100, 0⟩, true, ⟨1, fun _ => 0⟩, fun _ => 0, 512⟩ := by
  have hf : WriteFails ⟨fun _ => -5, 0⟩
      ⟨⟨fun _ => 65, 100, 0⟩, true, ⟨1, fun _ => 0⟩, fun _ => 0, 512⟩ := by
    simp [WriteFails, flush, usbWrite, bioWrite, bioWriteLoop, bioWriteRound, addPage,
      pageSize, Except.bind, bioWriteRest, Vars.submit]
  exact ⟨hf, not_written_bio (by decide) rfl hf⟩

theorem tailOverWritten_of_succeeds (hf : ¬ WriteFails o s) :
    TailOverWritten o s ∧ (s.usb.biof = true → SectorsWritten o s) := by
  obtain ⟨hn, hlt⟩ := size_eq h
  cases hb : s.usb.biof with
  | false =>
    refine ⟨fun p h1 h2 => ?_, fun hc => by cases hc⟩
    simp only [WriteFails, hb, Bool.false_eq_true, if_false] at hf
    simp only [hardlogAuditdIteration] at h2
    simp only [Written, hb, Bool.false_eq_true, if_false]
    omega
  | true =>
    obtain ⟨hsub, hst⟩ := flush_bio (o := o) hb
    simp only [WriteFails, hb, if_true] at hf
    rcases bioWrite_spec o.submit s.cb.buffer s.usb.statics s.cb.head s.cb.tail
      (by omega) with hdone | ⟨j, hfail⟩
    swap
    · obtain ⟨ok, b, k, heq, -, hneg, -⟩ := hfail.last
      exact absurd ⟨⟨b, o.submit k⟩, by rw [hsub, heq]; simp, hneg⟩ hf
    rw [← hsub, ← hst] at hdone
    refine ⟨fun p h1 h2 => ?_, fun _ x h1 h2 => ?_⟩
    · simp only [hardlogAuditdIteration] at h2
      simp only [Written, hb, if_true]
      exact ⟨_, getElem?_sentPages_of_done hdone (by unfold pageCount pageSize; omega)⟩
    · have hb' := hdone.bdeviceSector
      simp only [hardlogAuditdIteration, hb', sectorsPerPage, pageSize] at h2
      obtain ⟨i, hi⟩ : ∃ i, i = (x - s.usb.statics.bdeviceSector) / 8 := ⟨_, rfl⟩
      have hget := getElem?_sentPages_of_done hdone (i := i) (by omega)
      refine ⟨_, List.mem_of_getElem? hget, rfl, ?_, ?_⟩ <;>
        simp only [sectorsPerPage, pageSize] <;> omega

end Iteration

end HardLog.Host.FlushFailure
