import HardLog.Host.OwnBytes
import HardLog.Lib.CString
import HardLog.Lib.Ranges

/-! # The sectors of the flushes

`bio_write` counts the sector it writes to, the pages of the bio at hand and the bytes that remain
each for itself, and begins a new bio in the middle of its loop. `Filling` is what keeps them
together. `flushes_tile`: behind `bio_open`, the bios of any sequence of calls fill the sectors from 1
on one behind the other, as long as they succeed. A sector number is a natural number, as no device
has `2 ^ 64` sectors and a bio behind its end fails. -/

namespace HardLog.Host.Tiling

open HardLog.Lib.CString HardLog.Lib.Memory HardLog.Lib.Ranges
open HardLog.Host.BioFs HardLog.Host.BioContent HardLog.Host.OwnBytes

/-- `bio_open`, when the device could be opened: `len` is what `submit_bio_wait` returns for the
welcome message, which goes to the sector 0, and `tmpbuf` what `vmalloc` does. -/
def bioOpen (len : ℤ) (tmpbuf : Option (ℕ → UInt8)) : Option Statics :=
  if len < 0 then none else tmpbuf.map fun t => ⟨0 + 1, t⟩

/-- The first 512 bytes of `hardlog_welcome`, in the memory that `vmalloc` has returned. -/
def hardlogWelcome (memory : Buffer 512) : List UInt8 :=
  (memory.snprintf (ofChars "Welcome to HARDLOG!\n".toList)).bytes

theorem length_hardlogWelcome (memory : Buffer 512) : (hardlogWelcome memory).length = 512 :=
  (memory.snprintf _).length_bytes

/-- The sector behind those a bio is written to. -/
def endSector (b : Bio) : ℕ := b.biSector + sectorsPerPage * b.pages.length

/-- The bios that a sequence of calls submits. -/
def biosOf (d : Statics) : List Call → List Bio
  | [] => []
  | c :: calls =>
    let r := bioWrite c.ret c.buffer d c.fin c.start
    r.submits.map (fun s => s.bio) ++ biosOf r.statics calls

/-- The pages of a call for `n` bytes: the `i`-th holds those from `4096 * i` on. -/
def callPages (d : Statics) (c : Call) : List (List UInt8) :=
  (List.range (pageCount (c.fin - c.start).toNat)).map
    (pageAt c.buffer d.tmpbuf c.start.toNat (c.fin - c.start).toNat)

/-- **One flush**: each of its pages is in one bio, in order, and the bios have up to 256 pages. -/
structure Split (d : Statics) (c : Call) : Prop where
  pages : (pagesOf (bioWrite c.ret c.buffer d c.fin c.start).submits).flatten = callPages d c
  sizes : ∀ s ∈ (bioWrite c.ret c.buffer d c.fin c.start).submits,
    1 ≤ s.bio.pages.length ∧ s.bio.pages.length ≤ 256

/-- **All flushes**: each is split into bios, and these are written to consecutive ranges of sectors
from `s` on, no two of which overlap. -/
structure Tiled (s : ℕ) (d : Statics) (calls : List Call) : Prop where
  split : ∀ pre c post, calls = pre ++ c :: post → Split (after d pre) c
  consecutive : Consecutive Bio.biSector endSector s (biosOf d calls)
    (after d calls).bdeviceSector
  disjoint : (biosOf d calls).Pairwise fun b b' => endSector b ≤ b'.biSector

/-! ### One flush -/

/-- The bio at hand has at most `m` pages; it ends where `bdevice_sector` is and begins where the last
one submitted ends. -/
structure Filling (m s : ℕ) (v : Vars) : Prop where
  added : v.usbBio.pages.length = v.addedPages
  space : v.addedPages ≤ m
  sector : endSector v.usbBio = v.statics.bdeviceSector
  pages : ∀ p ∈ v.usbBio.pages, p.length = pageSize
  sizes : ∀ t ∈ v.submits, 1 ≤ t.bio.pages.length ∧ t.bio.pages.length ≤ 256
  whole : ∀ t ∈ v.submits, ∀ p ∈ t.bio.pages, p.length = pageSize
  consecutive : Consecutive Bio.biSector endSector s (v.submits.map fun t => t.bio)
    v.usbBio.biSector

section Flush

variable {m s : ℕ} {v : Vars}

theorem Filling.mono {m' : ℕ} (h : Filling m s v) (hm : m ≤ m') : Filling m' s v :=
  ⟨h.added, h.space.trans hm, h.sector, h.pages, h.sizes, h.whole, h.consecutive⟩

theorem filling_start (d : Statics) (n : ℕ) :
    Filling 255 d.bdeviceSector ⟨n, 0, 0, ⟨d.bdeviceSector, []⟩, d, []⟩ :=
  ⟨rfl, Nat.zero_le _, rfl, fun _ hp => absurd hp List.not_mem_nil,
    fun _ ht => absurd ht List.not_mem_nil, fun _ ht => absurd ht List.not_mem_nil, rfl⟩

theorem Filling.advance (h : Filling m s v) (consumed remaining : ℕ) :
    Filling m s { v with consumed, remaining } :=
  ⟨h.added, h.space, h.sector, h.pages, h.sizes, h.whole, h.consecutive⟩

theorem Filling.of_empty (h : Filling 0 s v) :
    Consecutive Bio.biSector endSector s (v.submits.map fun t => t.bio)
      v.statics.bdeviceSector := by
  have hempty : endSector v.usbBio = v.usbBio.biSector := by
    rw [endSector, h.added, Nat.le_zero.mp h.space]
    rfl
  rw [← h.sector, hempty]
  exact h.consecutive

/-- **A page** makes the bio longer, and it ends as many sectors later. -/
theorem Filling.addPage (h : Filling m s v) (buffer : ℕ → UInt8) (start : ℕ) :
    Filling (m + 1) s (addPage buffer start v) := by
  have hspace := h.space
  have hend : ∀ page, endSector ⟨v.usbBio.biSector, v.usbBio.pages ++ [page]⟩ =
      v.statics.bdeviceSector + sectorsPerPage := by
    intro page
    rw [← h.sector, endSector, endSector, List.length_append, List.length_singleton, Nat.mul_add,
      Nat.mul_one, Nat.add_assoc]
  have hlength : ∀ page, (v.usbBio.pages ++ [page]).length = v.addedPages + 1 := by
    intro page
    rw [List.length_append, List.length_singleton, h.added]
  have hpages : ∀ m i, ∀ p ∈ v.usbBio.pages ++ [vmallocToPage m i], p.length = pageSize := by
    intro m i p hp
    rcases List.mem_append.mp hp with hp | hp
    · exact h.pages p hp
    · rw [List.mem_singleton.mp hp]
      exact length_slice _ _ _
  unfold BioFs.addPage
  by_cases hfull : pageSize ≤ v.remaining
  · simp only [if_pos hfull]
    exact ⟨hlength _, by simp only; omega, hend _, hpages _ _, h.sizes, h.whole, h.consecutive⟩
  · simp only [if_neg hfull]
    exact ⟨hlength _, by simp only; omega, hend _, hpages _ _, h.sizes, h.whole, h.consecutive⟩

variable {ret : ℕ → ℤ} (hret : ∀ k, 0 ≤ ret k)
include hret

/-- **A submit** of a bio with pages begins the next where this one ends. -/
theorem Filling.submit (h : Filling 256 s v) (hpos : 0 < v.addedPages) :
    ∃ v', v.submit ret = .ok v' ∧ Filling 0 s v' := by
  have hadded := h.added
  have hspace := h.space
  have hnot : ¬ ret v.submits.length < 0 := Int.not_lt.mpr (hret _)
  unfold Vars.submit
  simp only [if_neg hnot]
  refine ⟨_, rfl, rfl, Nat.le_refl 0, rfl, fun p hp => absurd hp List.not_mem_nil, ?_, ?_, ?_⟩
  · intro t ht
    rcases List.mem_append.mp ht with ht | ht
    · exact h.sizes t ht
    · obtain rfl := List.mem_singleton.mp ht
      simp only
      omega
  · intro t ht
    rcases List.mem_append.mp ht with ht | ht
    · exact h.whole t ht
    · rw [List.mem_singleton.mp ht]
      exact h.pages
  · simp only [List.map_append, List.map_cons, List.map_nil]
    rw [← h.sector]
    exact h.consecutive.concat

theorem Filling.round (h : Filling 255 s v) (buffer : ℕ → UInt8) (start : ℕ) :
    ∃ v', bioWriteRound ret buffer start v = .ok v' ∧ Filling 255 s v' := by
  have hadd := h.addPage buffer start
  have hspace := hadd.space
  unfold bioWriteRound
  by_cases hfull : (BioFs.addPage buffer start v).addedPages = 256
  · obtain ⟨v', hs, hfill⟩ := hadd.submit hret (by omega)
    simp only [if_pos hfull]
    exact ⟨v', hs, hfill.mono (by omega)⟩
  · simp only [if_neg hfull]
    exact ⟨_, rfl, hadd.added, by omega, hadd.sector, hadd.pages, hadd.sizes, hadd.whole,
      hadd.consecutive⟩

theorem Filling.loop (h : Filling 255 s v) (buffer : ℕ → UInt8) (start : ℕ) :
    ∃ v', bioWriteLoop ret buffer start v = .ok v' ∧ Filling 255 s v' := by
  induction hr : v.remaining using Nat.strong_induction_on generalizing v with
  | _ r ih =>
    obtain ⟨v', hround, hfill⟩ := h.round hret buffer start
    rw [bioWriteLoop]
    simp only [hround]
    by_cases hbreak : v.remaining ≤ pageSize
    · rw [if_pos hbreak]
      exact ⟨v', rfl, hfill⟩
    · rw [if_neg hbreak]
      refine ih (v.remaining - pageSize) (by unfold pageSize at *; omega) ?_ rfl
      exact hfill.advance _ _

theorem Filling.rest (h : Filling 255 s v) :
    ∃ v', bioWriteRest ret v = .ok v' ∧ Filling 0 s v' := by
  unfold bioWriteRest
  by_cases hpos : 0 < v.addedPages
  · rw [if_pos hpos]
    exact (h.mono (by omega)).submit hret hpos
  · rw [if_neg hpos]
    exact ⟨v, rfl, h.added, by omega, h.sector, h.pages, h.sizes, h.whole, h.consecutive⟩

/-- **`bio_write`**: its bios have pages, and reach from the old `bdevice_sector` to the new one. -/
theorem bioWrite_filling (buffer : ℕ → UInt8) (d : Statics) (fin start : UInt64) :
    (∀ t ∈ (bioWrite ret buffer d fin start).submits,
      1 ≤ t.bio.pages.length ∧ t.bio.pages.length ≤ 256) ∧
    Consecutive Bio.biSector endSector d.bdeviceSector
      ((bioWrite ret buffer d fin start).submits.map fun t => t.bio)
      (bioWrite ret buffer d fin start).statics.bdeviceSector := by
  unfold bioWrite
  by_cases hn : (fin - start).toNat = 0
  · simp only [if_pos hn]
    exact ⟨fun t ht => absurd ht List.not_mem_nil, rfl⟩
  obtain ⟨v, hloop, hfill⟩ := (filling_start d (fin - start).toNat).loop hret buffer start.toNat
  obtain ⟨v', hrest, hdone⟩ := hfill.rest hret
  simp only [if_neg hn, hloop, Except.bind, hrest]
  exact ⟨hdone.sizes, hdone.of_empty⟩

theorem flatten_pagesOf_bioWrite (buffer : ℕ → UInt8) (d : Statics) (fin start : UInt64) :
    (pagesOf (bioWrite ret buffer d fin start).submits).flatten =
      callPages d ⟨ret, buffer, fin, start⟩ := by
  rcases Nat.eq_zero_or_pos (fin - start).toNat with h0 | hpos
  · rw [callPages, bioWrite]
    simp only [h0, if_true]
    rfl
  · rw [flatten_pagesOf, (done_of_succeeds ret hret buffer d hpos).pages, firstPages, List.map_map]
    rfl

end Flush

/-! ### All flushes -/

theorem biosOf_consecutive {calls : List Call} (hret : ∀ c ∈ calls, ∀ k, 0 ≤ c.ret k)
    (d : Statics) :
    Consecutive Bio.biSector endSector d.bdeviceSector (biosOf d calls)
      (after d calls).bdeviceSector := by
  induction calls generalizing d with
  | nil => exact rfl
  | cons c calls ih =>
    have hfirst := (bioWrite_filling (hret c List.mem_cons_self) c.buffer d c.fin c.start).2
    exact hfirst.append (ih (fun c' hc' => hret c' (List.mem_cons_of_mem c hc')) _)

/-- **The flushes tile the device**: behind `bio_open`, calls for any ranges whose submits all
succeed. -/
theorem flushes_tile {len : ℤ} {tmpbuf : Option (ℕ → UInt8)} {d : Statics} {calls : List Call}
    (hopen : bioOpen len tmpbuf = some d) (hret : ∀ c ∈ calls, ∀ k, 0 ≤ c.ret k) :
    Tiled 1 d calls := by
  have hd : d.bdeviceSector = 1 := by
    unfold bioOpen at hopen
    split_ifs at hopen
    obtain ⟨t, -, rfl⟩ := Option.map_eq_some_iff.mp hopen
    rfl
  have hcons := biosOf_consecutive hret d
  rw [hd] at hcons
  refine ⟨?_, hcons, hcons.pairwise fun b _ => Nat.le_add_right _ _⟩
  rintro pre c post rfl
  have hc := hret c (List.mem_append_right pre List.mem_cons_self)
  exact ⟨flatten_pagesOf_bioWrite hc c.buffer _ c.fin c.start,
    (bioWrite_filling hc c.buffer _ c.fin c.start).1⟩

/-- A flush of a byte and one of 1 MB and a byte. -/
theorem flushes_tile_two :
    Tiled 1 ⟨1, fun _ => 0⟩ [⟨fun _ => 0, fun _ => 65, 1, 0⟩, ⟨fun _ => 0, fun _ => 65, 1048578, 1⟩] :=
  flushes_tile (show bioOpen 0 (some fun _ => 0) = some _ from rfl)
    (fun c hc k => by
      rcases List.mem_cons.mp hc with rfl | hc
      · exact Int.le_refl 0
      · obtain rfl := List.mem_singleton.mp hc
        exact Int.le_refl 0)

end HardLog.Host.Tiling
