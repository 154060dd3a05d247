import HardLog.Host.BioContent

/-! # What a flush sends besides its own bytes

`tmpbuf` is one page for all flushes and is never cleared, and a full page is sent from where it
begins, whatever the address. So what a call of `bio_write` submits can depend on earlier flushes and
on bytes of the ring outside of its range. `onlyOwn_iff` compares two runs of flushes that end with a
call for the same range and says for which ranges the last calls submit the same pages. -/

namespace HardLog.Host.OwnBytes

open HardLog.Lib.Memory HardLog.Lib.Ring HardLog.Host.Ring HardLog.Host.BioFs HardLog.Host.BioContent

/-- A call of `bio_write`: what its submits return, what the ring holds, and its range. -/
structure Call where
  ret : ℕ → ℤ
  buffer : ℕ → UInt8
  fin : UInt64
  start : UInt64

/-- The static variables behind a sequence of calls. -/
def after (d : Statics) (calls : List Call) : Statics :=
  calls.foldl (fun d c => (bioWrite c.ret c.buffer d c.fin c.start).statics) d

/-- The pages of each submit. -/
def pagesOf (submits : List Submit) : List (List (List UInt8)) := submits.map fun s => s.bio.pages

/-- The two rings hold the same at the positions of the range. -/
def AgreeOn (buffer buffer' : ℕ → UInt8) (start n : ℕ) : Prop :=
  ∀ k < n, buffer ((start + k) % hardlogAuditCbuffsize) = buffer' ((start + k) % hardlogAuditCbuffsize)

/-- **Only its own bytes**: in two runs whatsoever that end with a call for `[start, fin)`, the rings
agreeing on the range, the last calls submit the same pages. -/
def OnlyOwn (fin start : UInt64) : Prop :=
  ∀ (d d' : Statics) (calls calls' : List Call) (ret : ℕ → ℤ) (buffer buffer' : ℕ → UInt8),
    AgreeOn buffer buffer' start.toNat (fin - start).toNat →
      pagesOf (bioWrite ret buffer (after d calls) fin start).submits =
        pagesOf (bioWrite ret buffer' (after d' calls') fin start).submits

/-! ### Two calls side by side -/

/-- Two calls are at the same place and have submitted the same. -/
structure Same (v v' : Vars) : Prop where
  remaining : v.remaining = v'.remaining
  consumed : v.consumed = v'.consumed
  addedPages : v.addedPages = v'.addedPages
  pages : v.usbBio.pages = v'.usbBio.pages
  submits : pagesOf v.submits = pagesOf v'.submits

/-- Both go on, or both stop at a failed submit. -/
def Alike : Except Vars Vars → Except Vars Vars → Prop
  | .ok v, .ok v' => Same v v'
  | .error v, .error v' => Same v v'
  | _, _ => False

section TwoCalls

variable {ret : ℕ → ℤ} {buffer buffer' : ℕ → UInt8} {start : ℕ} {v v' : Vars}

theorem Alike.bind {x x' : Except Vars Vars} {f f' : Vars → Except Vars Vars} (h : Alike x x')
    (hf : ∀ {v v'}, Same v v' → Alike (f v) (f' v')) : Alike (x.bind f) (x'.bind f') := by
  rcases x with v | v <;> rcases x' with v' | v'
  · exact h
  · exact h.elim
  · exact h.elim
  · exact hf h

theorem Same.length_submits (h : Same v v') : v.submits.length = v'.submits.length := by
  have := congrArg List.length h.submits
  simpa [pagesOf] using this

theorem Same.addPage (h : Same v v') (hfull : pageSize ≤ v.remaining)
    (hpage : vmallocToPage buffer ((start + v.consumed) % hardlogAuditCbuffsize) =
      vmallocToPage buffer' ((start + v.consumed) % hardlogAuditCbuffsize)) :
    Same (addPage buffer start v) (addPage buffer' start v') := by
  have hfull' : pageSize ≤ v'.remaining := h.remaining ▸ hfull
  unfold BioFs.addPage
  rw [if_pos hfull, if_pos hfull']
  refine ⟨h.remaining, h.consumed, ?_, ?_, h.submits⟩
  · simp only [h.addedPages]
  · simp only [h.pages, hpage, ← h.consumed]

theorem Same.submit (h : Same v v') (ret : ℕ → ℤ) : Alike (v.submit ret) (v'.submit ret) := by
  have hsub : ∀ r, pagesOf (v.submits ++ [⟨v.usbBio, r⟩]) = pagesOf (v'.submits ++ [⟨v'.usbBio, r⟩]) := by
    intro r
    have := h.submits
    simp_all [pagesOf, h.pages]
  unfold Vars.submit
  rw [h.length_submits]
  by_cases hret : ret v'.submits.length < 0
  · simp only [if_pos hret]
    exact ⟨h.remaining, h.consumed, h.addedPages, h.pages, hsub _⟩
  · simp only [if_neg hret]
    exact ⟨h.remaining, h.consumed, rfl, rfl, hsub _⟩

theorem Same.round (h : Same v v') (ret : ℕ → ℤ) (hfull : pageSize ≤ v.remaining)
    (hpage : vmallocToPage buffer ((start + v.consumed) % hardlogAuditCbuffsize) =
      vmallocToPage buffer' ((start + v.consumed) % hardlogAuditCbuffsize)) :
    Alike (bioWriteRound ret buffer start v) (bioWriteRound ret buffer' start v') := by
  have hadd := h.addPage hfull hpage
  unfold bioWriteRound
  simp only [hadd.addedPages]
  split_ifs
  · exact hadd.submit ret
  · exact hadd

theorem Same.loop (h : Same v v') (ret : ℕ → ℤ) (hdvd : pageSize ∣ v.remaining)
    (hpos : 0 < v.remaining)
    (hpages : ∀ i, pageSize * i < v.remaining →
      vmallocToPage buffer ((start + (v.consumed + pageSize * i)) % hardlogAuditCbuffsize) =
        vmallocToPage buffer' ((start + (v.consumed + pageSize * i)) % hardlogAuditCbuffsize)) :
    Alike (bioWriteLoop ret buffer start v) (bioWriteLoop ret buffer' start v') := by
  induction hr : v.remaining using Nat.strong_induction_on generalizing v v' with
  | _ r ih =>
    have hround := h.round ret (Nat.le_of_dvd hpos hdvd) (hpages 0 (by omega))
    rw [bioWriteLoop, bioWriteLoop, ← h.remaining]
    rcases hv : bioWriteRound ret buffer start v with w | w <;>
      rcases hv' : bioWriteRound ret buffer' start v' with w' | w' <;> rw [hv, hv'] at hround
    · exact hround
    · exact hround.elim
    · exact hround.elim
    · by_cases hlast : v.remaining ≤ pageSize
      · simp only [if_pos hlast]
        exact hround
      · simp only [if_neg hlast]
        refine ih (v.remaining - pageSize) (by unfold pageSize at *; omega) ?_ ?_ ?_ ?_ rfl
        · exact ⟨rfl, by rw [h.consumed], hround.addedPages, hround.pages, hround.submits⟩
        · exact Nat.dvd_sub hdvd (Nat.dvd_refl _)
        · simp only
          omega
        · intro i hi
          have := hpages (i + 1) (by simp only at hi; rw [Nat.mul_add]; omega)
          simpa only [Nat.mul_add, Nat.mul_one, Nat.add_assoc, Nat.add_comm pageSize] using this

theorem Same.rest (h : Same v v') (ret : ℕ → ℤ) :
    Alike (bioWriteRest ret v) (bioWriteRest ret v') := by
  unfold bioWriteRest
  rw [h.addedPages]
  split_ifs
  · exact h.submit ret
  · exact h

theorem bioWrite_same {d d' : Statics} {fin start : UInt64} (hdvd : pageSize ∣ (fin - start).toNat)
    (hpages : ∀ i, pageSize * i < (fin - start).toNat →
      vmallocToPage buffer ((start.toNat + pageSize * i) % hardlogAuditCbuffsize) =
        vmallocToPage buffer' ((start.toNat + pageSize * i) % hardlogAuditCbuffsize)) :
    pagesOf (bioWrite ret buffer d fin start).submits =
      pagesOf (bioWrite ret buffer' d' fin start).submits := by
  unfold bioWrite
  by_cases h0 : (fin - start).toNat = 0
  · simp [h0]
  simp only [if_neg h0]
  have hstart : Same ⟨(fin - start).toNat, 0, 0, ⟨d.bdeviceSector, []⟩, d, []⟩
      ⟨(fin - start).toNat, 0, 0, ⟨d'.bdeviceSector, []⟩, d', []⟩ := ⟨rfl, rfl, rfl, rfl, rfl⟩
  have hloop := hstart.loop ret hdvd (Nat.pos_of_ne_zero h0) (by simpa using hpages)
  have hend : Alike
      ((bioWriteLoop ret buffer start.toNat
        ⟨(fin - start).toNat, 0, 0, ⟨d.bdeviceSector, []⟩, d, []⟩).bind (bioWriteRest ret))
      ((bioWriteLoop ret buffer' start.toNat
        ⟨(fin - start).toNat, 0, 0, ⟨d'.bdeviceSector, []⟩, d', []⟩).bind (bioWriteRest ret)) :=
    hloop.bind fun h => h.rest ret
  revert hend
  generalize (bioWriteLoop ret buffer start.toNat _).bind (bioWriteRest ret) = x
  generalize (bioWriteLoop ret buffer' start.toNat _).bind (bioWriteRest ret) = x'
  intro hend
  rcases x with v | v <;> rcases x' with v' | v'
  · exact hend.submits
  · exact hend.elim
  · exact hend.elim
  · exact hend.submits

end TwoCalls

/-! ### The pages of a range -/

theorem page_in_range {start n i r : ℕ} (hdvd : pageSize ∣ n) (hi : pageSize * i < n)
    (hr : r < pageSize) (h : pageSize ∣ start ∨ hardlogAuditCbuffsize ≤ n) :
    ∃ k < n, (start + k) % hardlogAuditCbuffsize =
      (start + pageSize * i) % hardlogAuditCbuffsize / pageSize * pageSize + r := by
  have hx := Nat.mod_lt (start + pageSize * i) hardlogAuditCbuffsize_pos
  rcases h with hstart | hle
  · have hm := mod_page start i
    rw [Nat.mod_eq_zero_of_dvd hstart] at hm
    have hroom := index_add_pageSize_le hx hm
    have hend : pageSize * i + pageSize ≤ n := by
      obtain ⟨c, rfl⟩ := hdvd
      rw [← Nat.mul_succ]
      exact Nat.mul_le_mul_left _ (Nat.lt_of_mul_lt_mul_left hi)
    refine ⟨pageSize * i + r, by omega, ?_⟩
    rw [Nat.div_mul_cancel (Nat.dvd_of_mod_eq_zero hm), ← Nat.add_assoc]
    exact add_mod_of_lt (by omega)
  · obtain ⟨x, hxeq⟩ : ∃ x, x = (start + pageSize * i) % hardlogAuditCbuffsize / pageSize * pageSize + r :=
      ⟨_, rfl⟩
    rw [← hxeq]
    have hlt : x < hardlogAuditCbuffsize := by
      unfold hardlogAuditCbuffsize pageSize at *
      omega
    have hdiv := Nat.div_add_mod start hardlogAuditCbuffsize
    have hmod := Nat.mod_lt start hardlogAuditCbuffsize_pos
    refine ⟨(x + hardlogAuditCbuffsize - start % hardlogAuditCbuffsize) % hardlogAuditCbuffsize,
      (Nat.mod_lt _ hardlogAuditCbuffsize_pos).trans_le hle, ?_⟩
    have hround : start + (x + hardlogAuditCbuffsize - start % hardlogAuditCbuffsize) =
        x + hardlogAuditCbuffsize * (start / hardlogAuditCbuffsize + 1) := by
      rw [Nat.mul_add]
      omega
    rw [Nat.add_mod_mod, hround, Nat.add_mul_mod_self_left, Nat.mod_eq_of_lt hlt]

theorem AgreeOn.page_eq {buffer buffer' : ℕ → UInt8} {start n i : ℕ}
    (hag : AgreeOn buffer buffer' start n) (hdvd : pageSize ∣ n) (hi : pageSize * i < n)
    (h : pageSize ∣ start ∨ hardlogAuditCbuffsize ≤ n) :
    vmallocToPage buffer ((start + pageSize * i) % hardlogAuditCbuffsize) =
      vmallocToPage buffer' ((start + pageSize * i) % hardlogAuditCbuffsize) := by
  refine slice_congr fun r hr => ?_
  obtain ⟨k, hk, heq⟩ := page_in_range hdvd hi hr h
  rw [← heq]
  exact hag k hk

theorem flatten_pagesOf (submits : List Submit) :
    (pagesOf submits).flatten = (allPages submits).map fun p => p.2 := by
  induction submits with
  | nil => rfl
  | cons s rest ih =>
    have hpages : s.bio.sectorPages.map (fun p => p.2) = s.bio.pages := by
      simp [Bio.sectorPages, List.map_map, Function.comp_def, List.zipIdx_map_fst]
    simp only [pagesOf, allPages, List.map_cons, List.flatten_cons, List.flatMap_cons,
      List.map_append, hpages] at ih ⊢
    rw [ih]

theorem pageAt_eq_of_pagesOf {buffer buffer' : ℕ → UInt8} {d d' : Statics} {fin start : UInt64}
    (heq : pagesOf (bioWrite (fun _ => 0) buffer d fin start).submits =
      pagesOf (bioWrite (fun _ => 0) buffer' d' fin start).submits)
    {i : ℕ} (hi : pageSize * i < (fin - start).toNat) :
    pageAt buffer d.tmpbuf start.toNat (fin - start).toNat i =
      pageAt buffer' d'.tmpbuf start.toNat (fin - start).toNat i := by
  have hret : ∀ k : ℕ, (0 : ℤ) ≤ (fun _ => 0 : ℕ → ℤ) k := fun _ => Int.le_refl 0
  have hn : 0 < (fin - start).toNat := by omega
  have hpages := congrArg List.flatten heq
  rw [flatten_pagesOf, flatten_pagesOf, (done_of_succeeds _ hret _ _ hn).pages,
    (done_of_succeeds _ hret _ _ hn).pages, firstPages, firstPages, List.map_map, List.map_map,
    List.map_inj_left] at hpages
  exact hpages i (List.mem_range.mpr (lt_pageCount hi))

/-- Behind the bytes of a last page that is not whole, `tmpbuf` is sent. -/
theorem pageAt_rest (buffer tmpbuf : ℕ → UInt8) {start n i k : ℕ} (hlast : n - pageSize * i < pageSize)
    (hk : n - pageSize * i ≤ k) (hk' : k < (pageAt buffer tmpbuf start n i).length) :
    (pageAt buffer tmpbuf start n i)[k] = tmpbuf k := by
  simp only [pageAt, if_neg (Nat.not_le.mpr hlast), vmallocToPage, getElem_slice, Nat.zero_div,
    Nat.zero_mul, Nat.zero_add]
  exact memcpy_outside _ _ _ (Or.inr (by rw [length_slice]; omega))

section Pages

variable {fin start : UInt64} (h : OnlyOwn fin start)

include h

/-- The last page is a whole one: else the end of `tmpbuf` is sent. -/
theorem OnlyOwn.dvd_size : pageSize ∣ (fin - start).toNat := by
  by_contra hdvd
  have hdiv := Nat.div_add_mod (fin - start).toNat pageSize
  have hlt := Nat.mod_lt (fin - start).toNat pageSize_pos
  have hpos : 0 < (fin - start).toNat % pageSize :=
    Nat.pos_of_ne_zero fun h0 => hdvd (Nat.dvd_of_mod_eq_zero h0)
  have hpage := pageAt_eq_of_pagesOf (h ⟨0, fun _ => 0⟩ ⟨0, fun _ => 1⟩ [] [] (fun _ => 0)
    (fun _ => 0) (fun _ => 0) fun _ _ => rfl) (i := (fin - start).toNat / pageSize) (by omega)
  have hlast := congrArg (fun l => l[pageSize - 1]?) hpage
  simp only at hlast
  rw [List.getElem?_eq_getElem (by rw [length_pageAt]; omega),
    List.getElem?_eq_getElem (by rw [length_pageAt]; omega),
    pageAt_rest _ _ (by omega) (by omega), pageAt_rest _ _ (by omega) (by omega)] at hlast
  exact absurd hlast (by decide)

/-- The first page is all in the range: else what is in front of the range is sent. -/
theorem OnlyOwn.dvd_start (hn : 0 < (fin - start).toNat)
    (hlt : (fin - start).toNat < hardlogAuditCbuffsize) : pageSize ∣ start.toNat := by
  by_contra hdvd
  have hm := mod_page start.toNat 0
  rw [Nat.mul_zero, Nat.add_zero] at hm
  have hpos : 0 < start.toNat % pageSize :=
    Nat.pos_of_ne_zero fun h0 => hdvd (Nat.dvd_of_mod_eq_zero h0)
  have hle := Nat.le_of_dvd hn h.dvd_size
  have hdiv := Nat.div_add_mod' (start.toNat % hardlogAuditCbuffsize) pageSize
  have hmod := Nat.mod_lt start.toNat hardlogAuditCbuffsize_pos
  have hr := Nat.mod_lt start.toNat pageSize_pos
  have hag : AgreeOn (fun _ => 0) (fun i => if i = start.toNat % hardlogAuditCbuffsize - 1 then 1 else 0)
      start.toNat (fin - start).toNat := by
    intro k hk
    have hne : (start.toNat + k) % hardlogAuditCbuffsize ≠
        start.toNat % hardlogAuditCbuffsize - 1 := by
      have hcases := mod_cases hardlogAuditCbuffsize_pos
        (Nat.le_add_right start.toNat k) (by omega)
      omega
    simp only [if_neg hne]
  have hpage := pageAt_eq_of_pagesOf
    (h ⟨0, fun _ => 0⟩ ⟨0, fun _ => 0⟩ [] [] (fun _ => 0) _ _ hag) (i := 0) (by omega)
  unfold pageAt at hpage
  simp only [Nat.mul_zero, Nat.add_zero, Nat.sub_zero, if_pos hle] at hpage
  have hfront := slice_inj hpage (show start.toNat % pageSize - 1 < pageSize by omega)
  rw [if_pos (by omega)] at hfront
  exact absurd hfront (by decide)

end Pages

/-- **Only its own bytes**: exactly the ranges of whole pages that start at a page or are as long as
the ring, and the empty ones. -/
theorem onlyOwn_iff (fin start : UInt64) :
    OnlyOwn fin start ↔
      pageSize ∣ (fin - start).toNat ∧
        ((fin - start).toNat = 0 ∨ pageSize ∣ start.toNat ∨
          hardlogAuditCbuffsize ≤ (fin - start).toNat) := by
  constructor
  · intro h
    refine ⟨h.dvd_size, ?_⟩
    rcases Nat.eq_zero_or_pos (fin - start).toNat with h0 | hpos
    · exact Or.inl h0
    rcases Nat.lt_or_ge (fin - start).toNat hardlogAuditCbuffsize with hlt | hge
    · exact Or.inr (Or.inl (h.dvd_start hpos hlt))
    · exact Or.inr (Or.inr hge)
  · rintro ⟨hdvd, hor⟩ d d' calls calls' ret buffer buffer' hag
    refine bioWrite_same hdvd fun i hi => hag.page_eq hdvd hi ?_
    exact hor.resolve_left (by omega)

/-- A ring with 200 bytes of one record, and another record behind it. -/
def twoRecords (b : UInt8) : ℕ → UInt8 := fun i => if i < 200 then b else 67

/-- The first record is flushed, then 100 bytes of the second: behind these the last page has the last
100 bytes of the first record once more. -/
theorem record_sent_again :
    AgreeOn (twoRecords 65) (twoRecords 66) 200 100 ∧
      pagesOf (bioWrite (fun _ => 0) (twoRecords 65)
          (after ⟨1, fun _ => 0⟩ [⟨fun _ => 0, twoRecords 65, 200, 0⟩]) 300 200).submits ≠
        pagesOf (bioWrite (fun _ => 0) (twoRecords 66)
          (after ⟨1, fun _ => 0⟩ [⟨fun _ => 0, twoRecords 66, 200, 0⟩]) 300 200).submits := by
  have hag : AgreeOn (twoRecords 65) (twoRecords 66) 200 100 := by
    intro k hk
    have hge : ¬ (200 + k) % hardlogAuditCbuffsize < 200 := by
      unfold hardlogAuditCbuffsize
      omega
    simp only [twoRecords, if_neg hge]
  refine ⟨hag, fun heq => ?_⟩
  have hret : ∀ k : ℕ, (0 : ℤ) ≤ (fun _ => 0 : ℕ → ℤ) k := fun _ => Int.le_refl 0
  have htmp : ∀ b, (after ⟨1, fun _ => 0⟩ [⟨fun _ => 0, twoRecords b, 200, 0⟩]).tmpbuf 150 = b := by
    intro b
    change (bioWrite _ _ _ _ _).statics.tmpbuf 150 = b
    rw [bioWrite_tmpbuf _ hret _ (show 0 < ((200 : UInt64) - 0).toNat by decide), leftover,
      if_neg (by decide)]
    exact memcpy_inside _ 0 _ (k := 150) (by rw [length_slice]; decide)
  have hpage := pageAt_eq_of_pagesOf heq (i := 0) (by decide)
  have hcell := congrArg (fun l => l[150]?) hpage
  simp only at hcell
  rw [List.getElem?_eq_getElem (by rw [length_pageAt]; decide),
    List.getElem?_eq_getElem (by rw [length_pageAt]; decide), pageAt_rest _ _ (by decide) (by decide),
    pageAt_rest _ _ (by decide) (by decide), htmp, htmp] at hcell
  exact absurd hcell (by decide)

end HardLog.Host.OwnBytes
