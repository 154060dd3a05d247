import HardLog.Host.Ring
import HardLog.Lib.Files

/-! # Writing the ring to the audit device

`bio_write` cuts the range `[start, end)` into pages of 4096 bytes and submits them in bios of at
most 256. A full page is sent as the page of memory its address lies in; the last, shorter one is
copied to `tmpbuf` first, and the whole of `tmpbuf` is sent. `fs_write` hands the range to
`kernel_write`. `bioWrite_spec` says which pages a call submits, to which sectors, and what is left
when a `submit_bio_wait` fails. The pointers that are checked for null are those `bio_open` and
`fs_open` have set up. -/

namespace HardLog.Host.BioFs

open HardLog.Lib.Memory HardLog.Lib.Files HardLog.Host.Ring

/-- `PAGE_SIZE`. -/
def pageSize : ℕ := 4096

theorem pageSize_pos : 0 < pageSize := by decide

/-- `SECTORS_PER_PAGE`. -/
def sectorsPerPage : ℕ := pageSize / 512

/-- `struct bio`: the sector it starts at and the data of the pages added to it. -/
structure Bio where
  biSector : ℕ
  pages : List (List UInt8)

/-- The data of a bio with the sectors it goes to. -/
def Bio.sectorPages (b : Bio) : List (ℕ × List UInt8) :=
  b.pages.zipIdx.map fun p => (b.biSector + sectorsPerPage * p.2, p.1)

/-- A call of `submit_bio_wait` and what it returned. -/
structure Submit where
  bio : Bio
  ret : ℤ

/-- The static variables of `hl-bio-fs.c` that `bio_write` changes. -/
structure Statics where
  bdeviceSector : ℕ
  tmpbuf : ℕ → UInt8

/-- The variables of `bio_write`, and the bios it has submitted. -/
structure Vars where
  remaining : ℕ
  consumed : ℕ
  addedPages : ℕ
  usbBio : Bio
  statics : Statics
  submits : List Submit

/-- What a call leaves behind. -/
structure Result where
  ret : ℤ
  statics : Statics
  submits : List Submit

/-- The page that holds the address `i` of a page-aligned allocation. -/
def vmallocToPage (m : ℕ → UInt8) (i : ℕ) : List UInt8 := slice m (i / pageSize * pageSize) pageSize

/-- The part of the loop that adds a page. -/
def addPage (buffer : ℕ → UInt8) (start : ℕ) (v : Vars) : Vars :=
  let cbuffIndex := (start + v.consumed) % hardlogAuditCbuffsize
  let sector := v.statics.bdeviceSector + sectorsPerPage
  if pageSize ≤ v.remaining then
    { v with
      addedPages := v.addedPages + 1
      usbBio := { v.usbBio with pages := v.usbBio.pages ++ [vmallocToPage buffer cbuffIndex] }
      statics := { v.statics with bdeviceSector := sector } }
  else
    let tmpbuf := memcpy v.statics.tmpbuf 0 (slice buffer cbuffIndex v.remaining)
    { v with
      addedPages := v.addedPages + 1
      usbBio := { v.usbBio with pages := v.usbBio.pages ++ [vmallocToPage tmpbuf 0] }
      statics := ⟨sector, tmpbuf⟩ }

/-- `submit_bio_wait`, the `k`-th call of which returns `ret k`, and the bio made ready again. An
error ends the function. -/
def Vars.submit (ret : ℕ → ℤ) (v : Vars) : Except Vars Vars :=
  let v' := { v with submits := v.submits ++ [⟨v.usbBio, ret v.submits.length⟩] }
  if ret v.submits.length < 0 then .error v'
  else .ok { v' with addedPages := 0, usbBio := ⟨v.statics.bdeviceSector, []⟩ }

/-- One round of the loop, up to its `break`. -/
def bioWriteRound (ret : ℕ → ℤ) (buffer : ℕ → UInt8) (start : ℕ) (v : Vars) : Except Vars Vars :=
  let v' := addPage buffer start v
  if v'.addedPages = 256 then v'.submit ret else .ok v'

/-- The loop. -/
def bioWriteLoop (ret : ℕ → ℤ) (buffer : ℕ → UInt8) (start : ℕ) (v : Vars) : Except Vars Vars :=
  match bioWriteRound ret buffer start v with
  | .error v' => .error v'
  | .ok v' =>
    if v.remaining ≤ pageSize then .ok v'
    else
      bioWriteLoop ret buffer start
        { v' with consumed := v.consumed + pageSize, remaining := v.remaining - pageSize }
termination_by v.remaining
decreasing_by
  simp only [pageSize] at *
  omega

/-- The pages left over by the loop are submitted. -/
def bioWriteRest (ret : ℕ → ℤ) (v : Vars) : Except Vars Vars :=
  if 0 < v.addedPages then v.submit ret else .ok v

/-- `bio_write`. -/
def bioWrite (ret : ℕ → ℤ) (buffer : ℕ → UInt8) (d : Statics) (fin start : UInt64) : Result :=
  let remaining := (fin - start).toNat
  if remaining = 0 then ⟨-1, d, []⟩
  else
    let v : Vars := ⟨remaining, 0, 0, ⟨d.bdeviceSector, []⟩, d, []⟩
    match (bioWriteLoop ret buffer start.toNat v).bind (bioWriteRest ret) with
    | .error v => ⟨-1, v.statics, v.submits⟩
    | .ok v => ⟨ret (v.submits.length - 1), v.statics, v.submits⟩

/-! ### The other way: a file on the device -/

/-- `fs_write` to `device_file`, with the value `len` that `kernel_write` returns. It reads from the
index 0 on, wherever the tail is. -/
def fsWrite (len : ℤ) (buffer : ℕ → UInt8) (f : File UInt8) (fin start : UInt64) :
    ℤ × File UInt8 :=
  if (fin - start).toNat = 0 then (0, f)
  else (len, f.write (slice buffer 0 len.toNat))

/-- The module's parameter `biof` and the state of both ways to write. -/
structure Usb where
  biof : Bool
  statics : Statics
  file : File UInt8

/-- What `submit_bio_wait` and `kernel_write` return during a flush. -/
structure Outcome where
  submit : ℕ → ℤ
  kernelWrite : ℤ

/-- What `usb_write` leaves behind, and the bios it has submitted. -/
structure UsbResult where
  ret : ℤ
  usb : Usb
  submits : List Submit

/-- `usb_write`. -/
def usbWrite (o : Outcome) (buffer : ℕ → UInt8) (u : Usb) (fin start : UInt64) : UsbResult :=
  if u.biof then
    let r := bioWrite o.submit buffer u.statics fin start
    ⟨r.ret, { u with statics := r.statics }, r.submits⟩
  else
    let r := fsWrite o.kernelWrite buffer u.file fin start
    ⟨r.1, { u with file := r.2 }, []⟩

/-! ### The pages of a call -/

/-- The `i`-th page that `bio_write` adds for the `n` bytes from `start` on. -/
def pageAt (buffer tmpbuf : ℕ → UInt8) (start n i : ℕ) : List UInt8 :=
  let cbuffIndex := (start + pageSize * i) % hardlogAuditCbuffsize
  if pageSize ≤ n - pageSize * i then vmallocToPage buffer cbuffIndex
  else vmallocToPage (memcpy tmpbuf 0 (slice buffer cbuffIndex (n - pageSize * i))) 0

/-- The number of pages for `n` bytes. -/
def pageCount (n : ℕ) : ℕ := (n + pageSize - 1) / pageSize

/-- All pages of a list of submits, with their sectors. -/
def allPages (submits : List Submit) : List (ℕ × List UInt8) :=
  submits.flatMap fun s => s.bio.sectorPages

theorem sectorPages_append (s : ℕ) (ps : List (List UInt8)) (p : List UInt8) :
    Bio.sectorPages ⟨s, ps ++ [p]⟩ =
      Bio.sectorPages ⟨s, ps⟩ ++ [(s + sectorsPerPage * ps.length, p)] := by
  simp [Bio.sectorPages, List.zipIdx_append]

@[simp] theorem length_sectorPages (b : Bio) : b.sectorPages.length = b.pages.length := by
  simp [Bio.sectorPages]

section Spec

variable (buffer : ℕ → UInt8) (d : Statics) (start n : ℕ)

/-- The first `j` pages with the sectors they belong to. -/
def firstPages (j : ℕ) : List (ℕ × List UInt8) :=
  (List.range j).map fun i =>
    (d.bdeviceSector + sectorsPerPage * i, pageAt buffer d.tmpbuf start n i)

/-- The variables when `j` pages have been added, all submits so far having succeeded. -/
structure Added (j : ℕ) (v : Vars) : Prop where
  added : v.usbBio.pages.length = v.addedPages
  sector : v.usbBio.biSector + sectorsPerPage * v.addedPages = v.statics.bdeviceSector
  bdeviceSector : v.statics.bdeviceSector = d.bdeviceSector + sectorsPerPage * j
  succeeded : ∀ s ∈ v.submits, 0 ≤ s.ret
  pages : allPages v.submits ++ v.usbBio.sectorPages = firstPages buffer d start n j

/-- The head of the loop: `j` pages have been added, more are to come, and the bio has space. -/
structure AtHead (j : ℕ) (v : Vars) : Prop where
  added : Added buffer d start n j v
  space : v.addedPages < 256
  remaining : v.remaining = n - pageSize * j
  more : pageSize * j < n
  consumed : v.consumed = pageSize * j
  tmpbuf : v.statics.tmpbuf = d.tmpbuf

/-- All pages have been submitted with success. -/
structure Done (st : Statics) (submits : List Submit) : Prop where
  bdeviceSector : st.bdeviceSector = d.bdeviceSector + sectorsPerPage * pageCount n
  succeeded : ∀ s ∈ submits, 0 ≤ s.ret
  pages : allPages submits = firstPages buffer d start n (pageCount n)

/-- The first `j` pages have been submitted, and the last submit has failed. -/
structure Failed (ret : ℕ → ℤ) (j : ℕ) (st : Statics) (submits : List Submit) : Prop where
  le : j ≤ pageCount n
  bdeviceSector : st.bdeviceSector = d.bdeviceSector + sectorsPerPage * j
  pages : allPages submits = firstPages buffer d start n j
  last : ∃ ok b k, submits = ok ++ [⟨b, ret k⟩] ∧ (∀ s ∈ ok, 0 ≤ s.ret) ∧ ret k < 0 ∧
    b.pages ≠ [] ∧ b.biSector + sectorsPerPage * b.pages.length = st.bdeviceSector

variable {buffer d start n} {ret : ℕ → ℤ} {j : ℕ} {v : Vars}

theorem firstPages_succ :
    firstPages buffer d start n (j + 1) = firstPages buffer d start n j ++
      [(d.bdeviceSector + sectorsPerPage * j, pageAt buffer d.tmpbuf start n j)] := by
  simp [firstPages, List.range_succ]

/-- **Adding a page** adds page `j`, to the sectors behind the pages before it. -/
theorem AtHead.page (h : AtHead buffer d start n j v) :
    Added buffer d start n (j + 1) (addPage buffer start v) := by
  have ha := h.added
  have hsec := ha.sector
  have hb := ha.bdeviceSector
  have hpages : ∀ p, p = pageAt buffer d.tmpbuf start n j →
      allPages v.submits ++
          Bio.sectorPages ⟨v.usbBio.biSector, v.usbBio.pages ++ [p]⟩ =
        firstPages buffer d start n (j + 1) := by
    rintro p rfl
    rw [sectorPages_append, ha.added, hsec, hb, firstPages_succ, ← ha.pages, List.append_assoc]
  unfold addPage
  simp only [h.remaining, h.consumed, h.tmpbuf]
  by_cases hfull : pageSize ≤ n - pageSize * j
  · rw [if_pos hfull]
    refine ⟨by simp [ha.added], ?_, ?_, ha.succeeded, hpages _ (by rw [pageAt, if_pos hfull])⟩
    · simp only [Nat.mul_add]; omega
    · simp only [Nat.mul_add]; omega
  · rw [if_neg hfull]
    refine ⟨by simp [ha.added], ?_, ?_, ha.succeeded, hpages _ (by rw [pageAt, if_neg hfull])⟩
    · simp only [Nat.mul_add]; omega
    · simp only [Nat.mul_add]; omega

theorem addPage_frame (buffer : ℕ → UInt8) (start : ℕ) (v : Vars) :
    (addPage buffer start v).addedPages = v.addedPages + 1 ∧
      (addPage buffer start v).submits = v.submits ∧
      (pageSize ≤ v.remaining → (addPage buffer start v).statics.tmpbuf = v.statics.tmpbuf) := by
  unfold addPage
  by_cases hfull : pageSize ≤ v.remaining
  · simp [hfull]
  · simp [hfull]

theorem Added.submit (h : Added buffer d start n j v) (ret : ℕ → ℤ) (hpos : 0 < v.addedPages)
    (hj : j ≤ pageCount n) :
    (∃ v', v.submit ret = .ok v' ∧ Added buffer d start n j v' ∧ v'.addedPages = 0 ∧
      v'.usbBio.pages = [] ∧ v'.statics = v.statics) ∨
    ∃ v', v.submit ret = .error v' ∧ Failed buffer d start n ret j v'.statics v'.submits := by
  have hall : allPages (v.submits ++ [⟨v.usbBio, ret v.submits.length⟩]) =
      firstPages buffer d start n j := by
    rw [← h.pages]
    simp [allPages]
  unfold Vars.submit
  by_cases hret : ret v.submits.length < 0
  · right
    simp only [if_pos hret]
    refine ⟨_, rfl, hj, h.bdeviceSector, hall, _, _, _, rfl, h.succeeded, hret, ?_, ?_⟩
    · intro he
      have := h.added
      rw [he] at this
      simp at this; omega
    · simp only [h.added]; exact h.sector
  · left
    simp only [if_neg hret]
    refine ⟨_, rfl, ⟨rfl, by simp, h.bdeviceSector, ?_, ?_⟩, rfl, rfl, rfl⟩
    · intro s hs
      rcases List.mem_append.mp hs with hs | hs
      · exact h.succeeded s hs
      · obtain rfl := List.mem_singleton.mp hs
        simp only; omega
    · simpa [Bio.sectorPages] using hall

theorem pageCount_eq (hj : pageSize * j < n) (hlast : n ≤ pageSize * j + pageSize) :
    pageCount n = j + 1 := by
  unfold pageCount pageSize at *
  omega

theorem lt_pageCount (hj : pageSize * j < n) : j + 1 ≤ pageCount n := by
  unfold pageCount pageSize at *
  omega

theorem AtHead.round (h : AtHead buffer d start n j v) (ret : ℕ → ℤ) :
    (∃ v', bioWriteRound ret buffer start v = .ok v' ∧ Added buffer d start n (j + 1) v' ∧
      v'.addedPages < 256 ∧ (pageSize ≤ v.remaining → v'.statics.tmpbuf = d.tmpbuf)) ∨
    ∃ v', bioWriteRound ret buffer start v = .error v' ∧
      Failed buffer d start n ret (j + 1) v'.statics v'.submits := by
  have hadd := h.page
  have hspace := h.space
  obtain ⟨h1, h2, h3⟩ := addPage_frame buffer start v
  unfold bioWriteRound
  by_cases hc : (addPage buffer start v).addedPages = 256
  · simp only [if_pos hc]
    rcases hadd.submit ret (by omega) (lt_pageCount h.more) with
      ⟨v', hs, ha, h0, -, hst⟩ | ⟨v', hs, hf⟩
    · refine Or.inl ⟨v', hs, ha, by omega, fun hr => ?_⟩
      rw [hst, h3 hr, h.tmpbuf]
    · exact Or.inr ⟨v', hs, hf⟩
  · simp only [if_neg hc]
    exact Or.inl ⟨_, rfl, hadd, by omega, fun hr => by rw [h3 hr, h.tmpbuf]⟩

theorem AtHead.loop (h : AtHead buffer d start n j v) (ret : ℕ → ℤ) :
    (∃ v', bioWriteLoop ret buffer start v = .ok v' ∧
      Added buffer d start n (pageCount n) v') ∨
    ∃ v' i, bioWriteLoop ret buffer start v = .error v' ∧
      Failed buffer d start n ret i v'.statics v'.submits := by
  induction hr : v.remaining using Nat.strong_induction_on generalizing j v with
  | _ r ih =>
    have hrem := h.remaining
    have hmore := h.more
    rw [bioWriteLoop]
    rcases h.round ret with ⟨v', hround, ha, hlt, htmp⟩ | ⟨v', hround, hf⟩
    swap
    · exact Or.inr ⟨v', j + 1, by rw [hround], hf⟩
    simp only [hround]
    by_cases hbreak : v.remaining ≤ pageSize
    · rw [if_pos hbreak, pageCount_eq hmore (by omega)]
      exact Or.inl ⟨v', rfl, ha⟩
    · rw [if_neg hbreak]
      refine ih (v.remaining - pageSize) (by unfold pageSize at *; omega) (j := j + 1) ?_ rfl
      refine ⟨⟨ha.added, ha.sector, ha.bdeviceSector, ha.succeeded, ha.pages⟩, hlt, ?_, ?_, ?_,
        htmp (by omega)⟩
      · simp only [Nat.mul_add]; omega
      · simp only [Nat.mul_add]; omega
      · simp only [h.consumed, Nat.mul_add]; omega

end Spec

/-- **`bio_write`**: all pages of the range are submitted, or the last submit is the first that
failed. -/
theorem bioWrite_spec (ret : ℕ → ℤ) (buffer : ℕ → UInt8) (d : Statics) (fin start : UInt64)
    (hn : 0 < (fin - start).toNat) :
    let r := bioWrite ret buffer d fin start
    let n := (fin - start).toNat
    Done buffer d start.toNat n r.statics r.submits ∨
      ∃ j, Failed buffer d start.toNat n ret j r.statics r.submits := by
  obtain ⟨n, hneq⟩ : ∃ n, n = (fin - start).toNat := ⟨_, rfl⟩
  rw [← hneq] at hn
  have h0 : AtHead buffer d start.toNat n 0 ⟨n, 0, 0, ⟨d.bdeviceSector, []⟩, d, []⟩ :=
    ⟨⟨rfl, rfl, rfl, fun s hs => (List.not_mem_nil hs).elim, rfl⟩, by simp, rfl, hn, rfl, rfl⟩
  simp only [bioWrite, ← hneq, if_neg (show ¬ n = 0 by omega)]
  rcases h0.loop ret with ⟨v, hloop, ha⟩ | ⟨v, j, hloop, hf⟩
  swap
  · simp only [hloop, Except.bind]
    exact Or.inr ⟨j, hf⟩
  simp only [hloop, Except.bind, bioWriteRest]
  by_cases hpos : 0 < v.addedPages
  · rw [if_pos hpos]
    rcases ha.submit ret hpos (Nat.le_refl _) with ⟨v', hs, ha', -, hnil, -⟩ | ⟨v', hs, hf⟩
    · simp only [hs]
      refine Or.inl ⟨ha'.bdeviceSector, ha'.succeeded, ?_⟩
      have := ha'.pages
      rwa [Bio.sectorPages, hnil, List.zipIdx_nil, List.map_nil, List.append_nil] at this
    · simp only [hs]
      exact Or.inr ⟨_, hf⟩
  · rw [if_neg hpos]
    refine Or.inl ⟨ha.bdeviceSector, ha.succeeded, ?_⟩
    have hnil : v.usbBio.pages = [] := List.eq_nil_of_length_eq_zero (by rw [ha.added]; omega)
    have := ha.pages
    rwa [Bio.sectorPages, hnil, List.zipIdx_nil, List.map_nil, List.append_nil] at this

/-! ### What stays in `tmpbuf` -/

/-- `tmpbuf` when the last `m` bytes of a range have been added, those from position `pos` on. -/
def leftover (buffer tmpbuf : ℕ → UInt8) (pos m : ℕ) : ℕ → UInt8 :=
  if m % pageSize = 0 then tmpbuf
  else
    memcpy tmpbuf 0
      (slice buffer ((pos + pageSize * (m / pageSize)) % hardlogAuditCbuffsize) (m % pageSize))

section Leftover

variable {ret : ℕ → ℤ} (buffer : ℕ → UInt8)

theorem submit_of_succeeds (hret : ∀ k, 0 ≤ ret k) (v : Vars) :
    ∃ v', v.submit ret = .ok v' ∧ v'.statics = v.statics := by
  have h := hret v.submits.length
  unfold Vars.submit
  rw [if_neg (by omega)]
  exact ⟨_, rfl, rfl⟩

theorem bioWriteRound_of_succeeds (hret : ∀ k, 0 ≤ ret k) (start : ℕ) (v : Vars) :
    ∃ v', bioWriteRound ret buffer start v = .ok v' ∧
      v'.statics = (addPage buffer start v).statics := by
  unfold bioWriteRound
  by_cases hc : (addPage buffer start v).addedPages = 256
  · simp only [if_pos hc]
    exact submit_of_succeeds hret _
  · simp only [if_neg hc]
    exact ⟨_, rfl, rfl⟩

theorem bioWriteLoop_tmpbuf (hret : ∀ k, 0 ≤ ret k) (start : ℕ) {v : Vars}
    (hpos : 0 < v.remaining) :
    ∃ v', bioWriteLoop ret buffer start v = .ok v' ∧
      v'.statics.tmpbuf = leftover buffer v.statics.tmpbuf (start + v.consumed) v.remaining := by
  induction hr : v.remaining using Nat.strong_induction_on generalizing v with
  | _ r ih =>
    obtain ⟨v', hround, hst⟩ := bioWriteRound_of_succeeds buffer hret start v
    rw [bioWriteLoop]
    simp only [hround]
    by_cases hbreak : v.remaining ≤ pageSize
    · rw [if_pos hbreak]
      refine ⟨v', rfl, ?_⟩
      rw [hst]
      subst hr
      unfold addPage leftover
      by_cases hfull : pageSize ≤ v.remaining
      · rw [show v.remaining = pageSize by omega]
        simp
      · have hlt : v.remaining < pageSize := by omega
        simp [hfull, Nat.mod_eq_of_lt hlt, Nat.div_eq_of_lt hlt, show ¬ v.remaining = 0 by omega]
    · rw [if_neg hbreak]
      obtain ⟨v'', hloop, htmp⟩ := ih (v.remaining - pageSize)
        (by unfold pageSize at *; omega)
        (v := { v' with consumed := v.consumed + pageSize, remaining := v.remaining - pageSize })
        (by simp only; omega) rfl
      refine ⟨v'', hloop, ?_⟩
      have hsame := (addPage_frame buffer start v).2.2 (by omega)
      have hmod : (r - pageSize) % pageSize = r % pageSize := (Nat.mod_eq_sub_mod (by omega)).symm
      have hdiv : r / pageSize = (r - pageSize) / pageSize + 1 :=
        Nat.div_eq_sub_div (by decide) (by omega)
      have hindex : start + (v.consumed + pageSize) + pageSize * ((r - pageSize) / pageSize) =
          start + v.consumed + pageSize * (r / pageSize) := by
        rw [hdiv, Nat.mul_add]
        omega
      rw [htmp, hst, hsame]
      unfold leftover
      rw [hr, hmod, hindex]

/-- A call whose submits all succeed leaves its last, shorter page in `tmpbuf`. -/
theorem bioWrite_tmpbuf (hret : ∀ k, 0 ≤ ret k) (d : Statics) {fin start : UInt64}
    (hn : 0 < (fin - start).toNat) :
    (bioWrite ret buffer d fin start).statics.tmpbuf =
      leftover buffer d.tmpbuf start.toNat (fin - start).toNat := by
  obtain ⟨v, hloop, htmp⟩ := bioWriteLoop_tmpbuf buffer hret start.toNat
    (v := ⟨(fin - start).toNat, 0, 0, ⟨d.bdeviceSector, []⟩, d, []⟩) hn
  simp only [bioWrite, if_neg (show ¬ (fin - start).toNat = 0 by omega), hloop, Except.bind,
    bioWriteRest]
  by_cases hadded : 0 < v.addedPages
  · obtain ⟨v', hs, hst⟩ := submit_of_succeeds hret v
    simp only [if_pos hadded, hs, hst]
    exact htmp
  · simp only [if_neg hadded]
    exact htmp

end Leftover

end HardLog.Host.BioFs
