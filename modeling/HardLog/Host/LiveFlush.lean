import HardLog.Host.Linear
import HardLog.Host.Tiling

/-! # A flush while records are appended

`bio_write` takes the pages of its range one by one from a ring that other threads go on writing to.
Here a step of the flusher is one round of its loop, on the ring as it is then. `delivered_of_reach`:
whatever comes between the rounds, the flushes put the appended stream on the device, each byte once
and in order, up to the tail, page behind page. It holds while records have room in the ring, and of the
ranges for which a flush on its own loses nothing: those that begin at a page, and those of less than a
page in front of the end of the ring. Where the pages are put needs no more than that the submits succeed
(`laid_of_reach`). -/

namespace HardLog.Host.LiveFlush

open HardLog.Lib.CInt HardLog.Lib.Memory HardLog.Lib.Ring HardLog.Lib.Runs HardLog.Lib.Refine
open HardLog.Host.Event HardLog.Host.Ring HardLog.Host.Threads HardLog.Host.BioFs
open HardLog.Host.BioContent HardLog.Host.Linear
open HardLog.Lib.Ranges (Consecutive)
open HardLog.Host.Tiling (endSector Filling filling_start)

/-- A call of `bio_write` that has returned: its range, and the bios it has submitted. -/
structure Flush where
  fin : UInt64
  start : UInt64
  submits : List Submit

/-- The host, the static variables of `hl-bio-fs.c`, the variables of `bio_write` while it runs, and
the calls that have returned. -/
structure LiveState (Tid : Type) where
  host : HostState Tid
  statics : Statics
  vars : Option Vars
  flushes : List Flush

/-- A call of `audit_log_end_hardlog`, a step of a thread in it, or a step of the flusher, with what
`submit_bio_wait` returns. -/
inductive LiveAction (Tid : Type) where
  | call (t : Tid) (ab : AuditBuffer)
  | thread (t : Tid)
  | flusher (ret : ℕ → ℤ)

variable {Tid : Type}

/-- `bio_write` returns, and the flusher goes on. -/
def LiveState.finish (s : LiveState Tid) (fin start : UInt64) (statics : Statics)
    (submits : List Submit) : LiveState Tid where
  host := flusherStep s.host (submits.all fun t => decide (0 ≤ t.ret))
  statics
  vars := none
  flushes := s.flushes ++ [⟨fin, start, submits⟩]

/-- `bio_write` returns what the rest of it has led to. -/
def LiveState.finishWith (s : LiveState Tid) (fin start : UInt64) :
    Except Vars Vars → LiveState Tid
  | .error v => s.finish fin start v.statics v.submits
  | .ok v => s.finish fin start v.statics v.submits

/-- A step of `bio_write`: its beginning, or a round of its loop and, behind the last one, its end. -/
def bioWriteStep (ret : ℕ → ℤ) (s : LiveState Tid) (fin start : UInt64) : LiveState Tid :=
  match s.vars with
  | none =>
    let remaining := (fin - start).toNat
    if remaining = 0 then s.finish fin start s.statics []
    else
      { s with
        vars := some ⟨remaining, 0, 0, ⟨s.statics.bdeviceSector, []⟩, s.statics, []⟩ }
  | some v =>
    match bioWriteRound ret s.host.cb.buffer start.toNat v with
    | .error v' => s.finish fin start v'.statics v'.submits
    | .ok v' =>
      if v.remaining ≤ pageSize then s.finishWith fin start (bioWriteRest ret v')
      else
        { s with
          vars := some
            { v' with consumed := v.consumed + pageSize, remaining := v.remaining - pageSize } }

/-- A step. -/
def liveStep [DecidableEq Tid] (s : LiveState Tid) : LiveAction Tid → Option (LiveState Tid)
  | .call t ab => (hostStep s.host (.call t ab)).map fun host => { s with host }
  | .thread t => (hostStep s.host (.thread t)).map fun host => { s with host }
  | .flusher ret =>
    match s.host.flusher with
    | .write fin start => some (bioWriteStep ret s fin start)
    | _ => some { s with host := flusherStep s.host true }

/-- The host after `hardlog_logger_setup`, with what `bio_open` has set up. -/
def liveInit (Tid : Type) (garbage : ℕ → UInt8) (d : Statics) : LiveState Tid :=
  ⟨hostInit Tid garbage, d, none, []⟩

/-! ### What is delivered -/

/-- The range begins at a page, or is less than a page and ends before the end of the ring. -/
def Paged (fin start : UInt64) : Prop :=
  pageSize ∣ start.toNat ∨ ((fin - start).toNat < pageSize ∧
    start.toNat % hardlogAuditCbuffsize + (fin - start).toNat ≤ hardlogAuditCbuffsize)

/-- The bytes that a call has submitted. -/
def Flush.bytes (f : Flush) : List UInt8 := ((allPages f.submits).map fun p => p.2).flatten

/-- The call has submitted whole pages, the last of which its range ends in. -/
structure Flush.Whole (f : Flush) : Prop where
  pages : ∀ p ∈ allPages f.submits, p.2.length = pageSize
  le : (f.fin - f.start).toNat ≤ f.bytes.length
  lt : f.bytes.length < (f.fin - f.start).toNat + pageSize

/-- What the pages of a call begin with, as many bytes as its range has. -/
def Flush.payload (f : Flush) : List UInt8 :=
  ((allPages f.submits).map fun p => p.2).flatten.take (f.fin - f.start).toNat

/-- What all calls have delivered. -/
def delivered (flushes : List Flush) : List UInt8 := flushes.flatMap Flush.payload

/-- The sectors that all calls have written a page to. -/
def sectors (flushes : List Flush) : List ℕ :=
  flushes.flatMap fun f => (allPages f.submits).map fun p => p.1

/-- The copies are of at most 512 bytes, have room and stay inside the ring; the submits succeed; and a
range that is flushed is empty or paged. -/
def Sound (s : LiveState Tid) : LiveAction Tid → Prop
  | .call _ _ => True
  | .thread t => Copies Inside s.host (.thread t)
  | .flusher ret => (∀ k, 0 ≤ ret k) ∧
      ∀ fin start, s.host.flusher = .write fin start → s.vars = none →
        (fin - start).toNat = 0 ∨ Paged fin start

@[simp] theorem delivered_append (a b : List Flush) :
    delivered (a ++ b) = delivered a ++ delivered b := List.flatMap_append

@[simp] theorem delivered_singleton (f : Flush) : delivered [f] = f.payload := by simp [delivered]

/-! ### A page of a ring that changes -/

section Pages

variable {b b₀ : ℕ → UInt8} {d : Statics} {start n j : ℕ} {v : Vars}

theorem sentIndex_page {r : ℕ} (hr : r < pageSize) :
    sentIndex start n (pageSize * j + r) =
      if pageSize ≤ n - pageSize * j then
        (start + pageSize * j) % hardlogAuditCbuffsize / pageSize * pageSize + r
      else (start + pageSize * j) % hardlogAuditCbuffsize + r := by
  have hdiv : (pageSize * j + r) / pageSize = j := by
    rw [Nat.mul_add_div pageSize_pos, Nat.div_eq_of_lt hr, Nat.add_zero]
  have hmod : (pageSize * j + r) % pageSize = r := by
    rw [Nat.mul_add_mod, Nat.mod_eq_of_lt hr]
  unfold sentIndex
  simp only [hdiv, hmod]

/-- Two rings that agree on a range in which every byte is sent from its own index have the same
pages. -/
theorem addPage_congr (h : AtHead b₀ d start n j v)
    (hsent : ∀ k < n, sentIndex start n k = (start + k) % hardlogAuditCbuffsize)
    (hag : ∀ k < n, b ((start + k) % hardlogAuditCbuffsize) =
      b₀ ((start + k) % hardlogAuditCbuffsize)) : addPage b start v = addPage b₀ start v := by
  have hmore := h.more
  have hcell : ∀ r < pageSize, pageSize * j + r < n →
      b (sentIndex start n (pageSize * j + r)) = b₀ (sentIndex start n (pageSize * j + r)) := by
    intro r _ hn
    rw [hsent _ hn]
    exact hag _ hn
  unfold addPage
  simp only [h.remaining, h.consumed]
  by_cases hfull : pageSize ≤ n - pageSize * j
  · have hpage : vmallocToPage b ((start + pageSize * j) % hardlogAuditCbuffsize) =
        vmallocToPage b₀ ((start + pageSize * j) % hardlogAuditCbuffsize) := by
      refine slice_congr fun r hr => ?_
      have := hcell r hr (by omega)
      rwa [sentIndex_page hr, if_pos hfull] at this
    simp only [if_pos hfull, hpage]
  · have hrest : slice b ((start + pageSize * j) % hardlogAuditCbuffsize) (n - pageSize * j) =
        slice b₀ ((start + pageSize * j) % hardlogAuditCbuffsize) (n - pageSize * j) := by
      refine slice_congr fun r hr => ?_
      have := hcell r (by omega) (by omega)
      rwa [sentIndex_page (by omega), if_neg hfull] at this
    simp only [if_neg hfull, hrest]

variable {ret : ℕ → ℤ} (hret : ∀ k, 0 ≤ ret k)
include hret

theorem not_failed {st : Statics} {submits : List Submit} :
    ¬ Failed b₀ d start n ret j st submits := by
  intro hf
  obtain ⟨_, _, k, -, -, hneg, -⟩ := hf.last
  exact absurd (hret k) (by omega)

theorem rest_done (h : Added b₀ d start n (pageCount n) v) :
    ∃ w, bioWriteRest ret v = .ok w ∧ Done b₀ d start n w.statics w.submits := by
  have hnil : ∀ {w : Vars}, Added b₀ d start n (pageCount n) w → w.usbBio.pages = [] →
      Done b₀ d start n w.statics w.submits := by
    intro w hw hempty
    have hpages := hw.pages
    rw [Bio.sectorPages, hempty, List.zipIdx_nil, List.map_nil, List.append_nil] at hpages
    exact ⟨hw.bdeviceSector, hw.succeeded, hpages⟩
  unfold bioWriteRest
  by_cases hpos : 0 < v.addedPages
  · rw [if_pos hpos]
    rcases h.submit ret hpos (Nat.le_refl _) with ⟨w, hs, hw, -, hempty, -⟩ | ⟨w, -, hf⟩
    · exact ⟨w, hs, hnil hw hempty⟩
    · exact absurd hf (not_failed hret)
  · rw [if_neg hpos]
    exact ⟨v, rfl, hnil h (List.eq_nil_of_length_eq_zero (by rw [h.added]; omega))⟩

theorem round_cases (h : AtHead b₀ d start n j v) :
    ∃ v', bioWriteRound ret b₀ start v = .ok v' ∧
      (v.remaining ≤ pageSize → ∃ w, bioWriteRest ret v' = .ok w ∧
        Done b₀ d start n w.statics w.submits) ∧
      (¬ v.remaining ≤ pageSize → AtHead b₀ d start n (j + 1)
        { v' with consumed := v.consumed + pageSize, remaining := v.remaining - pageSize }) := by
  have hrem := h.remaining
  have hmore := h.more
  rcases h.round ret with ⟨v', hround, hadded, hspace, htmp⟩ | ⟨v', -, hf⟩
  swap
  · exact absurd hf (not_failed hret)
  refine ⟨v', hround, fun hlast => ?_, fun hmany => ?_⟩
  · rw [← pageCount_eq hmore (by omega)] at hadded
    exact rest_done hret hadded
  · exact ⟨⟨hadded.added, hadded.sector, hadded.bdeviceSector, hadded.succeeded, hadded.pages⟩,
      hspace, by simp only [Nat.mul_add]; omega, by simp only [Nat.mul_add]; omega,
      by simp only [h.consumed, Nat.mul_add]; omega, htmp (by omega)⟩

end Pages

/-! ### What a call puts on the device -/

theorem ringBytes_eq {s : HostState Tid} {flushed n : ℕ} (h : Unflushed s flushed)
    (hn : flushed + n ≤ s.hist.stream.length) :
    ringBytes s.cb.buffer s.cb.tail.toNat n = (s.hist.stream.drop flushed).take n := by
  refine List.ext_getElem (by simp [ringBytes]; omega) fun k h1 h2 => ?_
  have hk : k < n := by simpa [ringBytes] using h1
  have hidx : (s.cb.tail.toNat + k) % hardlogAuditCbuffsize =
      (flushed + k) % hardlogAuditCbuffsize := by
    rw [h.tail, Nat.add_mod, toNat_ofNat_mod ⟨2 ^ 44, by decide⟩, ← Nat.add_mod]
  simp only [ringBytes, List.getElem_map, List.getElem_range, List.getElem_take,
    List.getElem_drop, hidx]
  exact h.holds (flushed + k) (by omega) (by omega)

theorem whole_of_done {b : ℕ → UInt8} {d st : Statics} {fin start : UInt64} {submits : List Submit}
    (h : Done b d start.toNat (fin - start).toNat st submits) : Flush.Whole ⟨fin, start, submits⟩ := by
  have hbytes : Flush.bytes ⟨fin, start, submits⟩ =
      ((List.range (pageCount (fin - start).toNat)).map
        (pageAt b d.tmpbuf start.toNat (fin - start).toNat)).flatten := by
    rw [Flush.bytes, h.pages, firstPages, List.map_map]
    rfl
  have hlen := length_flatten_pages (length_pageAt b d.tmpbuf start.toNat (fin - start).toNat)
    (pageCount (fin - start).toNat)
  refine ⟨fun p hp => ?_, ?_, ?_⟩
  · rw [h.pages, firstPages, List.mem_map] at hp
    obtain ⟨i, -, rfl⟩ := hp
    exact length_pageAt _ _ _ _ _
  · rw [hbytes, hlen]
    simp only [pageCount, pageSize]
    omega
  · rw [hbytes, hlen]
    simp only [pageCount, pageSize]
    omega

theorem payload_of_done {b : ℕ → UInt8} {d st : Statics} {fin start : UInt64}
    {submits : List Submit} (h : Done b d start.toNat (fin - start).toNat st submits)
    (hpaged : Paged fin start) (hn : 0 < (fin - start).toNat) :
    Flush.payload ⟨fin, start, submits⟩ = ringBytes b start.toNat (fin - start).toNat :=
  ((delivers_iff h).mpr fun k hk => by rw [(sentIndex_eq_iff hn).mpr hpaged k hk]).2

/-! ### The run -/

/-- A call of `bio_write` is under way: it has done what it would have on a ring that nobody writes
to and that has the bytes of the stream. -/
def Underway (s : LiveState Tid) (flushed : ℕ) (v : Vars) : Prop :=
  ∃ fin b₀ j, s.host.flusher = .write fin s.host.cb.tail ∧ Paged fin s.host.cb.tail ∧
    flushed + (fin - s.host.cb.tail).toNat ≤ s.host.hist.stream.length ∧
    AtHead b₀ s.statics s.host.cb.tail.toNat (fin - s.host.cb.tail).toNat j v ∧
    ringBytes b₀ s.host.cb.tail.toNat (fin - s.host.cb.tail).toNat =
      (s.host.hist.stream.drop flushed).take (fin - s.host.cb.tail).toNat

/-- The calls have delivered the stream up to the tail, or up to what the tail is about to be. -/
def DeliveredUpTo (s : LiveState Tid) (flushed : ℕ) : Prop :=
  match s.host.flusher with
  | .setTail fin => ∃ e, fin = UInt64.ofNat e ∧ flushed ≤ e ∧ e ≤ s.host.hist.stream.length ∧
      delivered s.flushes = s.host.hist.stream.take e
  | _ => delivered s.flushes = s.host.hist.stream.take flushed

theorem DeliveredUpTo.take {s : LiveState Tid} {flushed : ℕ} (h : DeliveredUpTo s flushed)
    (hle : flushed ≤ s.host.hist.stream.length) :
    ∃ e, flushed ≤ e ∧ e ≤ s.host.hist.stream.length ∧
      delivered s.flushes = s.host.hist.stream.take e := by
  unfold DeliveredUpTo at h
  split at h
  · obtain ⟨e, -, h1, h2, hup⟩ := h
    exact ⟨e, h1, h2, hup⟩
  · exact ⟨flushed, Nat.le_refl _, hle, h⟩

/-- Page behind page, from the first sector of `d` on. -/
def InSectors (d : Statics) (s : LiveState Tid) : Prop :=
  ∃ n, s.statics.bdeviceSector = d.bdeviceSector + sectorsPerPage * n ∧
    sectors s.flushes = (List.range n).map fun i => d.bdeviceSector + sectorsPerPage * i

/-- What is kept, with the tail behind `flushed` bytes. -/
structure Progress (s : LiveState Tid) (flushed : ℕ) : Prop where
  start : ∀ fin start, s.host.flusher = .log fin start ∨ s.host.flusher = .write fin start →
    start = s.host.cb.tail
  vars : ∀ v, s.vars = some v → Underway s flushed v
  upTo : DeliveredUpTo s flushed
  whole : ∀ f ∈ s.flushes, f.Whole

theorem liveInit_progress (garbage : ℕ → UInt8) (d : Statics) :
    Progress (liveInit Tid garbage d) 0 where
  start := fun _ _ h => by rcases h with h | h <;> cases h
  vars := fun _ h => by cases h
  upTo := rfl
  whole := fun _ hf => absurd hf List.not_mem_nil

section Steps

variable {s : LiveState Tid} {flushed : ℕ} (h : Progress s flushed)
include h

theorem Progress.append {host : HostState Tid} (hflusher : host.flusher = s.host.flusher)
    (htail : host.cb.tail = s.host.cb.tail) {rec : List UInt8}
    (hstream : host.hist.stream = s.host.hist.stream ++ rec)
    (hle : flushed ≤ s.host.hist.stream.length) : Progress { s with host } flushed := by
  have hlen : s.host.hist.stream.length ≤ host.hist.stream.length := by
    rw [hstream, List.length_append]
    omega
  refine ⟨?_, fun v hv => ?_, ?_, h.whole⟩
  · simp only [hflusher, htail]
    exact h.start
  · obtain ⟨fin, b₀, j, hf, hpaged, hn, hat, hring⟩ := h.vars v hv
    refine ⟨fin, b₀, j, hflusher.trans (by rw [hf, htail]), ?_⟩
    simp only [htail]
    refine ⟨hpaged, hn.trans hlen, hat, ?_⟩
    rw [hring, hstream, List.drop_append_of_le_length hle,
      List.take_append_of_le_length (by rw [List.length_drop]; omega)]
  · have hup := h.upTo
    unfold DeliveredUpTo at hup ⊢
    simp only [hflusher]
    cases hf : s.host.flusher with
    | setTail fin =>
      rw [hf] at hup
      obtain ⟨e, hfin, h1, h2, hdel⟩ := hup
      exact ⟨e, hfin, h1, h2.trans hlen, by
        rw [hdel, hstream, List.take_append_of_le_length h2]⟩
    | _ =>
      rw [hf] at hup
      simp only at hup ⊢
      rw [hup, hstream, List.take_append_of_le_length hle]

theorem Progress.vars_none (hf : ∀ fin start, s.host.flusher ≠ .write fin start) :
    s.vars = none := by
  cases hv : s.vars with
  | none => rfl
  | some v =>
    obtain ⟨fin, -, -, hw, -⟩ := h.vars v hv
    exact absurd hw (hf _ _)

theorem Progress.finish {fin : UInt64} {e : ℕ} {st : Statics} {submits : List Submit}
    (hf : s.host.flusher = .write fin s.host.cb.tail) (hfin : fin = UInt64.ofNat e)
    (hle : flushed ≤ e) (hlen : e ≤ s.host.hist.stream.length)
    (hpayload : Flush.payload ⟨fin, s.host.cb.tail, submits⟩ =
      (s.host.hist.stream.drop flushed).take (e - flushed))
    (hwhole : Flush.Whole ⟨fin, s.host.cb.tail, submits⟩) :
    Progress (s.finish fin s.host.cb.tail st submits) flushed := by
  have hstep : ∀ ok, (flusherStep s.host ok).flusher = .setTail fin := by
    intro ok
    simp only [flusherStep, hf]
  have hstream : ∀ ok, (flusherStep s.host ok).hist.stream = s.host.hist.stream := by
    intro ok
    simp only [flusherStep, hf]
    cases ok <;> rfl
  refine ⟨fun fin' start' hw => ?_, fun v hv => (by cases hv), ?_, fun f hf' => ?_⟩
  · simp only [LiveState.finish, hstep] at hw
    rcases hw with hw | hw <;> cases hw
  · have hup := h.upTo
    unfold DeliveredUpTo at hup ⊢
    simp only [hf] at hup
    simp only [LiveState.finish, hstep, hstream]
    refine ⟨e, hfin, hle, hlen, ?_⟩
    rw [delivered_append, delivered_singleton, hpayload, hup]
    conv_rhs => rw [← Nat.add_sub_cancel' hle, List.take_add]
  · rcases List.mem_append.mp hf' with hf' | hf'
    · exact h.whole f hf'
    · rw [List.mem_singleton.mp hf']
      exact hwhole

theorem Progress.round {ret : ℕ → ℤ} (hret : ∀ k, 0 ≤ ret k) (hU : Unflushed s.host flushed)
    {fin : UInt64} {e : ℕ} (hf : s.host.flusher = .write fin s.host.cb.tail)
    (hfin : fin = UInt64.ofNat e) (hle : flushed ≤ e) (hlen : e ≤ s.host.hist.stream.length)
    {v : Vars} (hv : s.vars = some v) :
    Progress (bioWriteStep ret s fin s.host.cb.tail) flushed := by
  obtain ⟨fin', b₀, j, hf', hpaged, hn, hat, hring⟩ := h.vars v hv
  obtain rfl : fin' = fin := by
    rw [hf] at hf'
    exact (FlusherPc.write.inj hf').1.symm
  have hsize : (fin' - s.host.cb.tail).toNat = e - flushed := by
    have := hU.fill_le
    unfold hardlogAuditCbuffsize at this
    rw [hfin, hU.tail, toNat_ofNat_sub hle (by omega)]
  have hpos : 0 < (fin' - s.host.cb.tail).toNat := by
    have := hat.more
    omega
  have hsame : addPage s.host.cb.buffer s.host.cb.tail.toNat v =
      addPage b₀ s.host.cb.tail.toNat v := by
    refine addPage_congr hat ((sentIndex_eq_iff hpos).mpr hpaged) fun k hk => ?_
    have heq := (ringBytes_eq hU hn).trans hring.symm
    exact List.map_inj_left.mp heq k (List.mem_range.mpr hk)
  obtain ⟨v', hround, hlast, hmany⟩ := round_cases hret hat
  have hround' : bioWriteRound ret s.host.cb.buffer s.host.cb.tail.toNat v = .ok v' := by
    rw [← hround]
    simp only [bioWriteRound, hsame]
  simp only [bioWriteStep, hv, hround']
  by_cases hb : v.remaining ≤ pageSize
  · obtain ⟨w, hrest, hdone⟩ := hlast hb
    simp only [if_pos hb, hrest, LiveState.finishWith]
    refine h.finish hf hfin hle hlen ?_ (whole_of_done hdone)
    rw [payload_of_done hdone hpaged hpos, hring, hsize]
  · simp only [if_neg hb]
    exact ⟨h.start, fun w hw => ⟨fin', b₀, j + 1, hf, hpaged, hn, by
      obtain rfl := Option.some.inj hw
      exact hmany hb, hring⟩, h.upTo, h.whole⟩

theorem Progress.write {ret : ℕ → ℤ} (hret : ∀ k, 0 ≤ ret k) (hU : Unflushed s.host flushed)
    {fin start : UInt64} {e : ℕ} (hf : s.host.flusher = .write fin start)
    (hfin : fin = UInt64.ofNat e) (hle : flushed ≤ e) (hlen : e ≤ s.host.hist.stream.length)
    (hpaged : s.vars = none → (fin - start).toNat = 0 ∨ Paged fin start) :
    Progress (bioWriteStep ret s fin start) flushed := by
  obtain rfl := h.start fin start (Or.inr hf)
  have hsize : (fin - s.host.cb.tail).toNat = e - flushed := by
    have := hU.fill_le
    unfold hardlogAuditCbuffsize at this
    rw [hfin, hU.tail, toNat_ofNat_sub hle (by omega)]
  cases hv : s.vars with
  | some v => exact h.round hret hU hf hfin hle hlen hv
  | none =>
    simp only [bioWriteStep, hv]
    by_cases h0 : (fin - s.host.cb.tail).toNat = 0
    · simp only [if_pos h0]
      refine h.finish hf hfin hle hlen ?_ ⟨fun _ hp => absurd hp List.not_mem_nil, ?_, ?_⟩
      · rw [← hsize, h0]
        simp only [Flush.payload, h0, List.take_zero]
      · exact h0.le
      · exact Nat.lt_add_left _ pageSize_pos
    · simp only [if_neg h0]
      refine ⟨h.start, fun v hsome => ?_, h.upTo, h.whole⟩
      obtain rfl := Option.some.inj hsome
      have hn : flushed + (fin - s.host.cb.tail).toNat ≤ s.host.hist.stream.length := by omega
      refine ⟨fin, s.host.cb.buffer, 0, hf, (hpaged hv).resolve_left h0, hn, ?_,
        ringBytes_eq hU hn⟩
      exact ⟨⟨rfl, rfl, rfl, fun t ht => absurd ht List.not_mem_nil, rfl⟩, by simp, rfl,
        Nat.pos_of_ne_zero h0, rfl, rfl⟩

/-- **The other steps of the flusher**, the update of the tail among them. -/
theorem Progress.flusher (hf : ∀ fin start, s.host.flusher ≠ .write fin start) {n : ℕ}
    (hset : ∀ e, s.host.flusher = .setTail (UInt64.ofNat e) → flushed ≤ e →
      e ≤ s.host.hist.stream.length → n = e)
    (hkeep : (∀ fin, s.host.flusher ≠ .setTail fin) → n = flushed) :
    Progress { s with host := flusherStep s.host true } n := by
  have hnone := h.vars_none hf
  have hup := h.upTo
  have hvars : ∀ v, s.vars = some v →
      Underway { s with host := flusherStep s.host true } n v := by
    intro v hv
    rw [hnone] at hv
    cases hv
  refine ⟨fun fin start hw => ?_, hvars, ?_, h.whole⟩
  · unfold flusherStep at hw ⊢
    cases hpc : s.host.flusher with
    | write fin start => exact absurd hpc (hf fin start)
    | readTail fin' =>
      simp only [hpc, FlusherPc.log.injEq, reduceCtorEq, or_false] at hw
      exact hw.2.symm
    | log fin' start' =>
      simp only [hpc, FlusherPc.write.injEq, reduceCtorEq, false_or] at hw
      exact hw.2 ▸ h.start fin' start' (Or.inl hpc)
    | top | setTail | clear =>
      simp only [hpc, reduceCtorEq, or_self] at hw
  · unfold DeliveredUpTo at hup ⊢
    unfold flusherStep
    cases hpc : s.host.flusher with
    | write fin start => exact absurd hpc (hf fin start)
    | setTail fin =>
      rw [hpc] at hup
      obtain ⟨e, rfl, h1, h2, hdel⟩ := hup
      obtain rfl := hset e hpc h1 h2
      exact hdel
    | _ =>
      obtain rfl := hkeep (by simp [hpc])
      rw [hpc] at hup
      exact hup

end Steps

/-- What is kept by every step. -/
def Inv (s : LiveState Tid) : Prop :=
  ∃ r, Follows Inside s.host r ∧ ReadBack r ∧ Progress s r.flushed

/-- The host takes a step, or none while `bio_write` goes on. -/
theorem bioWriteStep_host (ret : ℕ → ℤ) (s : LiveState Tid) (fin start : UInt64) :
    (bioWriteStep ret s fin start).host = s.host ∨
      ∃ ok, (bioWriteStep ret s fin start).host = flusherStep s.host ok := by
  have hfinish : ∀ st submits,
      ∃ ok, (s.finish fin start st submits).host = flusherStep s.host ok :=
    fun _ _ => ⟨_, rfl⟩
  unfold bioWriteStep
  cases s.vars with
  | none =>
    simp only
    split_ifs
    · exact Or.inr (hfinish _ _)
    · exact Or.inl rfl
  | some v =>
    simp only
    cases bioWriteRound ret s.host.cb.buffer start.toNat v with
    | error v' => exact Or.inr (hfinish _ _)
    | ok v' =>
      simp only
      split_ifs
      · cases bioWriteRest ret v' <;> exact Or.inr (hfinish _ _)
      · exact Or.inl rfl

theorem bioWriteStep_frame (ret : ℕ → ℤ) {s : LiveState Tid} {fin start : UInt64}
    (hf : s.host.flusher = .write fin start) :
    (bioWriteStep ret s fin start).host.cb = s.host.cb ∧
      (bioWriteStep ret s fin start).host.hist.stream = s.host.hist.stream := by
  rcases bioWriteStep_host ret s fin start with h | ⟨ok, h⟩
  · rw [h]
    exact ⟨rfl, rfl⟩
  · rw [h]
    unfold flusherStep
    rw [hf]
    cases ok <;> exact ⟨rfl, rfl⟩

variable [DecidableEq Tid]

/-- **Each step of the live host is one of the host, or none.** A condition on the steps of the threads
carries over. -/
theorem projects {D : LiveState Tid → LiveAction Tid → Prop}
    {C : HostState Tid → Threads.Action Tid → Prop} (hcall : ∀ s t ab, C s (.call t ab))
    (hthread : ∀ s t, D s (.thread t) → C s.host (.thread t)) (hflusher : ∀ s ok, C s (.flusher ok)) :
    Simulation (@liveStep Tid _) D hostStep C (fun s host => s.host = host) := by
  rintro s a s' _ rfl hD hs
  cases a with
  | call t ab =>
    obtain ⟨host, hstep, rfl⟩ := Option.map_eq_some_iff.mp hs
    exact steps (b := .call t ab) (hcall _ t ab) hstep rfl
  | thread t =>
    obtain ⟨host, hstep, rfl⟩ := Option.map_eq_some_iff.mp hs
    exact steps (b := .thread t) (hthread s t hD) hstep rfl
  | flusher ret =>
    simp only [liveStep] at hs
    split at hs
    · next fin start hf =>
      obtain rfl := Option.some.inj hs
      rcases bioWriteStep_host ret s fin start with hsame | ⟨ok, hok⟩
      · exact stays hsame
      · exact steps (b := .flusher ok) (hflusher _ ok) rfl hok
    · obtain rfl := Option.some.inj hs
      exact steps (b := .flusher true) (hflusher _ true) rfl rfl

variable {s s' : LiveState Tid} {r r' : RingState}

theorem Progress.thread_step (h : Progress s r.flushed) (hf : Follows Inside s.host r)
    (hr : ReadBack r) {a : Threads.Action Tid} (ha : ∀ ok, a ≠ .flusher ok)
    (hs : (hostStep s.host a).map (fun host => { s with host }) = some s')
    (hU' : Unflushed s'.host r'.flushed) : Progress s' r'.flushed := by
  have hU := hf.unflushed hr
  have hle := hU.le
  have hfill := hU.fill_le
  obtain ⟨host, hstep, rfl⟩ := Option.map_eq_some_iff.mp hs
  obtain ⟨rec, hrec, hstream⟩ := hf.stream_step hstep
  obtain ⟨hflusher, htail⟩ := thread_frame hstep ha
  have hsame : r'.flushed = r.flushed := by
    refine hU'.eq_of_tail (htail.trans hU.tail) ?_ ?_
    · rw [hstream, List.length_append]
      omega
    · rw [hstream, List.length_append]
      omega
  rw [hsame]
  exact h.append hflusher htail hstream hle

theorem Progress.flusher_step (h : Progress s r.flushed) (hf : Follows Inside s.host r)
    (hr : ReadBack r) {ret : ℕ → ℤ} (hsound : Sound s (.flusher ret))
    (hs : liveStep s (.flusher ret) = some s') (hU' : Unflushed s'.host r'.flushed) :
    Progress s' r'.flushed := by
  have hU := hf.unflushed hr
  have hle := hU.le
  have hfill := hU.fill_le
  simp only [liveStep] at hs
  split at hs
  · next fin start hpc =>
    obtain rfl := Option.some.inj hs
    obtain ⟨e, hfin, h1, h2⟩ := hf.snapshot fin (by rw [hpc]; rfl)
    rw [← hf.stream] at h2
    obtain ⟨hcb, hstream⟩ := bioWriteStep_frame ret hpc
    have hsame : r'.flushed = r.flushed := by
      refine hU'.eq_of_tail (by rw [hcb, hU.tail]) ?_ ?_
      · rw [hstream]
        exact hle
      · rw [hstream]
        exact Nat.le_add_right_of_le hfill
    rw [hsame]
    exact h.write hsound.1 hU hpc hfin h1 h2 (hsound.2 fin start hpc)
  · next hpc =>
    obtain rfl := Option.some.inj hs
    have hstream : (flusherStep s.host true).hist.stream = s.host.hist.stream := by
      unfold flusherStep
      cases s.host.flusher <;> rfl
    refine h.flusher (fun fin start hw => hpc fin start hw) (fun e hset h1 h2 => ?_) fun hset => ?_
    · refine hU'.eq_of_tail (by simp only [flusherStep, hset]) ?_ ?_
      · simp only [hstream]
        exact h2
      · simp only [hstream]
        omega
    · have htail : (flusherStep s.host true).cb.tail = s.host.cb.tail := by
        unfold flusherStep
        cases hw : s.host.flusher with
        | setTail fin => exact absurd hw (hset fin)
        | _ => rfl
      refine hU'.eq_of_tail (htail.trans hU.tail) ?_ ?_
      · simp only [hstream]
        exact hle
      · simp only [hstream]
        exact Nat.le_add_right_of_le hfill

theorem Inv.step {a : LiveAction Tid} (h : Inv s) (hsound : Sound s a)
    (hs : liveStep s a = some s') : Inv s' := by
  obtain ⟨r, hf, hr, hp⟩ := h
  obtain ⟨host, hreach, rfl⟩ := projects (D := Sound) (C := Copies Inside) (fun _ _ _ => trivial)
    (fun _ _ hok => hok) (fun _ _ => trivial) s a s' s.host rfl hsound hs
  obtain ⟨r', hf', hr'⟩ := hf.reach hr hreach
  refine ⟨r', hf', hr', ?_⟩
  have hU' := hf'.unflushed hr'
  cases a with
  | call t ab => exact hp.thread_step hf hr (a := .call t ab) (fun _ h => by cases h) hs hU'
  | thread t => exact hp.thread_step hf hr (a := .thread t) (fun _ h => by cases h) hs hU'
  | flusher ret => exact hp.flusher_step hf hr hsound hs hU'

/-! ### Where it is put -/

/-- The bios of the calls. -/
def bios (flushes : List Flush) : List Bio := flushes.flatMap fun f => f.submits.map fun t => t.bio

/-- The submits succeed. -/
def Succeeds (_ : LiveState Tid) : LiveAction Tid → Prop
  | .flusher ret => ∀ k, 0 ≤ ret k
  | _ => True

/-- The bios of the calls fill the sectors from `first` on with whole pages, and the call that is under
way goes on behind them. -/
structure Laid (first : ℕ) (s : LiveState Tid) : Prop where
  consecutive : Consecutive Bio.biSector endSector first (bios s.flushes) s.statics.bdeviceSector
  whole : ∀ f ∈ s.flushes, ∀ t ∈ f.submits, ∀ p ∈ t.bio.pages, p.length = pageSize
  vars : ∀ v, s.vars = some v → Filling 255 s.statics.bdeviceSector v

section Laid

variable {first : ℕ}

omit [DecidableEq Tid] in
theorem Laid.finish (h : Laid first s) (fin start : UInt64) {st : Statics} {submits : List Submit}
    (hcons : Consecutive Bio.biSector endSector s.statics.bdeviceSector
      (submits.map fun t => t.bio) st.bdeviceSector)
    (hwhole : ∀ t ∈ submits, ∀ p ∈ t.bio.pages, p.length = pageSize) :
    Laid first (s.finish fin start st submits) := by
  refine ⟨?_, fun f hf => ?_, fun v hv => (by cases hv)⟩
  · have hbios : bios (s.flushes ++ [⟨fin, start, submits⟩]) =
        bios s.flushes ++ submits.map fun t => t.bio := by
      simp [bios]
    simp only [LiveState.finish, hbios]
    exact h.consecutive.append hcons
  · rcases List.mem_append.mp hf with hf | hf
    · exact h.whole f hf
    · rw [List.mem_singleton.mp hf]
      exact hwhole

omit [DecidableEq Tid] in
theorem Laid.write {ret : ℕ → ℤ} (hret : ∀ k, 0 ≤ ret k) (h : Laid first s) (fin start : UInt64) :
    Laid first (bioWriteStep ret s fin start) := by
  cases hv : s.vars with
  | none =>
    simp only [bioWriteStep, hv]
    split_ifs
    · exact h.finish fin start rfl fun t ht => absurd ht List.not_mem_nil
    · refine ⟨h.consecutive, h.whole, fun v hsome => ?_⟩
      obtain rfl := Option.some.inj hsome
      exact filling_start _ _
  | some v =>
    obtain ⟨v', hround, hfill⟩ := (h.vars v hv).round hret s.host.cb.buffer start.toNat
    simp only [bioWriteStep, hv, hround]
    split_ifs
    · obtain ⟨w, hrest, hdone⟩ := hfill.rest hret
      simp only [hrest, LiveState.finishWith]
      exact h.finish fin start hdone.of_empty hdone.whole
    · refine ⟨h.consecutive, h.whole, fun w hsome => ?_⟩
      obtain rfl := Option.some.inj hsome
      exact hfill.advance _ _

theorem Laid.step {a : LiveAction Tid} (h : Laid first s) (hok : Succeeds s a)
    (hs : liveStep s a = some s') : Laid first s' := by
  cases a with
  | call | thread =>
    obtain ⟨host, -, rfl⟩ := Option.map_eq_some_iff.mp hs
    exact ⟨h.consecutive, h.whole, h.vars⟩
  | flusher ret =>
    simp only [liveStep] at hs
    split at hs <;> obtain rfl := Option.some.inj hs
    · exact h.write hok _ _
    · exact ⟨h.consecutive, h.whole, h.vars⟩

/-- **Behind one another**: of every run whose submits succeed, whatever it appends and flushes. -/
theorem laid_of_reach (garbage : ℕ → UInt8) (d : Statics)
    (h : Reach liveStep Succeeds (liveInit Tid garbage d) s) : Laid d.bdeviceSector s :=
  h.inv (fun _ _ _ hi hok hs => hi.step hok hs)
    ⟨rfl, fun f hf => absurd hf List.not_mem_nil, fun v hv => (by cases hv)⟩

end Laid

omit [DecidableEq Tid] in
theorem succeeds_of_sound {a : LiveAction Tid} (h : Sound s a) : Succeeds s a := by
  cases a with
  | call | thread => trivial
  | flusher ret => exact h.1

theorem map_sectorPages {first e : ℕ} {bs : List Bio}
    (h : Consecutive Bio.biSector endSector first bs e) :
    (bs.flatMap Bio.sectorPages).map (fun p => p.1) =
        (List.range (bs.flatMap Bio.sectorPages).length).map (fun i => first + sectorsPerPage * i) ∧
      e = first + sectorsPerPage * (bs.flatMap Bio.sectorPages).length := by
  induction bs generalizing first with
  | nil =>
    obtain rfl : first = e := h
    exact ⟨rfl, rfl⟩
  | cons b bs ih =>
    obtain ⟨rfl, hrest⟩ := h
    obtain ⟨hsec, he⟩ := ih hrest
    have hb : b.sectorPages.map (fun p => p.1) =
        (List.range b.pages.length).map fun i => b.biSector + sectorsPerPage * i := by
      rw [Bio.sectorPages, List.map_map, List.range_eq_range', ← List.zipIdx_map_snd 0 b.pages,
        List.map_map]
      rfl
    rw [List.flatMap_cons, List.map_append, List.length_append, List.range_add, List.map_append,
      hb, hsec, he, length_sectorPages, List.map_map]
    unfold endSector
    simp only [Nat.mul_add, Nat.add_assoc, Function.comp_def, and_self]

theorem inv_of_reach (garbage : ℕ → UInt8) (d : Statics) {s : LiveState Tid}
    (h : Reach liveStep Sound (liveInit Tid garbage d) s) : Inv s :=
  h.inv (fun _ _ _ hI hC hs => hI.step hC hs)
    ⟨_, hostInit_follows Inside garbage, ringInit_readBack garbage, liveInit_progress garbage d⟩

/-- **A flush while records are appended**: in every state of every run whose copies are of at most 512
bytes, have room and stay inside the ring, whose submits succeed and whose ranges are empty or paged, the
calls of `bio_write` have put on the device the appended stream up to the tail (or to what the tail is
about to be), each page on the sectors behind the one before. -/
theorem delivered_of_reach (garbage : ℕ → UInt8) (d : Statics) {s : LiveState Tid}
    (h : Reach liveStep Sound (liveInit Tid garbage d) s) :
    ∃ flushed, Unflushed s.host flushed ∧ DeliveredUpTo s flushed ∧ InSectors d s := by
  obtain ⟨r, hf, hr, hp⟩ := inv_of_reach garbage d h
  refine ⟨r.flushed, hf.unflushed hr, hp.upTo, ?_⟩
  obtain ⟨hsec, hend⟩ := map_sectorPages (laid_of_reach garbage d
    (h.mono fun _ _ hok => succeeds_of_sound hok)).consecutive
  refine ⟨_, hend, ?_⟩
  rw [← hsec]
  simp only [sectors, bios, allPages, List.map_flatMap, List.flatMap_assoc, List.flatMap_map]

/-! ### A flush on its own -/

theorem liveStep_write (ret : ℕ → ℤ) {s : LiveState Tid} {fin start : UInt64}
    (hf : s.host.flusher = .write fin start) :
    liveStep s (.flusher ret) = some (bioWriteStep ret s fin start) := by
  simp only [liveStep, hf]

omit [DecidableEq Tid] in
theorem finishWith_vars (s : LiveState Tid) (v : Option Vars) (fin start : UInt64)
    (x : Except Vars Vars) :
    LiveState.finishWith { s with vars := v } fin start x = s.finishWith fin start x := by
  cases x <;> rfl

/-- The rounds of the flusher, with no other step between them, are the loop of `bio_write`. -/
theorem runFrom_loop (ret : ℕ → ℤ) {s : LiveState Tid} {fin start : UInt64}
    (hf : s.host.flusher = .write fin start) {v : Vars} (hv : s.vars = some v) :
    ∃ k, runFrom liveStep s (List.replicate k (.flusher ret)) = some (s.finishWith fin start
      ((bioWriteLoop ret s.host.cb.buffer start.toNat v).bind (bioWriteRest ret))) := by
  induction hr : v.remaining using Nat.strong_induction_on generalizing s v with
  | _ r ih =>
    have hstep := liveStep_write ret hf
    simp only [bioWriteStep, hv] at hstep
    rw [bioWriteLoop]
    cases hround : bioWriteRound ret s.host.cb.buffer start.toNat v with
    | error v' =>
      simp only [hround] at hstep
      exact ⟨1, by simp [List.replicate, runFrom, hstep, Except.bind, LiveState.finishWith]⟩
    | ok v' =>
      simp only [hround] at hstep
      by_cases hb : v.remaining ≤ pageSize
      · rw [if_pos hb] at hstep
        exact ⟨1, by simp [List.replicate, runFrom, hstep, Except.bind, hb]⟩
      · rw [if_neg hb] at hstep
        obtain ⟨w, hw⟩ : ∃ w : Vars, w = { v' with
            consumed := v.consumed + pageSize, remaining := v.remaining - pageSize } := ⟨_, rfl⟩
        simp only [if_neg hb]
        rw [← hw] at hstep ⊢
        have hrem : w.remaining = v.remaining - pageSize := by rw [hw]
        obtain ⟨k, hk⟩ := ih w.remaining (by unfold pageSize at *; omega)
          (s := { s with vars := some w }) hf rfl rfl
        rw [finishWith_vars] at hk
        exact ⟨k + 1, by rw [List.replicate_succ, runFrom, hstep, Option.bind_some, hk]⟩

/-- **On its own**, a flush leaves behind what `bio_write` does. -/
theorem runFrom_bioWrite (ret : ℕ → ℤ) {s : LiveState Tid} {fin start : UInt64}
    (hf : s.host.flusher = .write fin start) (hv : s.vars = none) :
    ∃ k, runFrom liveStep s (List.replicate k (.flusher ret)) = some
      (s.finish fin start (bioWrite ret s.host.cb.buffer s.statics fin start).statics
        (bioWrite ret s.host.cb.buffer s.statics fin start).submits) := by
  have hstep := liveStep_write ret hf
  simp only [bioWriteStep, hv] at hstep
  unfold bioWrite
  by_cases hn : (fin - start).toNat = 0
  · simp only [if_pos hn] at hstep ⊢
    exact ⟨1, by simp [List.replicate, runFrom, hstep]⟩
  · simp only [if_neg hn] at hstep ⊢
    obtain ⟨v, hw⟩ : ∃ v : Vars,
        v = ⟨(fin - start).toNat, 0, 0, ⟨s.statics.bdeviceSector, []⟩, s.statics, []⟩ := ⟨_, rfl⟩
    rw [← hw] at hstep ⊢
    obtain ⟨k, hk⟩ := runFrom_loop ret (s := { s with vars := some v }) hf rfl
    rw [finishWith_vars] at hk
    refine ⟨k + 1, ?_⟩
    rw [List.replicate_succ, runFrom, hstep, Option.bind_some, hk]
    cases (bioWriteLoop ret s.host.cb.buffer start.toNat v).bind (bioWriteRest ret) <;> rfl

theorem runFrom_append_threads {D : LiveState Tid → LiveAction Tid → Prop}
    {C : HostState Tid → Threads.Action Tid → Prop} (hcall : ∀ s t ab, D s (.call t ab))
    (hthread : ∀ s t, C s.host (.thread t) → D s (.thread t)) {s : LiveState Tid}
    {host : HostState Tid} {t : Tid} {ab : AuditBuffer}
    (hrun : runFrom hostStep s.host (appendSchedule t ab) = some host)
    (hC : EachStep hostStep C s.host (appendSchedule t ab)) :
    runFrom liveStep s (.call t ab :: List.replicate 7 (.thread t)) = some { s with host } ∧
      EachStep liveStep D s (.call t ab :: List.replicate 7 (.thread t)) := by
  have hthreads : ∀ n {s : LiveState Tid}, runFrom hostStep s.host (List.replicate n (.thread t)) =
      some host → EachStep hostStep C s.host (List.replicate n (.thread t)) →
        runFrom liveStep s (List.replicate n (.thread t)) = some { s with host } ∧
          EachStep liveStep D s (List.replicate n (.thread t)) := by
    intro n
    induction n with
    | zero =>
      intro s hrun _
      obtain rfl := Option.some.inj hrun
      exact ⟨rfl, trivial⟩
    | succ n ih =>
      intro s hrun hC
      simp only [List.replicate_succ, runFrom, Option.bind_eq_some_iff] at hrun ⊢
      obtain ⟨host', hstep, hrun⟩ := hrun
      obtain ⟨hCt, hrest⟩ := hC host' hstep
      have hlive : liveStep s (.thread t) = some { s with host := host' } := by
        simp only [liveStep, hstep, Option.map_some]
      obtain ⟨hrun', hrest'⟩ := ih (s := { s with host := host' }) hrun hrest
      exact ⟨⟨_, hlive, hrun'⟩, EachStep.cons (hthread s t hCt) hlive hrest'⟩
  simp only [appendSchedule, runFrom, Option.bind_eq_some_iff] at hrun ⊢
  obtain ⟨host', hstep, hrun⟩ := hrun
  obtain ⟨-, hrest⟩ := hC host' hstep
  have hlive : liveStep s (.call t ab) = some { s with host := host' } := by
    simp only [liveStep, hstep, Option.map_some]
  obtain ⟨hrun', hrest'⟩ := hthreads 7 (s := { s with host := host' }) hrun hrest
  exact ⟨⟨_, hlive, hrun'⟩, EachStep.cons (hcall s t ab) hlive hrest'⟩

theorem reach_record :
    ∃ s, Reach liveStep Sound (liveInit Unit (fun _ => 0) ⟨1, fun _ => 0⟩) s ∧
      s.flushes.length = 1 := by
  obtain ⟨ab, host, hrun, hC, hhead, htail, hfl, -⟩ := run_letters (P := Inside) none
    fun _ rec hrec => Or.inl (by rw [hrec]; decide)
  obtain ⟨happend, hcopies⟩ := runFrom_append_threads (D := Sound) (fun _ _ _ => trivial)
    (fun _ _ hok => hok.1) (s := liveInit Unit (fun _ => 0) ⟨1, fun _ => 0⟩) hrun hC
  obtain ⟨s, hs, hlen⟩ : ∃ s, runFrom liveStep ⟨host, ⟨1, fun _ => 0⟩, none, []⟩
      (List.replicate 5 (.flusher fun _ => 0)) = some s ∧ s.flushes.length = 1 := by
    simp [List.replicate, runFrom, liveStep, flusherStep, hfl, hhead, htail, bioWriteStep,
      bioWriteRound, addPage, bioWriteRest, Vars.submit, LiveState.finishWith, LiveState.finish,
      pageSize]
  have hsound : EachStep liveStep Sound ⟨host, ⟨1, fun _ => 0⟩, none, []⟩
      (List.replicate 5 (.flusher fun _ => 0)) := by
    simp [List.replicate, EachStep, liveStep, flusherStep, hfl, hhead, htail, bioWriteStep,
      bioWriteRound, addPage, bioWriteRest, Vars.submit, LiveState.finishWith, LiveState.finish,
      pageSize, Sound, Paged]
  exact ⟨s, (Reach.of_runFrom happend hcopies).trans (Reach.of_runFrom hs hsound), hlen⟩

/-- The record is delivered. -/
theorem delivered_record :
    ∃ s, Reach liveStep Sound (liveInit Unit (fun _ => 0) ⟨1, fun _ => 0⟩) s ∧
      s.flushes.length = 1 ∧
      ∃ flushed, Unflushed s.host flushed ∧ DeliveredUpTo s flushed ∧
        InSectors ⟨1, fun _ => 0⟩ s := by
  obtain ⟨s, hreach, hlen⟩ := reach_record
  exact ⟨s, hreach, hlen, delivered_of_reach (fun _ => 0) ⟨1, fun _ => 0⟩ hreach⟩

end HardLog.Host.LiveFlush
