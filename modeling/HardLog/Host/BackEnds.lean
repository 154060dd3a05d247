import HardLog.Device.Response
import HardLog.Host.BioContent

/-! # The two ways to write

The module's parameter `biof` chooses between `fs_write`, which appends to a file, and `bio_write`,
which fills sectors. `fs_write` always reads the ring from the index 0 on and stores NUL bytes like
any other; `bio_write` sends the whole of `tmpbuf`, so what an earlier call or the allocation left
there goes along. `agree_iff` says for which ranges the two store the same after all, and that they
never do when a NUL byte is in a range. -/

namespace HardLog.Host.BackEnds

open HardLog.Lib.Memory HardLog.Lib.Files HardLog.Lib.Ring HardLog.Host.Ring HardLog.Host.BioFs
open HardLog.Host.BioContent HardLog.Device.Response

/-- The range `[start, end)` of a flush. -/
structure Range where
  start : UInt64
  fin : UInt64

/-- `end - start`. -/
def Range.size (r : Range) : ℕ := (r.fin - r.start).toNat

/-- The bytes behind the last full page. -/
def Range.rest (r : Range) : ℕ := r.size % pageSize

/-- A flush: its range, and what the ring holds meanwhile. -/
structure Flush where
  range : Range
  buffer : ℕ → UInt8

/-- The bytes of the ring at the positions of the range. -/
def Flush.bytes (fl : Flush) : List UInt8 := ringBytes fl.buffer fl.range.start.toNat fl.range.size

/-- Every device write of the flush succeeds. -/
def Range.outcome (r : Range) : Outcome := ⟨fun _ => 0, r.size⟩

/-- The device of each back end: the file of `fs_write`, the sectors of `bio_write`. -/
structure Ends where
  file : File UInt8
  statics : Statics
  disk : ℕ → UInt8

/-- The sectors after the submits. -/
def store (disk : ℕ → UInt8) (submits : List Submit) : ℕ → UInt8 :=
  (allPages submits).foldl (fun m p => memcpy m (512 * p.1) p.2) disk

/-- The same flush by either back end. -/
def flush (s : Ends) (fl : Flush) : Ends :=
  let write (biof : Bool) :=
    usbWrite fl.range.outcome fl.buffer ⟨biof, s.statics, s.file⟩ fl.range.fin fl.range.start
  ⟨(write false).usb.file, (write true).usb.statics, store s.disk (write true).submits⟩

/-- A sequence of flushes. -/
def run (s : Ends) (fls : List Flush) : Ends := fls.foldl flush s

/-- What `fs_write` has stored since `s`. -/
def fsStream (s s' : Ends) : List UInt8 :=
  slice s'.file.bytes s.file.fPos (s'.file.fPos - s.file.fPos)

/-- What `bio_write` has stored since `s`. -/
def bioStream (s s' : Ends) : List UInt8 :=
  slice s'.disk (512 * s.statics.bdeviceSector)
    (512 * s'.statics.bdeviceSector - 512 * s.statics.bdeviceSector)

/-- **Agreement**: what `fs_write` stores is what `bio_write` stores without its NUL bytes, and both
are the bytes of the ring without theirs. -/
def Agree (s : Ends) (fls : List Flush) : Prop :=
  fsStream s (run s fls) = removeNullChars (bioStream s (run s fls)) ∧
    fsStream s (run s fls) = removeNullChars (fls.flatMap Flush.bytes)

/-- No range has a NUL byte in it. -/
def NulFree (fls : List Flush) : Prop := ∀ fl ∈ fls, ∀ b ∈ fl.bytes, b ≠ 0

/-- Every range starts where the ring does, and behind what it leaves of its last page there are
only NUL bytes in `tmpbuf`: no range before it has left more there. -/
structure Suits (tmpbuf : ℕ → UInt8) (rs : List Range) : Prop where
  start : ∀ r ∈ rs, 0 < r.size → hardlogAuditCbuffsize ∣ r.start.toNat
  clean : ∀ r ∈ rs, 0 < r.rest → ∀ i, r.rest ≤ i → i < pageSize → tmpbuf i = 0
  grows : rs.Pairwise fun r r' => 0 < r'.rest → r.rest ≤ r'.rest

/-! ### What a sequence of flushes stores -/

/-- What `fs_write` sends in a flush. -/
def Flush.linear (fl : Flush) : List UInt8 := slice fl.buffer 0 fl.range.size

/-- What `bio_write` sends in a flush. -/
def Flush.pages (fl : Flush) (tmpbuf : ℕ → UInt8) : List UInt8 :=
  ((List.range (pageCount fl.range.size)).map
    (pageAt fl.buffer tmpbuf fl.range.start.toNat fl.range.size)).flatten

/-- `tmpbuf` after a flush. -/
def Flush.leftover (fl : Flush) (tmpbuf : ℕ → UInt8) : ℕ → UInt8 :=
  BioFs.leftover fl.buffer tmpbuf fl.range.start.toNat fl.range.size

/-- What `bio_write` sends in a sequence of flushes. -/
def sent (tmpbuf : ℕ → UInt8) : List Flush → List UInt8
  | [] => []
  | fl :: fls => fl.pages tmpbuf ++ sent (fl.leftover tmpbuf) fls

/-- The sectors as a file that ends where the next flush begins. -/
def Ends.diskFile (s : Ends) : File UInt8 := ⟨s.disk, 512 * s.statics.bdeviceSector⟩

theorem store_firstPages (disk : ℕ → UInt8) (buffer : ℕ → UInt8) (d : Statics) (start n j : ℕ) :
    (firstPages buffer d start n j).foldl (fun m p => memcpy m (512 * p.1) p.2) disk =
      memcpy disk (512 * d.bdeviceSector)
        ((List.range j).map (pageAt buffer d.tmpbuf start n)).flatten := by
  induction j with
  | zero => exact (memcpy_nil _ _).symm
  | succ j ih =>
    have hoff : 512 * (d.bdeviceSector + sectorsPerPage * j) = 512 * d.bdeviceSector +
        ((List.range j).map (pageAt buffer d.tmpbuf start n)).flatten.length := by
      rw [length_flatten_pages (length_pageAt buffer d.tmpbuf start n) j]
      unfold sectorsPerPage pageSize
      omega
    rw [firstPages_succ, List.foldl_append, ih, List.range_succ, List.map_append,
      List.flatten_append]
    simp only [List.foldl_cons, List.foldl_nil, hoff, memcpy_memcpy_append, List.map_cons,
      List.map_nil, List.flatten_cons, List.flatten_nil, List.append_nil]

theorem pages_of_size_zero {fl : Flush} (h : fl.range.size = 0) (tmpbuf : ℕ → UInt8) :
    fl.pages tmpbuf = [] := by
  unfold Flush.pages
  rw [h]
  rfl

theorem leftover_of_size_zero {fl : Flush} (h : fl.range.size = 0) (tmpbuf : ℕ → UInt8) :
    fl.leftover tmpbuf = tmpbuf := by
  unfold Flush.leftover BioFs.leftover
  rw [h]
  rfl

theorem length_pages (fl : Flush) (tmpbuf : ℕ → UInt8) :
    (fl.pages tmpbuf).length = pageSize * pageCount fl.range.size :=
  length_flatten_pages (length_pageAt _ _ _ _) _

theorem flush_file (s : Ends) (fl : Flush) : (flush s fl).file = s.file.write fl.linear := by
  simp only [flush, usbWrite, fsWrite, Bool.false_eq_true, if_false]
  by_cases h : (fl.range.fin - fl.range.start).toNat = 0
  · simp [Flush.linear, Range.size, h]
  · rw [if_neg h]
    rfl

/-- **A flush with bios** appends its pages to the sectors, and leaves `tmpbuf` as it says. -/
theorem flush_diskFile (s : Ends) (fl : Flush) :
    (flush s fl).diskFile = s.diskFile.write (fl.pages s.statics.tmpbuf) ∧
      (flush s fl).statics.tmpbuf = fl.leftover s.statics.tmpbuf := by
  have hret : ∀ k : ℕ, (0 : ℤ) ≤ fl.range.outcome.submit k := fun _ => Int.le_refl 0
  rcases Nat.eq_zero_or_pos fl.range.size with h0 | hpos
  · rw [pages_of_size_zero h0, leftover_of_size_zero h0, write_nil]
    simp only [Range.size] at h0
    simp [flush, usbWrite, bioWrite, h0, store, allPages, Ends.diskFile]
  · have hdone := done_of_succeeds _ hret fl.buffer s.statics hpos
    refine ⟨?_, bioWrite_tmpbuf fl.buffer hret s.statics hpos⟩
    simp only [flush, usbWrite, if_true, store, hdone.pages, store_firstPages,
      Ends.diskFile, hdone.bdeviceSector, File.write, length_pages]
    congr 1
    unfold sectorsPerPage pageSize Range.size
    omega

theorem run_file (s : Ends) (fls : List Flush) :
    (run s fls).file = s.file.write (fls.flatMap Flush.linear) := by
  induction fls generalizing s with
  | nil => exact (write_nil _).symm
  | cons fl fls ih =>
    rw [run, List.foldl_cons, ← run, ih, flush_file, write_write, List.flatMap_cons]

theorem run_diskFile (s : Ends) (fls : List Flush) :
    (run s fls).diskFile = s.diskFile.write (sent s.statics.tmpbuf fls) := by
  induction fls generalizing s with
  | nil => exact (write_nil _).symm
  | cons fl fls ih =>
    obtain ⟨hdisk, htmp⟩ := flush_diskFile s fl
    rw [run, List.foldl_cons, ← run, ih, hdisk, htmp, write_write, sent]

theorem agree_iff_sent (s : Ends) (fls : List Flush) :
    Agree s fls ↔ fls.flatMap Flush.linear = removeNullChars (sent s.statics.tmpbuf fls) ∧
      fls.flatMap Flush.linear = removeNullChars (fls.flatMap Flush.bytes) := by
  have hfile := run_file s fls
  have hdisk := run_diskFile s fls
  have hfs : fsStream s (run s fls) = fls.flatMap Flush.linear := by
    rw [fsStream, hfile]
    simp only [File.write, Nat.add_sub_cancel_left, slice_memcpy]
  have hbio : bioStream s (run s fls) = sent s.statics.tmpbuf fls := by
    have hbytes := congrArg File.bytes hdisk
    have hpos := congrArg File.fPos hdisk
    simp only [Ends.diskFile, File.write] at hbytes hpos
    rw [bioStream, hbytes, hpos, Nat.add_sub_cancel_left, slice_memcpy]
  rw [Agree, hfs, hbio]

/-! ### A range that starts where the ring does -/

section Aligned

variable {fl : Flush}

/-- The range starts where the ring does, and is no longer than the ring. -/
structure Aligned (fl : Flush) : Prop where
  start : 0 < fl.range.size → hardlogAuditCbuffsize ∣ fl.range.start.toNat
  size_le : fl.range.size ≤ hardlogAuditCbuffsize

theorem Aligned.index (h : Aligned fl) {k : ℕ} (hk : k < fl.range.size) :
    (fl.range.start.toNat + k) % hardlogAuditCbuffsize = k := by
  have hle := h.size_le
  rw [Nat.add_mod, Nat.mod_eq_zero_of_dvd (h.start (by omega)), Nat.zero_add, Nat.mod_mod,
    Nat.mod_eq_of_lt (by omega)]

theorem Aligned.bytes_eq (h : Aligned fl) : fl.bytes = fl.linear := by
  refine List.map_congr_left fun k hk => ?_
  rw [h.index (List.mem_range.mp hk), Nat.zero_add]

theorem div_page_add_rest (r : Range) : pageSize * (r.size / pageSize) + r.rest = r.size :=
  Nat.div_add_mod _ _

theorem rest_lt (r : Range) : r.rest < pageSize := Nat.mod_lt _ (by decide)

theorem Aligned.pageAt_full (h : Aligned fl) (tmpbuf : ℕ → UInt8) {i : ℕ}
    (hi : i < fl.range.size / pageSize) :
    pageAt fl.buffer tmpbuf fl.range.start.toNat fl.range.size i =
      slice fl.buffer (pageSize * i) pageSize := by
  have hdiv := div_page_add_rest fl.range
  have hmul := Nat.mul_le_mul_left pageSize (show i + 1 ≤ fl.range.size / pageSize from hi)
  rw [Nat.mul_add, Nat.mul_one] at hmul
  have hP := pageSize_pos
  unfold pageAt vmallocToPage
  simp only [if_pos (show pageSize ≤ fl.range.size - pageSize * i by omega)]
  rw [h.index (by omega), Nat.mul_div_cancel_left i hP, Nat.mul_comm i]

theorem Aligned.pageAt_last (h : Aligned fl) (tmpbuf : ℕ → UInt8) (hr : 0 < fl.range.rest) :
    pageAt fl.buffer tmpbuf fl.range.start.toNat fl.range.size (fl.range.size / pageSize) =
      slice fl.buffer (pageSize * (fl.range.size / pageSize)) fl.range.rest ++
        slice tmpbuf fl.range.rest (pageSize - fl.range.rest) := by
  have hdiv := div_page_add_rest fl.range
  have hlt := rest_lt fl.range
  unfold pageAt vmallocToPage
  simp only [show fl.range.size - pageSize * (fl.range.size / pageSize) = fl.range.rest by omega,
    if_neg (show ¬ pageSize ≤ fl.range.rest by omega)]
  rw [h.index (by omega), show 0 / pageSize * pageSize = 0 from rfl]
  rw [slice_memcpy_front _ (by rw [length_slice]; omega), length_slice]

theorem pageCount_eq_div (r : Range) :
    pageCount r.size = r.size / pageSize + if r.rest = 0 then 0 else 1 := by
  unfold pageCount Range.rest pageSize
  split_ifs with h
  · omega
  · omega

/-- What follows the bytes of the range: the rest of `tmpbuf`. -/
def Flush.stale (fl : Flush) (tmpbuf : ℕ → UInt8) : List UInt8 :=
  if fl.range.rest = 0 then [] else slice tmpbuf fl.range.rest (pageSize - fl.range.rest)

theorem Aligned.pages_eq (h : Aligned fl) (tmpbuf : ℕ → UInt8) :
    fl.pages tmpbuf = fl.linear ++ fl.stale tmpbuf := by
  have hdiv := div_page_add_rest fl.range
  have hlt := rest_lt fl.range
  have hfull : ((List.range (fl.range.size / pageSize)).map
      (pageAt fl.buffer tmpbuf fl.range.start.toNat fl.range.size)).flatten =
        slice fl.buffer 0 (pageSize * (fl.range.size / pageSize)) := by
    rw [← flatten_slices, List.map_congr_left fun i hi =>
      h.pageAt_full tmpbuf (List.mem_range.mp hi)]
  unfold Flush.pages Flush.stale Flush.linear
  rw [pageCount_eq_div]
  by_cases hr : fl.range.rest = 0
  · rw [if_pos hr, if_pos hr, Nat.add_zero, hfull, List.append_nil, ← hdiv, hr, Nat.add_zero]
    rw [Nat.mul_div_cancel_left _ (by decide)]
  · have hsplit := slice_add fl.buffer 0 (pageSize * (fl.range.size / pageSize)) fl.range.rest
    rw [hdiv, Nat.zero_add] at hsplit
    rw [if_neg hr, if_neg hr, List.range_succ, List.map_append, List.flatten_append, hfull]
    simp only [List.map_cons, List.map_nil, List.flatten_cons, List.flatten_nil, List.append_nil]
    rw [h.pageAt_last tmpbuf (by omega), ← List.append_assoc, hsplit]

theorem stale_all_null_iff (tmpbuf : ℕ → UInt8) :
    removeNullChars (fl.stale tmpbuf) = [] ↔
      (0 < fl.range.rest → ∀ i, fl.range.rest ≤ i → i < pageSize → tmpbuf i = 0) := by
  unfold removeNullChars Flush.stale
  by_cases hr : fl.range.rest = 0
  · simp [hr]
  · rw [if_neg hr, List.filter_eq_nil_iff]
    constructor
    · intro hall _ i hle hlt
      have := hall (tmpbuf i) (List.mem_map.mpr ⟨i - fl.range.rest, by simp; omega, by
        congr 1; omega⟩)
      simpa using this
    · intro hall b hb
      obtain ⟨i, hi, rfl⟩ := List.mem_map.mp hb
      rw [List.mem_range] at hi
      simp [hall (by omega) (fl.range.rest + i) (by omega) (by omega)]

theorem leftover_of_le (tmpbuf : ℕ → UInt8) {i : ℕ} (hi : fl.range.rest ≤ i) :
    fl.leftover tmpbuf i = tmpbuf i := by
  unfold Flush.leftover BioFs.leftover Range.rest at *
  by_cases hr : fl.range.size % pageSize = 0
  · rw [if_pos hr]
  · rw [if_neg hr, memcpy_outside _ _ _ (by rw [length_slice]; omega)]

theorem Aligned.leftover_of_lt (h : Aligned fl) (hnul : ∀ b ∈ fl.bytes, b ≠ 0)
    (tmpbuf : ℕ → UInt8) {i : ℕ} (hi : i < fl.range.rest) : fl.leftover tmpbuf i ≠ 0 := by
  have hdiv := div_page_add_rest fl.range
  have hcell := memcpy_inside tmpbuf 0
    (slice fl.buffer (pageSize * (fl.range.size / pageSize)) fl.range.rest) (k := i)
    (by rwa [length_slice])
  rw [getElem_slice, Nat.zero_add] at hcell
  unfold Flush.leftover BioFs.leftover
  rw [if_neg (show ¬ fl.range.size % pageSize = 0 from Nat.ne_of_gt (Nat.zero_lt_of_lt hi)),
    h.index (by omega)]
  change memcpy tmpbuf 0 (slice fl.buffer _ fl.range.rest) i ≠ 0
  rw [hcell]
  refine hnul _ ?_
  rw [h.bytes_eq]
  exact List.mem_map.mpr ⟨pageSize * (fl.range.size / pageSize) + i,
    List.mem_range.mpr (by omega), by rw [Nat.zero_add]⟩

end Aligned

/-! ### A sequence of such ranges -/

theorem removeNullChars_eq_self {l : List UInt8} (h : ∀ b ∈ l, b ≠ 0) : removeNullChars l = l :=
  List.filter_eq_self.mpr fun b hb => by simpa using h b hb

theorem NulFree.flatMap_bytes {fls : List Flush} (h : NulFree fls) :
    removeNullChars (fls.flatMap Flush.bytes) = fls.flatMap Flush.bytes :=
  removeNullChars_eq_self fun b hb => by
    obtain ⟨fl, hfl, hb⟩ := List.mem_flatMap.mp hb
    exact h fl hfl b hb

theorem flatMap_bytes_eq {fls : List Flush} (h : ∀ fl ∈ fls, Aligned fl) :
    fls.flatMap Flush.bytes = fls.flatMap Flush.linear :=
  List.flatMap_congr fun fl hfl => (h fl hfl).bytes_eq

/-- What a flush adds to the requirements on the ranges behind it. -/
theorem suits_cons_iff {fl : Flush} (h : Aligned fl) (hnul : ∀ b ∈ fl.bytes, b ≠ 0)
    (tmpbuf : ℕ → UInt8) (rs : List Range) :
    Suits tmpbuf (fl.range :: rs) ↔
      removeNullChars (fl.stale tmpbuf) = [] ∧ Suits (fl.leftover tmpbuf) rs := by
  rw [stale_all_null_iff]
  constructor
  · intro hs
    obtain ⟨hgrows, hrest⟩ := List.pairwise_cons.mp hs.grows
    refine ⟨hs.clean fl.range (List.mem_cons_self ..), fun r hr => hs.start r
      (List.mem_cons_of_mem _ hr), fun r hr hpos i hle hlt => ?_, hrest⟩
    rw [leftover_of_le tmpbuf ((hgrows r hr hpos).trans hle)]
    exact hs.clean r (List.mem_cons_of_mem _ hr) hpos i hle hlt
  · rintro ⟨hclean, hs⟩
    have hgrows : ∀ r ∈ rs, 0 < r.rest → fl.range.rest ≤ r.rest := by
      intro r hr hpos
      by_contra hlt
      exact h.leftover_of_lt hnul tmpbuf (Nat.lt_of_not_le hlt)
        (hs.clean r hr hpos r.rest (Nat.le_refl _) (rest_lt r))
    refine ⟨?_, ?_, List.pairwise_cons.mpr ⟨hgrows, hs.grows⟩⟩
    · intro r hr
      rcases List.mem_cons.mp hr with rfl | hr
      · exact h.start
      · exact hs.start r hr
    · intro r hr hpos i hle hlt
      rcases List.mem_cons.mp hr with rfl | hr
      · exact hclean hpos i hle hlt
      · rw [← leftover_of_le tmpbuf ((hgrows r hr hpos).trans hle)]
        exact hs.clean r hr hpos i hle hlt

theorem Aligned.removeNullChars_pages {fl : Flush} (h : Aligned fl) (hnul : ∀ b ∈ fl.bytes, b ≠ 0)
    (tmpbuf : ℕ → UInt8) :
    removeNullChars (fl.pages tmpbuf) = fl.linear ++ removeNullChars (fl.stale tmpbuf) := by
  rw [h.pages_eq, removeNullChars_append, removeNullChars_eq_self (by rwa [← h.bytes_eq])]

theorem length_le_sent {fls : List Flush} (h : ∀ fl ∈ fls, Aligned fl) (hnul : NulFree fls)
    (tmpbuf : ℕ → UInt8) :
    (fls.flatMap Flush.linear).length ≤ (removeNullChars (sent tmpbuf fls)).length := by
  induction fls generalizing tmpbuf with
  | nil => exact Nat.zero_le _
  | cons fl fls ih =>
    have hrest := ih (fun f hf => h f (List.mem_cons_of_mem _ hf))
      (fun f hf => hnul f (List.mem_cons_of_mem _ hf)) (fl.leftover tmpbuf)
    rw [sent, removeNullChars_append, (h fl (List.mem_cons_self ..)).removeNullChars_pages
      (hnul fl (List.mem_cons_self ..)), List.flatMap_cons]
    simp only [List.length_append]
    omega

/-- **The stale bytes**: without them, and only so, `bio_write` stores the bytes of the ranges. -/
theorem sent_eq_iff {fls : List Flush} (h : ∀ fl ∈ fls, Aligned fl) (hnul : NulFree fls)
    (tmpbuf : ℕ → UInt8) :
    fls.flatMap Flush.linear = removeNullChars (sent tmpbuf fls) ↔
      Suits tmpbuf (fls.map Flush.range) := by
  induction fls generalizing tmpbuf with
  | nil => exact ⟨fun _ => ⟨by simp, by simp, List.Pairwise.nil⟩, fun _ => rfl⟩
  | cons fl fls ih =>
    have hfl := h fl (List.mem_cons_self ..)
    have hfree := hnul fl (List.mem_cons_self ..)
    have hall : ∀ f ∈ fls, Aligned f := fun f hf => h f (List.mem_cons_of_mem _ hf)
    have hfrees : NulFree fls := fun f hf => hnul f (List.mem_cons_of_mem _ hf)
    have hle := length_le_sent hall hfrees (fl.leftover tmpbuf)
    rw [List.map_cons, suits_cons_iff hfl hfree, ← ih hall hfrees, sent, removeNullChars_append,
      hfl.removeNullChars_pages hfree, List.flatMap_cons, List.append_assoc,
      List.append_right_inj]
    constructor
    · intro heq
      have hlen := congrArg List.length heq
      rw [List.length_append] at hlen
      have hnil := List.eq_nil_of_length_eq_zero
        (show (removeNullChars (fl.stale tmpbuf)).length = 0 by omega)
      rw [hnil, List.nil_append] at heq
      exact ⟨hnil, heq⟩
    · rintro ⟨hnil, heq⟩
      rw [hnil, List.nil_append, heq]

/-! ### Any ranges -/

theorem length_linear (fl : Flush) : fl.linear.length = fl.bytes.length := by
  simp [Flush.linear, Flush.bytes, ringBytes]

theorem length_flatMap_linear (fls : List Flush) :
    (fls.flatMap Flush.linear).length = (fls.flatMap Flush.bytes).length := by
  simp only [List.length_flatMap, length_linear]

theorem linear_eq_bytes {fls : List Flush} (h : fls.flatMap Flush.linear = fls.flatMap Flush.bytes) :
    ∀ fl ∈ fls, fl.linear = fl.bytes := by
  induction fls with
  | nil => simp
  | cons fl fls ih =>
    rw [List.flatMap_cons, List.flatMap_cons] at h
    obtain ⟨hfl, hrest⟩ := List.append_inj h (length_linear fl)
    intro f hf
    rcases List.mem_cons.mp hf with rfl | hf
    · exact hfl
    · exact ih hrest f hf

/-- NUL bytes are stored by `fs_write`, so the two ways never agree on them. -/
theorem nulFree_of_agree {s : Ends} {fls : List Flush} (h : Agree s fls) : NulFree fls := by
  have hlen := congrArg List.length ((agree_iff_sent s fls).mp h).2
  rw [length_flatMap_linear] at hlen
  intro fl hfl b hb
  simpa using List.length_filter_eq_length_iff.mp hlen.symm b (List.mem_flatMap.mpr ⟨fl, hfl, hb⟩)

/-- A ring that tells its first byte from the others. -/
def marked (i : ℕ) : UInt8 := if i = 0 then 2 else 1

/-- With such a ring, `fs_write` shows whether a range starts where the ring does. -/
theorem start_of_marked {r : Range} (h : Flush.linear ⟨r, marked⟩ = Flush.bytes ⟨r, marked⟩)
    (hpos : 0 < r.size) : hardlogAuditCbuffsize ∣ r.start.toNat := by
  have hfirst := congrArg (fun l => l[0]?) h
  simp only [Flush.linear, Flush.bytes, ringBytes, slice, List.getElem?_map,
    List.getElem?_range hpos, Option.map_some, Nat.add_zero, Option.some.injEq, marked] at hfirst
  by_contra hne
  rw [if_pos trivial, if_neg fun h0 => hne (Nat.dvd_of_mod_eq_zero h0)] at hfirst
  exact absurd hfirst (by decide)

theorem nulFree_marked (rs : List Range) : NulFree (rs.map fun r => ⟨r, marked⟩) := by
  intro fl hfl b hb
  obtain ⟨r, -, rfl⟩ := List.mem_map.mp hfl
  obtain ⟨k, -, rfl⟩ := List.mem_map.mp hb
  simp only [marked]
  split_ifs
  · decide
  · decide

/-- **The two back ends**: on ranges within one ring size they store the same for every ring without
a NUL byte in them exactly if each range starts where the ring does and nothing stale follows it;
and they never do when there is a NUL byte in a range. -/
theorem agree_iff (s : Ends) (rs : List Range) (hrs : ∀ r ∈ rs, r.size ≤ hardlogAuditCbuffsize) :
    ((∀ fls : List Flush, fls.map Flush.range = rs → NulFree fls → Agree s fls) ↔
        Suits s.statics.tmpbuf rs) ∧
      ∀ fls, fls.map Flush.range = rs → Agree s fls → NulFree fls := by
  refine ⟨⟨fun hall => ?_, fun hs fls hfls hnul => ?_⟩, fun fls _ => nulFree_of_agree⟩
  · have hmap : (rs.map fun r => (⟨r, marked⟩ : Flush)).map Flush.range = rs := by
      rw [List.map_map]
      exact List.map_id rs
    have hnul := nulFree_marked rs
    obtain ⟨hbio, hfs⟩ := (agree_iff_sent _ _).mp (hall _ hmap hnul)
    rw [hnul.flatMap_bytes] at hfs
    have haligned : ∀ fl ∈ rs.map fun r => (⟨r, marked⟩ : Flush), Aligned fl := by
      intro fl hfl
      have heq := linear_eq_bytes hfs fl hfl
      obtain ⟨r, hr, rfl⟩ := List.mem_map.mp hfl
      exact ⟨start_of_marked heq, hrs r hr⟩
    have hs := (sent_eq_iff haligned hnul _).mp hbio
    rwa [hmap] at hs
  · have haligned : ∀ fl ∈ fls, Aligned fl := by
      intro fl hfl
      have hr : fl.range ∈ rs := hfls ▸ List.mem_map_of_mem hfl
      exact ⟨hs.start _ hr, hrs _ hr⟩
    rw [← hfls] at hs
    refine (agree_iff_sent _ _).mpr ⟨(sent_eq_iff haligned hnul _).mpr hs, ?_⟩
    rw [hnul.flatMap_bytes, flatMap_bytes_eq haligned]

/-- A range of one page and 904 bytes from the start of the ring, `tmpbuf` being all zero. -/
theorem agree_0_5000 :
    Agree ⟨⟨fun _ => 0, 512⟩, ⟨1, fun _ => 0⟩, fun _ => 0⟩ [⟨⟨0, 5000⟩, marked⟩] :=
  (agree_iff ⟨⟨fun _ => 0, 512⟩, ⟨1, fun _ => 0⟩, fun _ => 0⟩ [⟨0, 5000⟩] (by decide)).1.mpr
    ⟨by decide, by simp, by simp⟩ _ rfl (nulFree_marked [⟨0, 5000⟩])

/-- The first 100 bytes are flushed and then the next 100: `fs_write` stores the first 100 twice. -/
theorem not_agree_0_100_200 :
    ¬ Agree ⟨⟨fun _ => 0, 512⟩, ⟨1, fun _ => 0⟩, fun _ => 0⟩
      [⟨⟨0, 100⟩, marked⟩, ⟨⟨100, 200⟩, marked⟩] := by
  intro h
  obtain ⟨-, hfs⟩ := (agree_iff_sent _ _).mp h
  have hnul : NulFree [⟨⟨0, 100⟩, marked⟩, ⟨⟨100, 200⟩, marked⟩] :=
    nulFree_marked [⟨0, 100⟩, ⟨100, 200⟩]
  rw [hnul.flatMap_bytes] at hfs
  have hsecond := linear_eq_bytes hfs ⟨⟨100, 200⟩, marked⟩ (by simp)
  exact absurd (start_of_marked hsecond (by decide)) (by decide)

end HardLog.Host.BackEnds
