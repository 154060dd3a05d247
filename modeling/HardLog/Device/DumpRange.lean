import HardLog.Device.Stale

/-! # The range that `dump_log` returns

`dump_log` reads chunks of 128 KB and trims and writes the whole of `tmpbuf` each time, whatever is left
to read of the range and however much was read. So behind the range its last chunk brings what the log
goes on with (`overrun`), and behind what was read, if the log ends there, what `tmpbuf` held before
(`unread`). `dumpLog_exact_iff` says that the response is the range exactly if there is no last chunk of
this kind, or nothing but NUL bytes in these places. -/

namespace HardLog.Device.DumpRange

open HardLog.Lib.CString HardLog.Device.Response HardLog.Device.Stale

/-- A request for a range of the log; the log and the response file can be opened. -/
structure InRange (r : Request) (log : List UInt8) : Prop where
  log_eq : r.env.log = some log
  tmpOpens : r.env.tmpOpens = true
  start_le : r.logFileStartOffset ≤ r.logFileEndOffset
  end_le : r.logFileEndOffset.toNat ≤ log.length
  length_lt : log.length < 2 ^ 63
  size_lt : size r < 100 * 1024 * 1024

/-- The log from the start offset on. -/
def behindStart (r : Request) (log : List UInt8) : List UInt8 := log.drop r.logFileStartOffset.toNat

/-- The bytes of the range. -/
def range (r : Request) (log : List UInt8) : List UInt8 := (behindStart r log).take (size r)

/-- What the last chunk of `n` bytes of `file` has behind them. -/
def overrun (file : List UInt8) (n : ℕ) : List UInt8 := (file.drop n).take (bufSize - n % bufSize)

/-- What the last chunk of `n` bytes of `file` does not fill of `tmpbuf`: the end of the chunk before it,
or of what `malloc` returned. -/
def unread (tmpbuf file : List UInt8) (n : ℕ) : List UInt8 :=
  let before := if n < bufSize then tmpbuf else (file.drop ((n / bufSize - 1) * bufSize)).take bufSize
  before.drop ((file.drop (n / bufSize * bufSize)).take bufSize).length

/-- The range is a number of whole chunks, or there are only NUL bytes behind it in its last one. -/
def Exact (tmpbuf file : List UInt8) (n : ℕ) : Prop :=
  bufSize ∣ n ∨ (∀ b ∈ overrun file n, b = 0) ∧ ∀ b ∈ unread tmpbuf file n, b = 0

theorem removeNullChars_eq_nil_iff (bs : List UInt8) :
    removeNullChars bs = [] ↔ ∀ b ∈ bs, b = 0 := by
  simp [removeNullChars]

/-! ### The loop -/

section Loop

variable {file : List UInt8} {n : ℕ}

theorem overrun_drop (h : bufSize ≤ n) : overrun (file.drop bufSize) (n - bufSize) = overrun file n := by
  unfold overrun
  rw [List.drop_drop, Nat.add_sub_cancel' h, ← Nat.mod_eq_sub_mod h]

theorem unread_drop (tmpbuf : List UInt8) (h : bufSize ≤ n) :
    unread (file.take bufSize) (file.drop bufSize) (n - bufSize) = unread tmpbuf file n := by
  have hdiv : n / bufSize = (n - bufSize) / bufSize + 1 := Nat.div_eq_sub_div bufSize_pos h
  have hmul : ∀ j, bufSize + j * bufSize = (j + 1) * bufSize := fun j => by
    rw [Nat.add_mul, Nat.one_mul, Nat.add_comm]
  unfold unread
  rw [if_neg (Nat.not_lt.mpr h)]
  simp only [List.drop_drop, hmul, hdiv, Nat.add_sub_cancel]
  by_cases hlt : n - bufSize < bufSize
  · rw [if_pos hlt, Nat.div_eq_of_lt hlt, Nat.zero_mul, List.drop_zero]
  · have hpos : 1 ≤ (n - bufSize) / bufSize := (Nat.one_le_div_iff bufSize_pos).mpr (Nat.le_of_not_lt hlt)
    rw [if_neg hlt, Nat.sub_add_cancel hpos]

/-- The loop of `dump_log` writes the range, and what the last chunk has behind it. -/
theorem dumpLoop_eq_append {fuel : ℕ} {tmpbuf : List UInt8} (hbuf : tmpbuf.length = bufSize)
    (hn : n ≤ file.length) (hfuel : n ≤ fuel) :
    dumpLoop fuel file n tmpbuf = removeNullChars (file.take n) ++
      if n % bufSize = 0 then []
      else removeNullChars (overrun file n) ++ removeNullChars (unread tmpbuf file n) := by
  have hB := bufSize_pos
  induction fuel generalizing file n tmpbuf with
  | zero =>
    obtain rfl := Nat.le_zero.mp hfuel
    rfl
  | succ fuel ih =>
    rcases Nat.eq_zero_or_pos n with rfl | hpos
    · simp [dumpLoop, removeNullChars]
    have hchunk : file.take bufSize ≠ [] := by
      intro hnil
      have := congrArg List.length hnil
      rw [List.length_take, List.length_nil] at this
      omega
    rw [dumpLoop]
    simp only [Nat.pos_iff_ne_zero.mp hpos, hchunk, or_self, if_false]
    rcases Nat.lt_or_ge n bufSize with hlt | hge
    · -- the only chunk
      have hrest : (if n < (file.take bufSize).length then []
          else dumpLoop fuel (file.drop bufSize) (n - (file.take bufSize).length)
            (file.take bufSize ++ tmpbuf.drop (file.take bufSize).length)) = [] := by
        split_ifs with hshort
        · rfl
        · have hzero : n - (file.take bufSize).length = 0 := by
            rw [List.length_take] at hshort ⊢
            omega
          rw [hzero]
          cases fuel <;> simp [dumpLoop]
      have hsplit : file.take bufSize = file.take n ++ overrun file n := by
        rw [overrun, Nat.mod_eq_of_lt hlt, ← List.take_add, Nat.add_sub_cancel' hlt.le]
      rw [hrest, List.append_nil, if_neg (by rw [Nat.mod_eq_of_lt hlt]; omega), unread, if_pos hlt,
        Nat.div_eq_of_lt hlt, Nat.zero_mul, List.drop_zero, removeNullChars_append, hsplit,
        removeNullChars_append, List.append_assoc]
    · -- a full chunk, and then the rest
      have hlen : (file.take bufSize).length = bufSize := by
        rw [List.length_take]
        omega
      have htmp : file.take bufSize ++ tmpbuf.drop (file.take bufSize).length = file.take bufSize := by
        rw [hlen, List.drop_of_length_le hbuf.le, List.append_nil]
      have hsplit : file.take n = file.take bufSize ++ (file.drop bufSize).take (n - bufSize) := by
        rw [← List.take_add, Nat.add_sub_cancel' hge]
      rw [htmp, hlen, if_neg (Nat.not_lt.mpr hge), ih hlen (by rw [List.length_drop]; omega) (by omega),
        ← Nat.mod_eq_sub_mod hge, overrun_drop hge, unread_drop tmpbuf hge, hsplit,
        removeNullChars_append, List.append_assoc]

end Loop

/-! ### The range -/

section Range

variable {r : Request} {log : List UInt8}

theorem InRange.size_eq (h : InRange r log) :
    size r ≤ (behindStart r log).length ∧ fseek log r.logFileStartOffset = behindStart r log := by
  have hle := UInt64.le_iff_toNat_le.mp h.start_le
  have hend := h.end_le
  have hlen := h.length_lt
  constructor
  · rw [size, UInt64.toNat_sub_of_le _ _ h.start_le, behindStart, List.length_drop]
    omega
  · rw [fseek, if_pos (by omega), behindStart]

/-- **The dump** of a range is the range without its NUL bytes exactly if it is a number of whole chunks
or only NUL bytes are behind it in its last one. -/
theorem dumpLog_exact_iff (h : InRange r log) {tmpbuf : Buffer bufSize}
    (hbuf : r.env.tmpbuf = some tmpbuf) (htrim : r.env.trimbuf = true) :
    dumpLog r = .wrote (removeNullChars (range r log)) ↔
      Exact tmpbuf.bytes (behindStart r log) (size r) := by
  obtain ⟨hsize, hseek⟩ := h.size_eq
  have hdump : dumpLog r =
      .wrote (dumpLoop (size r) (behindStart r log) (size r) tmpbuf.bytes) := by
    have hnot : ¬ 100 * 1024 * 1024 ≤ size r := Nat.not_le.mpr h.size_lt
    rw [dumpLog, ← size, if_neg hnot]
    simp [h.log_eq, h.tmpOpens, hbuf, htrim, hseek]
  rw [hdump, Dump.wrote.injEq, dumpLoop_eq_append tmpbuf.length_bytes hsize (Nat.le_refl _), range,
    List.append_right_eq_self, Exact, Nat.dvd_iff_mod_eq_zero]
  split_ifs with hmod
  · exact iff_of_true rfl (Or.inl hmod)
  · rw [List.append_eq_nil_iff, removeNullChars_eq_nil_iff, removeNullChars_eq_nil_iff]
    exact ⟨Or.inr, fun hor => hor.resolve_left hmod⟩

end Range

/-- A range with NUL bytes behind it up to the end of its last chunk. -/
theorem exact_of_padded {tmpbuf a padding : List UInt8} (hbuf : tmpbuf.length = bufSize)
    (hpad : ∀ b ∈ padding, b = 0) (hlen : padding.length = bufSize - a.length % bufSize)
    (rest : List UInt8) : Exact tmpbuf (a ++ (padding ++ rest)) a.length := by
  have hmod := Nat.mod_lt a.length bufSize_pos
  have hdiv := Nat.div_add_mod' a.length bufSize
  refine Or.inr ⟨?_, ?_⟩
  · rw [overrun, List.drop_left, ← hlen, List.take_left]
    exact hpad
  · have hlast : (((a ++ (padding ++ rest)).drop (a.length / bufSize * bufSize)).take
        bufSize).length = bufSize := by
      rw [List.length_take, List.length_drop, List.length_append, List.length_append]
      omega
    have hnil : unread tmpbuf (a ++ (padding ++ rest)) a.length = [] := by
      unfold unread
      simp only [hlast]
      refine List.drop_eq_nil_of_le ?_
      split_ifs
      · exact hbuf.le
      · exact List.length_take_le _ _
    rw [hnil]
    exact fun b hb => absurd hb List.not_mem_nil

/-- 128 KB and ten bytes, with NUL bytes in front and in between. -/
def twoChunks : List UInt8 :=
  List.replicate 100 0 ++ List.replicate 130972 65 ++ 0 :: List.replicate 9 66

/-- A log with a block in front of them, NUL bytes up to the end of a chunk behind them, and more. -/
def paddedLog : List UInt8 :=
  List.replicate 512 67 ++ (twoChunks ++ (List.replicate 131062 0 ++ List.replicate 300 68))

/-- `ALL` for them. -/
def paddedRequest : Request :=
  ⟨ofChars "ALL".toList, 512, 131594, { fair with log := some paddedLog }⟩

theorem length_twoChunks : twoChunks.length = 131082 := by
  rw [twoChunks, List.length_append, List.length_append, List.length_cons, List.length_replicate,
    List.length_replicate, List.length_replicate]

theorem length_paddedLog : paddedLog.length = 262956 := by
  rw [paddedLog, List.length_append, List.length_append, List.length_append, length_twoChunks,
    List.length_replicate, List.length_replicate, List.length_replicate]

theorem removeNullChars_replicate {b : UInt8} (h : b ≠ 0) (n : ℕ) :
    removeNullChars (List.replicate n b) = List.replicate n b :=
  List.filter_eq_self.mpr fun c hc => by simp [List.eq_of_mem_replicate hc, h]

theorem removeNullChars_twoChunks :
    removeNullChars twoChunks = List.replicate 130972 65 ++ List.replicate 9 66 := by
  have hcons : removeNullChars (0 :: List.replicate 9 66) = List.replicate 9 66 := by
    rw [← List.singleton_append, removeNullChars_append, removeNullChars_replicate (by decide)]
    rfl
  rw [twoChunks, removeNullChars_append, removeNullChars_append, removeNullChars_zeros, hcons,
    removeNullChars_replicate (by decide), List.nil_append]

/-- The response is their letters. -/
theorem dumpLog_padded :
    dumpLog paddedRequest = .wrote (List.replicate 130972 65 ++ List.replicate 9 66) := by
  have hrange : InRange paddedRequest paddedLog :=
    ⟨rfl, rfl, by decide, by rw [length_paddedLog]; decide, by rw [length_paddedLog]; decide, by decide⟩
  have hbehind : behindStart paddedRequest paddedLog =
      twoChunks ++ (List.replicate 131062 0 ++ List.replicate 300 68) :=
    List.drop_left' List.length_replicate
  have hsize : size paddedRequest = twoChunks.length := by
    rw [length_twoChunks]
    rfl
  have hexact : Exact zeros.bytes (behindStart paddedRequest paddedLog) (size paddedRequest) := by
    rw [hbehind, hsize]
    refine exact_of_padded zeros.length_bytes (fun b hb => List.eq_of_mem_replicate hb) ?_ _
    rw [List.length_replicate, length_twoChunks]
    rfl
  have hdump := (dumpLog_exact_iff hrange rfl rfl).mpr hexact
  rwa [range, hbehind, hsize, List.take_left, removeNullChars_twoChunks] at hdump

/-- `ALL` for the first `fin` bytes of a log of `n` letters. -/
def letters (n : ℕ) (fin : UInt64) : Request :=
  ⟨ofChars "ALL".toList, 0, fin, { fair with log := some (List.replicate n 65) }⟩

/-- Of a log of ten letters five are asked for, and the response is all ten. -/
theorem dumpLog_overrun :
    InRange (letters 10 5) (List.replicate 10 65) ∧
      dumpLog (letters 10 5) ≠
        .wrote (removeNullChars (range (letters 10 5) (List.replicate 10 65))) := by
  have hrange : InRange (letters 10 5) (List.replicate 10 65) :=
    ⟨rfl, rfl, by decide, by decide, by decide, by decide⟩
  refine ⟨hrange, fun h => ?_⟩
  rcases (dumpLog_exact_iff hrange rfl rfl).mp h with hdvd | ⟨hover, -⟩
  · exact absurd hdvd (by decide)
  · exact absurd (hover 65 (by decide)) (by decide)

end HardLog.Device.DumpRange
