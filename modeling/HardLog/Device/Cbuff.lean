import HardLog.Lib.CInt
import HardLog.Lib.Files
import HardLog.Lib.Ring
import HardLog.Lib.Runs

/-! # The audit device's circular buffer and its flusher

`do_hardlog_write` copies chunks received over USB into `data_cbuff`; the thread
`hardlog_flushd_thread` writes the part between the tail and the head to the log file, in two halves
if it goes across the end of the ring. The steps of the two interleave: a step is the test of
`make_space_in_cbuff`, the `memcpy`, the update of the head; the readings of the head and the tail,
one `fs_write`, the update of the tail. `writerStep_cases` says once what a step of the writer can
do. -/

namespace HardLog.Device.Cbuff

open HardLog.Lib.CInt HardLog.Lib.Memory HardLog.Lib.Files HardLog.Lib.Ring HardLog.Lib.Runs

/-- `HARDLOG_DATA_CBUFFSIZE`: 512 MB. -/
def hardlogDataCbuffsize : ℕ := 512 * 1024 * 1024

theorem hardlogDataCbuffsize_pos : 0 < hardlogDataCbuffsize := by decide

/-- `struct circ_buffer`. The allocation has `HARDLOG_DATA_CBUFFSIZE + 2 * 1024 * 1024` bytes. -/
structure CircBuffer where
  buffer : ℕ → UInt8
  head : UInt64
  tail : UInt64

/-- `data_cbuff.head - data_cbuff.tail`. -/
def CircBuffer.fill (cb : CircBuffer) : ℕ := (cb.head - cb.tail).toNat

/-- The head modulo the size. -/
def CircBuffer.headIndex (cb : CircBuffer) : ℕ := cb.head.toNat % hardlogDataCbuffsize

/-- Where the copying of a chunk stands. -/
inductive WriterPc where
  | idle
  /-- In the loop of `make_space_in_cbuff`. -/
  | space (chunk : List UInt8)
  /-- At the `memcpy`, with the head reduced to an index. -/
  | copy (chunk : List UInt8) (dataCbuffOffset : ℕ)
  /-- At `data_cbuff.head += amount`. -/
  | bump (chunk : List UInt8)

/-- Where `hardlog_flushd_thread` is in its loop. -/
inductive FlusherPc where
  | top
  | readTail (realEnd : UInt64)
  /-- At the one `fs_write` of the normal case. -/
  | normal (realEnd : UInt64) (fin start : ℕ)
  /-- At the first of the two of the special case. -/
  | wrapFirst (realEnd : UInt64) (fin start : ℕ)
  | wrapSecond (realEnd : UInt64) (fin : ℕ)
  | setTail (realEnd : UInt64)

/-- The ring, its two users and the log file. `stream` is what has been accepted so far. -/
structure Store where
  cb : CircBuffer
  writer : WriterPc
  flusher : FlusherPc
  file : File UInt8
  fileEndOffset : ℕ
  stream : List UInt8

/-- A chunk arrives, its copying goes on, or the flusher takes a step, in which `vfs_write` returns
`len`. -/
inductive Action where
  | chunk (data : List UInt8)
  | writer
  | flusher (len : ℤ)

/-- `vfs_write` of `data` with the return value `len`: an error writes nothing, a positive count that
many bytes, all of them at most. -/
def vfsWrite (len : ℤ) (f : File UInt8) (data : List UInt8) : File UInt8 :=
  f.write (data.take len.toNat)

/-- `fs_write` of the indices `[start, fin)`, with `start ≤ fin`. -/
def fsWrite (len : ℤ) (s : Store) (fin start : ℕ) : Store :=
  if fin - start = 0 then s
  else
    let file := vfsWrite len s.file (slice s.cb.buffer start (fin - start))
    if len ≤ 0 then { s with file }
    else { s with file, fileEndOffset := file.fPos }

/-- A step of the copying of a chunk. -/
def writerStep (s : Store) : Option Store :=
  match s.writer with
  | .idle => none
  | .space chunk =>
    -- the length of the chunk plays no part here
    if hardlogDataCbuffsize ≤ s.cb.fill then some s
    else some { s with writer := .copy chunk s.cb.headIndex }
  | .copy chunk i =>
    some { s with writer := .bump chunk, cb := { s.cb with buffer := memcpy s.cb.buffer i chunk } }
  | .bump chunk =>
    some
      { s with
        writer := .idle
        cb := { s.cb with head := s.cb.head + UInt64.ofNat chunk.length }
        stream := s.stream ++ chunk }

/-- A step of `hardlog_flushd_thread`. -/
def flusherStep (s : Store) (len : ℤ) : Store :=
  match s.flusher with
  | .top => { s with flusher := .readTail s.cb.head }
  | .readTail realEnd =>
    let fin := realEnd.toNat % hardlogDataCbuffsize
    let start := s.cb.tail.toNat % hardlogDataCbuffsize
    if fin < start then { s with flusher := .wrapFirst realEnd fin start }
    else if fin = start then { s with flusher := .top }
    else { s with flusher := .normal realEnd fin start }
  | .normal realEnd fin start => { fsWrite len s fin start with flusher := .setTail realEnd }
  | .wrapFirst realEnd fin start =>
    { fsWrite len s hardlogDataCbuffsize start with flusher := .wrapSecond realEnd fin }
  | .wrapSecond realEnd fin => { fsWrite len s fin 0 with flusher := .setTail realEnd }
  | .setTail realEnd => { s with flusher := .top, cb := { s.cb with tail := realEnd } }

/-- A step of the store. -/
def storeStep (s : Store) : Action → Option Store
  | .chunk data =>
    match s.writer with
    | .idle => some { s with writer := .space data }
    | _ => none
  | .writer => writerStep s
  | .flusher len => some (flusherStep s len)

/-- The store after `hardlog_setup`, with the memory `vmalloc` returned and the log file as it is. -/
def storeInit (garbage : ℕ → UInt8) (log : ℕ → UInt8) : Store where
  cb := ⟨garbage, 0, 0⟩
  writer := .idle
  flusher := .top
  file := ⟨log, 0⟩
  fileEndOffset := 0
  stream := []

/-! ### What a step can do -/

/-- **A step of the copying**: waiting, taking the index, copying, or moving the head. -/
theorem writerStep_cases {s s' : Store} (hs : writerStep s = some s') :
    (∃ chunk, s.writer = .space chunk ∧ s' = s) ∨
    (∃ chunk, s.writer = .space chunk ∧ s.cb.fill < hardlogDataCbuffsize ∧
      s' = { s with writer := .copy chunk s.cb.headIndex }) ∨
    (∃ chunk i, s.writer = .copy chunk i ∧
      s' = { s with
        writer := .bump chunk
        cb := { s.cb with buffer := memcpy s.cb.buffer i chunk } }) ∨
    (∃ chunk, s.writer = .bump chunk ∧
      s' = { s with
        writer := .idle
        cb := { s.cb with head := s.cb.head + UInt64.ofNat chunk.length }
        stream := s.stream ++ chunk }) := by
  unfold writerStep at hs
  cases hpc : s.writer with
  | idle => simp [hpc] at hs
  | space chunk =>
    simp only [hpc] at hs
    split_ifs at hs with hf <;> obtain rfl := Option.some.inj hs
    · exact Or.inl ⟨chunk, rfl, rfl⟩
    · exact Or.inr (Or.inl ⟨chunk, rfl, by omega, rfl⟩)
  | copy chunk i =>
    simp only [hpc] at hs
    exact Or.inr (Or.inr (Or.inl ⟨chunk, i, rfl, (Option.some.inj hs).symm⟩))
  | bump chunk =>
    simp only [hpc] at hs
    exact Or.inr (Or.inr (Or.inr ⟨chunk, rfl, (Option.some.inj hs).symm⟩))

theorem chunk_cases {s s' : Store} {data : List UInt8} (hs : storeStep s (.chunk data) = some s') :
    s.writer = .idle ∧ s' = { s with writer := .space data } := by
  simp only [storeStep] at hs
  split at hs
  · next h => exact ⟨h, (Option.some.inj hs).symm⟩
  · cases hs

theorem fsWrite_frame (len : ℤ) (s : Store) (fin start : ℕ) :
    (fsWrite len s fin start).cb = s.cb ∧ (fsWrite len s fin start).writer = s.writer ∧
      (fsWrite len s fin start).stream = s.stream ∧
      (fsWrite len s fin start).flusher = s.flusher := by
  unfold fsWrite
  split_ifs <;> exact ⟨rfl, rfl, rfl, rfl⟩

theorem flusherStep_frame (s : Store) (len : ℤ) :
    (flusherStep s len).cb.head = s.cb.head ∧ (flusherStep s len).writer = s.writer := by
  unfold flusherStep
  cases s.flusher with
  | readTail realEnd =>
    simp only
    split_ifs <;> exact ⟨rfl, rfl⟩
  | normal realEnd fin start => simp only [fsWrite_frame, and_self]
  | wrapFirst realEnd fin start => simp only [fsWrite_frame, and_self]
  | wrapSecond realEnd fin => simp only [fsWrite_frame, and_self]
  | _ => exact ⟨rfl, rfl⟩

/-- The number of bytes an `fs_write` gets into the file. -/
def fsWritten (len : ℤ) (fin start : ℕ) : ℕ := min len.toNat (fin - start)

theorem fsWrite_file (len : ℤ) (s : Store) (fin start : ℕ) :
    (fsWrite len s fin start).file =
      s.file.write (slice s.cb.buffer start (fsWritten len fin start)) := by
  have htake : vfsWrite len s.file (slice s.cb.buffer start (fin - start)) =
      s.file.write (slice s.cb.buffer start (fsWritten len fin start)) := by
    unfold vfsWrite fsWritten
    rw [take_slice]
  unfold fsWrite
  by_cases h0 : fin - start = 0
  · rw [if_pos h0, fsWritten, h0, Nat.min_zero, slice_zero, write_nil]
  · rw [if_neg h0]
    by_cases hlen : len ≤ 0
    · simp only [if_pos hlen, htake]
    · simp only [if_neg hlen, htake]

end HardLog.Device.Cbuff
