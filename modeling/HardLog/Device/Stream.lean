import HardLog.Device.Cbuff

/-! # From the chunks to the log file

While every copied chunk has room and ends before the end of the ring, the log file is the
concatenation of the accepted chunks as soon as the ring has drained (`contents_of_drained`). The
invariant counts: the head is the length of the stream, the tail the number of bytes flushed, and
the file holds a prefix of the stream that the place of the flusher determines. Without the
condition a chunk that goes across the end of the ring is replaced in part by what the ring has at
its start (`chunk_across_end`). -/

namespace HardLog.Device.Stream

open HardLog.Lib.CInt HardLog.Lib.Memory HardLog.Lib.Files HardLog.Lib.Ring HardLog.Lib.Runs
open HardLog.Device.Cbuff

/-- The number of bytes that the next step of the flusher is to write. -/
def writeSize (s : Store) : ℕ :=
  match s.flusher with
  | .normal _ fin start => fin - start
  | .wrapFirst _ _ start => hardlogDataCbuffsize - start
  | .wrapSecond _ fin => fin
  | _ => 0

/-- `vfs_write` writes everything. -/
def WritesAll (s : Store) : Action → Prop
  | .flusher len => writeSize s ≤ len
  | _ => True

/-- A copied chunk has room and ends before the end of the ring. -/
def Fits (s : Store) : Action → Prop
  | .writer => ∀ chunk i, s.writer = .copy chunk i →
      s.cb.headIndex + chunk.length ≤ hardlogDataCbuffsize ∧
        s.cb.fill + chunk.length ≤ hardlogDataCbuffsize
  | _ => True

/-! ### The invariant -/

/-- The head that the flusher has read. -/
def realEnd : FlusherPc → Option UInt64
  | .readTail r | .normal r _ _ | .wrapFirst r _ _ | .wrapSecond r _ | .setTail r => some r
  | .top => none

/-- How much of the stream is in the file, if the tail is at `flushed` and the head was read at
`e`. -/
def inFile (flushed e : ℕ) : FlusherPc → ℕ
  | .wrapSecond _ fin => e - fin
  | .setTail _ => e
  | _ => flushed

/-- The ranges of the flusher are those of the positions from `flushed` to `e`. -/
def Ranges (flushed e : ℕ) : FlusherPc → Prop
  | .normal _ fin start =>
    start = flushed % hardlogDataCbuffsize ∧ fin = start + (e - flushed) ∧
      fin ≤ hardlogDataCbuffsize
  | .wrapFirst _ fin start =>
    start = flushed % hardlogDataCbuffsize ∧ hardlogDataCbuffsize + fin = start + (e - flushed)
  | .wrapSecond _ fin =>
    flushed + fin ≤ e ∧ (e - fin) % hardlogDataCbuffsize = 0 ∧ fin < hardlogDataCbuffsize
  | _ => True

/-- Where a chunk is copied, there is room for it. -/
def Pending (s : Store) (flushed : ℕ) : WriterPc → Prop
  | .copy _ i => i = s.stream.length % hardlogDataCbuffsize
  | .bump chunk =>
    Holds hardlogDataCbuffsize s.cb.buffer (s.stream ++ chunk) flushed ∧
      s.stream.length - flushed + chunk.length ≤ hardlogDataCbuffsize
  | _ => True

/-- The invariant: `flushed` bytes of the stream are behind the tail, and the flusher has read the
head after `e`. -/
structure Inv (flushed e : ℕ) (s : Store) : Prop where
  head : s.cb.head = UInt64.ofNat s.stream.length
  tail : s.cb.tail = UInt64.ofNat flushed
  flushed_le : flushed ≤ s.stream.length
  fill_le : s.stream.length - flushed ≤ hardlogDataCbuffsize
  holds : Holds hardlogDataCbuffsize s.cb.buffer s.stream flushed
  pending : Pending s flushed s.writer
  snap : ∀ r, realEnd s.flusher = some r → r = UInt64.ofNat e ∧ flushed ≤ e ∧ e ≤ s.stream.length
  ranges : Ranges flushed e s.flusher
  contents : s.file.contents = s.stream.take (inFile flushed e s.flusher)

theorem storeInit_inv (garbage log : ℕ → UInt8) : Inv 0 0 (storeInit garbage log) where
  head := rfl
  tail := rfl
  flushed_le := Nat.le_refl 0
  fill_le := Nat.zero_le _
  holds := Holds.of_length_le (Nat.le_refl 0)
  pending := trivial
  snap := fun r h => by cases h
  ranges := trivial
  contents := rfl

theorem cbuffsize_dvd : hardlogDataCbuffsize ∣ 2 ^ 64 := ⟨2 ^ 35, by decide⟩

section Steps

variable {flushed e : ℕ} {s s' : Store} (h : Inv flushed e s)

include h

theorem Inv.fill : s.cb.fill = s.stream.length - flushed := by
  have h1 := h.flushed_le
  have h2 := h.fill_le
  unfold CircBuffer.fill hardlogDataCbuffsize at *
  rw [h.head, h.tail, toNat_ofNat_sub h1 (by omega)]

theorem Inv.headIndex : s.cb.headIndex = s.stream.length % hardlogDataCbuffsize := by
  unfold CircBuffer.headIndex
  rw [h.head, toNat_ofNat_mod cbuffsize_dvd]

theorem Inv.inFile_le : inFile flushed e s.flusher ≤ s.stream.length := by
  have h1 := h.flushed_le
  have h2 := h.snap
  cases hf : s.flusher with
  | wrapSecond r fin =>
    have := (h2 r (by rw [hf]; rfl)).2.2
    simp only [inFile]
    omega
  | setTail r => exact (h2 r (by rw [hf]; rfl)).2.2
  | _ => exact h1

theorem Inv.writer_step (hfit : Fits s .writer) (hs : writerStep s = some s') :
    Inv flushed e s' := by
  rcases writerStep_cases hs with ⟨chunk, -, rfl⟩ | ⟨chunk, -, -, rfl⟩ | ⟨chunk, i, hpc, rfl⟩ |
    ⟨chunk, hpc, rfl⟩
  · exact h
  · exact ⟨h.head, h.tail, h.flushed_le, h.fill_le, h.holds, h.headIndex, h.snap, h.ranges,
      h.contents⟩
  · have hi : i = s.stream.length % hardlogDataCbuffsize := by
      have := h.pending
      rwa [hpc] at this
    obtain ⟨h1, h2⟩ := hfit chunk i hpc
    rw [h.headIndex] at h1
    rw [h.fill] at h2
    subst hi
    have hnew := h.holds.append h.flushed_le h2 h1
    exact ⟨h.head, h.tail, h.flushed_le, h.fill_le, hnew.of_append, ⟨hnew, h2⟩, h.snap, h.ranges,
      h.contents⟩
  · have hp := h.pending
    rw [hpc] at hp
    obtain ⟨hnew, hroom⟩ := hp
    have hle := h.flushed_le
    refine ⟨?_, h.tail, ?_, ?_, hnew, trivial, fun r hr => ?_, h.ranges, ?_⟩
    · rw [List.length_append, UInt64.ofNat_add, h.head]
    · rw [List.length_append]; omega
    · rw [List.length_append]; omega
    · obtain ⟨h1, h2, h3⟩ := h.snap r hr
      refine ⟨h1, h2, ?_⟩
      rw [List.length_append]; omega
    · rw [List.take_append_of_le_length h.inFile_le]
      exact h.contents

theorem Inv.fsWrite_contents {len : ℤ} {fin start a : ℕ} (ha : s.file.contents = s.stream.take a)
    (hfa : flushed ≤ a) (hle : a + (fin - start) ≤ s.stream.length)
    (hstart : start = a % hardlogDataCbuffsize) (hfin : fin ≤ hardlogDataCbuffsize)
    (hlen : ((fin - start : ℕ) : ℤ) ≤ len) :
    (fsWrite len s fin start).file.contents = s.stream.take (a + (fin - start)) := by
  have hS := Nat.mod_lt a hardlogDataCbuffsize_pos
  have hw : fsWritten len fin start = fin - start := by
    unfold fsWritten
    omega
  rw [fsWrite_file, contents_write, ha, hw, List.take_add, hstart,
    h.holds.slice_eq hfa (by omega) (by omega)]

theorem Inv.move {e' : ℕ} (hcb : s'.cb = s.cb) (hwriter : s'.writer = s.writer)
    (hstream : s'.stream = s.stream)
    (hsnap : ∀ r, realEnd s'.flusher = some r →
      r = UInt64.ofNat e' ∧ flushed ≤ e' ∧ e' ≤ s.stream.length)
    (hranges : Ranges flushed e' s'.flusher)
    (hc : s'.file.contents = s.stream.take (inFile flushed e' s'.flusher)) : Inv flushed e' s' where
  head := by rw [hcb, hstream]; exact h.head
  tail := by rw [hcb]; exact h.tail
  flushed_le := by rw [hstream]; exact h.flushed_le
  fill_le := by rw [hstream]; exact h.fill_le
  holds := by rw [hcb, hstream]; exact h.holds
  pending := by
    have hp := h.pending
    rw [hwriter]
    cases hw : s.writer <;> rw [hw] at hp <;> simp only [Pending, hcb, hstream] at hp ⊢ <;> exact hp
  snap := by rw [hstream]; exact hsnap
  ranges := hranges
  contents := by rw [hstream]; exact hc

theorem Inv.move_fsWrite {len : ℤ} {fin start a : ℕ} {pc : FlusherPc} {r : UInt64}
    (hsnap : realEnd s.flusher = some r) (hr : realEnd pc = some r)
    (ha : inFile flushed e s.flusher = a) (hpc : inFile flushed e pc = a + (fin - start))
    (hfa : flushed ≤ a) (hle : a + (fin - start) ≤ e) (hstart : start = a % hardlogDataCbuffsize)
    (hfin : fin ≤ hardlogDataCbuffsize) (hlen : ((fin - start : ℕ) : ℤ) ≤ len)
    (hranges : Ranges flushed e pc) :
    Inv flushed e { fsWrite len s fin start with flusher := pc } := by
  obtain ⟨hcb, hwr, hst, -⟩ := fsWrite_frame len s fin start
  obtain ⟨hreq, h1, h2⟩ := h.snap r hsnap
  have hc := h.contents
  rw [ha] at hc
  have hnew := h.fsWrite_contents hc hfa (by omega) hstart hfin hlen
  refine h.move hcb hwr hst (fun r' hr' => ?_) hranges (by rw [hpc]; exact hnew)
  rw [hr] at hr'
  obtain rfl := Option.some.inj hr'
  exact ⟨hreq, h1, h2⟩

/-- **A step of the flusher** keeps the invariant, with the tail where it was or at what has been
written. -/
theorem Inv.flusher_step {len : ℤ} (hall : WritesAll s (.flusher len)) :
    ∃ flushed' e', Inv flushed' e' (flusherStep s len) := by
  have hle := h.flushed_le
  have hfill := h.fill_le
  have hc := h.contents
  have hr := h.ranges
  have hS : 0 < hardlogDataCbuffsize := hardlogDataCbuffsize_pos
  unfold flusherStep
  simp only [WritesAll, writeSize] at hall
  cases hf : s.flusher with
  | top =>
    rw [hf] at hc
    refine ⟨flushed, s.stream.length, h.move rfl rfl rfl (fun r hr => ?_) trivial hc⟩
    obtain rfl := Option.some.inj hr
    exact ⟨h.head, hle, Nat.le_refl _⟩
  | readTail r =>
    rw [hf] at hc
    have hsnap := h.snap r (by rw [hf]; rfl)
    obtain ⟨rfl, h1, h2⟩ := hsnap
    have hcases := mod_cases hS h1 (by omega)
    have hend := Nat.mod_lt e hS
    have hstart := Nat.mod_lt flushed hS
    simp only [h.tail, toNat_ofNat_mod cbuffsize_dvd]
    by_cases hlt : e % hardlogDataCbuffsize < flushed % hardlogDataCbuffsize
    · rw [if_pos hlt]
      exact ⟨flushed, e, h.move rfl rfl rfl
        (fun r hr => by obtain rfl := Option.some.inj hr; exact ⟨rfl, h1, h2⟩)
        ⟨rfl, by omega⟩ hc⟩
    · rw [if_neg hlt]
      by_cases heq : e % hardlogDataCbuffsize = flushed % hardlogDataCbuffsize
      · -- nothing to write, or all of a full ring, which is not told from it
        rw [if_pos heq]
        exact ⟨flushed, e, h.move rfl rfl rfl (fun r hr => by cases hr) trivial hc⟩
      · rw [if_neg heq]
        exact ⟨flushed, e, h.move rfl rfl rfl
          (fun r hr => by obtain rfl := Option.some.inj hr; exact ⟨rfl, h1, h2⟩)
          ⟨rfl, by omega, by omega⟩ hc⟩
  | normal r fin start =>
    rw [hf] at hr hall
    have hsnap : realEnd s.flusher = some r := by rw [hf]; rfl
    obtain ⟨-, h1, h2⟩ := h.snap r hsnap
    obtain ⟨hstart, hfin, hle'⟩ := hr
    exact ⟨flushed, e, h.move_fsWrite hsnap rfl (by rw [hf]; rfl)
      (show e = flushed + (fin - start) by omega) (Nat.le_refl _) (by omega) hstart hle' hall
      trivial⟩
  | wrapFirst r fin start =>
    rw [hf] at hr hall
    have hsnap : realEnd s.flusher = some r := by rw [hf]; rfl
    obtain ⟨-, h1, h2⟩ := h.snap r hsnap
    obtain ⟨hstart, hfin⟩ := hr
    have hlt := Nat.mod_lt flushed hS
    have hback : (flushed + (hardlogDataCbuffsize - start)) % hardlogDataCbuffsize = 0 := by
      rw [add_mod_of_le (by omega) hS (by omega)]
      omega
    exact ⟨flushed, e, h.move_fsWrite hsnap rfl (by rw [hf]; rfl)
      (show e - fin = flushed + (hardlogDataCbuffsize - start) by omega) (Nat.le_refl _) (by omega)
      hstart (Nat.le_refl _) hall
      ⟨by omega, by rwa [show e - fin = flushed + (hardlogDataCbuffsize - start) by omega],
        by omega⟩⟩
  | wrapSecond r fin =>
    rw [hf] at hr hall
    have hsnap : realEnd s.flusher = some r := by rw [hf]; rfl
    obtain ⟨h1, h2, h3⟩ := hr
    exact ⟨flushed, e, h.move_fsWrite hsnap rfl (a := e - fin) (by rw [hf]; rfl)
      (show e = e - fin + (fin - 0) by omega) (by omega) (by omega) h2.symm (by omega) hall trivial⟩
  | setTail r =>
    rw [hf] at hc
    obtain ⟨rfl, h1, h2⟩ := h.snap r (by rw [hf]; rfl)
    refine ⟨e, e, h.head, rfl, h2, by simp only; omega, h.holds.mono h1, ?_,
      fun r hr => (by cases hr), trivial, hc⟩
    have hp := h.pending
    cases hw : s.writer with
    | bump chunk =>
      rw [hw] at hp
      exact ⟨hp.1.mono h1, by have := hp.2; simp only; omega⟩
    | copy chunk i =>
      rw [hw] at hp
      exact hp
    | _ => trivial

end Steps

/-- **One step** whose `vfs_write` writes everything and whose copy fits keeps the invariant. -/
theorem Inv.step {flushed e : ℕ} {s s' : Store} {a : Action} (h : Inv flushed e s)
    (hall : WritesAll s a) (hfit : Fits s a) (hs : storeStep s a = some s') :
    ∃ flushed' e', Inv flushed' e' s' := by
  cases a with
  | chunk data =>
    obtain ⟨-, rfl⟩ := chunk_cases hs
    exact ⟨flushed, e, h.head, h.tail, h.flushed_le, h.fill_le, h.holds, trivial, h.snap, h.ranges,
      h.contents⟩
  | writer => exact ⟨flushed, e, h.writer_step hfit hs⟩
  | flusher len =>
    obtain rfl := Option.some.inj hs
    exact h.flusher_step hall

theorem Inv.contents_eq {flushed e : ℕ} {s : Store} (h : Inv flushed e s)
    (hd : s.cb.tail = s.cb.head) : s.file.contents = s.stream := by
  have hfill := h.fill_le
  have heq : s.stream.length = flushed := by
    refine eq_of_ofNat_eq h.flushed_le ?_ ?_
    · unfold hardlogDataCbuffsize at hfill
      omega
    · rw [← h.head, ← h.tail, hd]
  have hfile : s.stream.length ≤ inFile flushed e s.flusher := by
    have hr := h.ranges
    cases hf : s.flusher with
    | wrapSecond r fin =>
      rw [hf] at hr
      have := hr.1
      simp only [inFile]
      omega
    | setTail r =>
      have := (h.snap r (by rw [hf]; rfl)).2.1
      simp only [inFile]
      omega
    | _ =>
      simp only [inFile]
      omega
  rw [h.contents, List.take_of_length_le hfile]

theorem inv_of_reach {garbage log : ℕ → UInt8} {s : Store}
    (h : Reach storeStep (fun s a => WritesAll s a ∧ Fits s a) (storeInit garbage log) s) :
    ∃ flushed e, Inv flushed e s :=
  h.inv (I := fun s => ∃ flushed e, Inv flushed e s)
    (fun _ _ _ ⟨_, _, hi⟩ hC hs => hi.step hC.1 hC.2 hs) ⟨0, 0, storeInit_inv garbage log⟩

/-- **The stream**: in every run in which every `vfs_write` writes everything and every copied chunk
fits, whenever the ring has drained, the bytes appended to the log file are the concatenation of the
accepted chunks. -/
theorem contents_of_drained (garbage log : ℕ → UInt8) {s : Store}
    (h : Reach storeStep (fun s a => WritesAll s a ∧ Fits s a) (storeInit garbage log) s)
    (hd : s.cb.tail = s.cb.head) : s.file.contents = s.stream := by
  obtain ⟨flushed, e, hinv⟩ := inv_of_reach h
  exact hinv.contents_eq hd

/-! ### A chunk across the end -/

/-- A chunk is a multiple of the block size and at most `FSG_BUFLEN`. -/
def Accepted (_ : Store) : Action → Prop
  | .chunk data => 512 ∣ data.length ∧ data.length ≤ 16384
  | _ => True

/-- A drained store at rest. -/
structure Rest (s : Store) : Prop where
  writer : s.writer = .idle
  flusher : s.flusher = .top
  tail : s.cb.tail = s.cb.head

/-- The store after a chunk has been copied. -/
def copied (s : Store) (data : List UInt8) : Store :=
  { s with
    cb := ⟨memcpy s.cb.buffer s.cb.headIndex data, s.cb.head + UInt64.ofNat data.length, s.cb.tail⟩
    stream := s.stream ++ data }

theorem Rest.fill {s : Store} (h : Rest s) : s.cb.fill = 0 := by
  unfold CircBuffer.fill
  rw [h.tail, UInt64.sub_self]
  rfl

theorem runFrom_chunk {s : Store} (hw : s.writer = .idle) (hf : s.cb.fill < hardlogDataCbuffsize)
    (data : List UInt8) :
    runFrom storeStep s (.chunk data :: List.replicate 3 .writer) = some (copied s data) := by
  have hroom : ¬ hardlogDataCbuffsize ≤ s.cb.fill := Nat.not_le.mpr hf
  simp [List.replicate, runFrom, storeStep, writerStep, copied, hw, hroom]

theorem Rest.runFrom_chunk {s : Store} (h : Rest s) (data : List UInt8) :
    runFrom storeStep s (.chunk data :: List.replicate 3 .writer) = some (copied s data) :=
  Stream.runFrom_chunk h.writer (by rw [h.fill]; decide) data

/-- What is asked of the steps of a run without a chunk across the end. -/
def Harmless (s : Store) (a : Action) : Prop := WritesAll s a ∧ Fits s a ∧ Accepted s a

theorem reach_flush {s : Store} (htop : s.flusher = .top) {fin start : ℕ}
    (hfin : s.cb.head.toNat % hardlogDataCbuffsize = fin)
    (hstart : s.cb.tail.toNat % hardlogDataCbuffsize = start) (hlt : start < fin) :
    ∃ s', Reach storeStep Harmless s s' ∧ s'.flusher = .top ∧ s'.writer = s.writer ∧
      s'.cb = { s.cb with tail := s.cb.head } ∧ s'.stream = s.stream := by
  have h1 : ¬ fin < start := by omega
  have h2 : ¬ fin = start := by omega
  obtain ⟨s', hrun, hs'⟩ : ∃ s', runFrom storeStep s
      (List.replicate 4 (.flusher (fin - start : ℕ))) = some s' ∧ s'.flusher = .top ∧
        s'.writer = s.writer ∧ s'.cb = { s.cb with tail := s.cb.head } ∧ s'.stream = s.stream := by
    simp [List.replicate, runFrom, storeStep, flusherStep, htop, hfin, hstart, h1, h2,
      fsWrite_frame]
  refine ⟨s', Reach.of_runFrom hrun ?_, hs'⟩
  simp [List.replicate, EachStep, Harmless, WritesAll, writeSize, Fits, Accepted, storeStep,
    flusherStep, htop, hfin, hstart, h1, h2]

theorem Rest.reach_round {s : Store} (h : Rest s) (data : List UInt8) (hpos : 0 < data.length)
    (hacc : 512 ∣ data.length ∧ data.length ≤ 16384)
    (hfit : s.cb.headIndex + data.length < hardlogDataCbuffsize) :
    ∃ s', Reach storeStep Harmless s s' ∧ Rest s' ∧
      s'.cb.head = s.cb.head + UInt64.ofNat data.length ∧ s'.stream = s.stream ++ data ∧
      s'.cb.buffer = memcpy s.cb.buffer s.cb.headIndex data := by
  have hfull : ¬ hardlogDataCbuffsize ≤ 0 := by decide
  have hle : s.cb.headIndex + data.length ≤ hardlogDataCbuffsize := by omega
  have hle' : data.length ≤ hardlogDataCbuffsize := by omega
  have h1 : Reach storeStep Harmless s (copied s data) := by
    refine Reach.of_runFrom (h.runFrom_chunk data) ?_
    simp [List.replicate, EachStep, Harmless, WritesAll, Fits, Accepted, storeStep, writerStep,
      h.writer, h.fill, hfull, hacc, hle']
    exact hle
  have hstart : (copied s data).cb.tail.toNat % hardlogDataCbuffsize = s.cb.headIndex := by
    rw [copied, h.tail]
    rfl
  have hfin : (copied s data).cb.head.toNat % hardlogDataCbuffsize =
      s.cb.headIndex + data.length := by
    simp only [copied, UInt64.toNat_add, UInt64.toNat_ofNat']
    rw [Nat.mod_mod_of_dvd _ cbuffsize_dvd, Nat.add_mod, Nat.mod_mod_of_dvd _ cbuffsize_dvd,
      ← Nat.add_mod]
    exact add_mod_of_lt hfit
  obtain ⟨s', h2, htop, hwr, hcb, hst⟩ :=
    reach_flush (s := copied s data) h.flusher hfin hstart (by omega)
  refine ⟨s', h1.trans h2, ⟨?_, htop, ?_⟩, ?_, ?_, ?_⟩
  · rw [hwr]; exact h.writer
  · rw [hcb]
  · rw [hcb]; rfl
  · rw [hst]; rfl
  · rw [hcb]; rfl

/-- One chunk of 16384 bytes, copied and flushed. -/
theorem contents_after_chunk :
    ∃ s, Reach storeStep (fun s a => WritesAll s a ∧ Fits s a)
      (storeInit (fun _ => 0) fun _ => 0) s ∧ s.stream = List.replicate 16384 65 ∧
        s.file.contents = s.stream := by
  have hrest : Rest (storeInit (fun _ => 0) fun _ => 0) := ⟨rfl, rfl, rfl⟩
  have hlen : (List.replicate 16384 (65 : UInt8)).length = 16384 := List.length_replicate
  obtain ⟨s, hs, hrest', -, hst, -⟩ := hrest.reach_round (List.replicate 16384 65)
    (by omega) ⟨⟨32, by omega⟩, by omega⟩ (by rw [hlen]; decide)
  have hs' : Reach storeStep (fun s a => WritesAll s a ∧ Fits s a)
      (storeInit (fun _ => 0) fun _ => 0) s := hs.mono fun _ _ h => ⟨h.1, h.2.1⟩
  exact ⟨s, hs', hst, contents_of_drained (fun _ => 0) (fun _ => 0) hs' hrest'.tail⟩

/-- Rounds of one chunk of 16384 bytes up to the last one before the end of the ring. -/
theorem reach_rounds {data : List UInt8} (hlen : data.length = 16384) (k : ℕ)
    (hk : 16384 * k < hardlogDataCbuffsize) :
    ∃ s, Reach storeStep Harmless (storeInit (fun _ => 0) fun _ => 0) s ∧ Rest s ∧
      s.cb.head = UInt64.ofNat (16384 * k) ∧ (0 < k → s.cb.buffer 0 = data[0]) := by
  induction k with
  | zero => exact ⟨_, Reach.refl _, ⟨rfl, rfl, rfl⟩, rfl, fun h => absurd h (by omega)⟩
  | succ k ih =>
    obtain ⟨s, hs, hrest, hhead, hx⟩ := ih (by omega)
    have hidx : s.cb.headIndex = 16384 * k := by
      unfold CircBuffer.headIndex
      rw [hhead, toNat_ofNat_mod cbuffsize_dvd, Nat.mod_eq_of_lt (by omega)]
    obtain ⟨s', hs', hrest', hhead', -, hbuf⟩ :=
      hrest.reach_round data (by omega) ⟨⟨32, by omega⟩, by omega⟩ (by omega)
    refine ⟨s', hs.trans hs', hrest', ?_, fun _ => ?_⟩
    · rw [hhead', hhead, hlen, ← UInt64.ofNat_add]
      congr 1
    · rw [hbuf, hidx]
      rcases Nat.eq_zero_or_pos k with rfl | hk0
      · exact memcpy_inside _ 0 _ (k := 0) (by omega)
      · rw [memcpy_outside _ _ _ (by omega)]
        exact hx hk0

theorem reach_flush_wrap {s : Store} (htop : s.flusher = .top) (fin start : ℕ)
    (hfin : s.cb.head.toNat % hardlogDataCbuffsize = fin)
    (hstart : s.cb.tail.toNat % hardlogDataCbuffsize = start) (hlt : fin < start) :
    ∃ s', Reach storeStep (fun s a => WritesAll s a ∧ Accepted s a) s s' ∧
      s'.cb.tail = s'.cb.head ∧ s'.stream = s.stream ∧
      s'.file.contents = s.file.contents ++
        slice s.cb.buffer start (hardlogDataCbuffsize - start) ++ slice s.cb.buffer 0 fin := by
  obtain ⟨s', hrun, hs'⟩ : ∃ s', runFrom storeStep s
      [.flusher 0, .flusher 0, .flusher (hardlogDataCbuffsize - start : ℕ), .flusher fin,
        .flusher 0] = some s' ∧ s'.cb.tail = s'.cb.head ∧ s'.stream = s.stream ∧
          s'.file.contents = s.file.contents ++
            slice s.cb.buffer start (hardlogDataCbuffsize - start) ++ slice s.cb.buffer 0 fin := by
    simp [runFrom, storeStep, flusherStep, htop, hfin, hstart, hlt, fsWrite_frame, fsWrite_file,
      contents_write, fsWritten]
  refine ⟨s', Reach.of_runFrom hrun ?_, hs'⟩
  simp [EachStep, WritesAll, writeSize, Accepted, storeStep, flusherStep, htop, hfin, hstart, hlt]

/-- With 512 bytes left before the end of the ring, a chunk of 1024 bytes gets into the file wrong if
its byte 512 is not what the first chunk left at the start of the ring. -/
theorem not_stream_across_end (r r' w : List UInt8) (hr : r.length = 16384)
    (hr' : r'.length = 15872) (hw : w.length = 1024) (hne : r[0] ≠ w[512]) :
    ∃ s, Reach storeStep (fun s a => WritesAll s a ∧ Accepted s a)
      (storeInit (fun _ => 0) fun _ => 0) s ∧ s.cb.tail = s.cb.head ∧ s.file.contents ≠ s.stream := by
  have hS : hardlogDataCbuffsize = 536870912 := rfl
  obtain ⟨s1, h1, hrest1, hhead1, hx1⟩ := reach_rounds hr 32767 (by decide)
  have hidx1 : s1.cb.headIndex = 536854528 := by
    unfold CircBuffer.headIndex
    rw [hhead1, toNat_ofNat_mod cbuffsize_dvd]
    rfl
  obtain ⟨s2, h2, hrest2, hhead2, -, hbuf2⟩ :=
    hrest1.reach_round r' (by omega) ⟨⟨31, by omega⟩, by omega⟩ (by omega)
  have hhead2' : s2.cb.head = UInt64.ofNat 536870400 := by
    rw [hhead2, hhead1, hr', ← UInt64.ofNat_add]
  have hidx2 : s2.cb.headIndex = 536870400 := by
    unfold CircBuffer.headIndex
    rw [hhead2', toNat_ofNat_mod cbuffsize_dvd]
    rfl
  -- up to here everything is in order
  obtain ⟨_, _, hinv⟩ := inv_of_reach ((h1.trans h2).mono fun _ _ h => ⟨h.1, h.2.1⟩)
  have hfile2 := hinv.contents_eq hrest2.tail
  have h3 : Reach storeStep (fun s a => WritesAll s a ∧ Accepted s a) s2 (copied s2 w) := by
    refine Reach.of_runFrom (hrest2.runFrom_chunk w) ?_
    simp [List.replicate, EachStep, WritesAll, Accepted, storeStep, writerStep, hrest2.writer,
      hw]
  have hhead3 : (copied s2 w).cb.head = UInt64.ofNat 536871424 := by
    simp only [copied]
    rw [hhead2', hw, ← UInt64.ofNat_add]
  have htail3 : (copied s2 w).cb.tail = UInt64.ofNat 536870400 := by
    simp only [copied]
    rw [hrest2.tail, hhead2']
  obtain ⟨s4, h4, hd4, hst4, hfile4⟩ := reach_flush_wrap (s := copied s2 w)
    hrest2.flusher 512 536870400
    (by rw [hhead3, toNat_ofNat_mod cbuffsize_dvd]; rfl)
    (by rw [htail3, toNat_ofNat_mod cbuffsize_dvd]; rfl) (by decide)
  refine ⟨s4, (((h1.trans h2).mono fun _ _ h => ⟨h.1, h.2.2⟩).trans h3).trans h4, hd4, fun heq => ?_⟩
  have hold : (copied s2 w).cb.buffer 0 = r[0] := by
    simp only [copied, hidx2]
    rw [memcpy_outside _ _ _ (by omega), hbuf2, hidx1, memcpy_outside _ _ _ (by omega)]
    exact hx1 (by omega)
  have hfile : (copied s2 w).file.contents = s2.stream := hfile2
  have hstream : (copied s2 w).stream = s2.stream ++ w := rfl
  rw [hfile4, hst4, hfile, hstream, List.append_assoc, List.append_cancel_left_eq] at heq
  have h512 := congrArg (fun l => l[512]?) heq
  have hlt : ¬ 512 < hardlogDataCbuffsize - 536870400 := by decide
  simp only [List.getElem?_append, length_slice, if_neg hlt] at h512
  rw [List.getElem?_eq_getElem (by rw [length_slice]; decide), getElem_slice,
    List.getElem?_eq_getElem (by omega), Option.some.injEq] at h512
  exact hne (hold.symm.trans h512)

/-- 32767 chunks of 16384 bytes and one of 15872 leave 512 bytes before the end of the ring, each of
them being flushed. Of the next chunk the file gets 512 bytes, and then the first chunk's in their
place. -/
theorem chunk_across_end :
    ¬ ∀ s, Reach storeStep (fun s a => WritesAll s a ∧ Accepted s a)
      (storeInit (fun _ => 0) fun _ => 0) s → s.cb.tail = s.cb.head →
        s.file.contents = s.stream := by
  intro h
  obtain ⟨s, hs, hd, hne⟩ := not_stream_across_end (List.replicate 16384 65)
    (List.replicate 15872 65) (List.replicate 1024 66) List.length_replicate List.length_replicate
    List.length_replicate
    (by rw [List.getElem_replicate, List.getElem_replicate]; decide)
  exact hne (h s hs hd)

end HardLog.Device.Stream
