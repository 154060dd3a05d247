import HardLog.Device.Drain

/-! # A write to the log file that fails

`hardlog_flushd_thread` does not look at what `fs_write` returns: behind one or two writes the tail
goes to the head, and the second half of a range that wraps is written whatever became of the first.
`iterate_losesNothing_iff` says of any ring and any results of `vfs_write` when the tail only passes
bytes that have reached the file, and the file stays a prefix of the stream. -/

namespace HardLog.Device.ShortWrite

open HardLog.Lib.CInt HardLog.Lib.Memory HardLog.Lib.Files HardLog.Lib.Ring
open HardLog.Device.Cbuff HardLog.Device.Stream HardLog.Device.Drain

/-- The tail has advanced by the number of leading bytes of the backlog that have reached the file, and
no others have. -/
def Advances (o : Outcome) (s : Store) : Prop :=
  ∃ k ≤ s.cb.fill, (iterate o s).file = s.file.write ((backlog s.cb).take k) ∧
    (iterate o s).cb.tail = s.cb.tail + UInt64.ofNat k

/-- If the file and the backlog behind it begin a stream, they still do. -/
def KeepsStream (o : Outcome) (s : Store) : Prop :=
  ∀ stream, s.file.contents ++ backlog s.cb <+: stream →
    (iterate o s).file.contents ++ backlog (iterate o s).cb <+: stream

/-- **An iteration loses nothing.** -/
def LosesNothing (o : Outcome) (s : Store) : Prop := Advances o s ∧ KeepsStream o s

/-! ### Numbers of bytes -/

section Sent

variable {o : Outcome} {cb : CircBuffer}

theorem length_sent_lt (o : Outcome) (cb : CircBuffer) :
    (sent o cb).length < hardlogDataCbuffsize := by
  obtain ⟨h1, h2⟩ := index_lt cb
  unfold sent
  split_ifs with hlt
  · rw [List.length_append, length_slice, length_slice]
    unfold fsWritten
    omega
  · rw [length_slice]
    unfold fsWritten
    omega

theorem full_of_length_sent (h : cb.fill ≤ hardlogDataCbuffsize)
    (hlen : (sent o cb).length = cb.fill) : Full o cb := by
  obtain ⟨h1, h2⟩ := index_lt cb
  have hcases := index_cases h
  unfold sent at hlen
  unfold Full
  split_ifs at hlen ⊢ with hlt
  · rw [List.length_append, length_slice, length_slice] at hlen
    unfold fsWritten at hlen
    omega
  · rw [length_slice] at hlen
    unfold fsWritten at hlen
    omega

theorem length_backlog (cb : CircBuffer) : (backlog cb).length = cb.fill := length_read ..

theorem backlog_drop {cb' : CircBuffer} {k : ℕ} (hk : k ≤ cb.fill)
    (hcb : cb' = { cb with tail := cb.tail + UInt64.ofNat k }) :
    backlog cb' = (backlog cb).drop k := by
  subst hcb
  have hlt : cb.fill < 2 ^ 64 := UInt64.toNat_lt _
  have hofNat : (UInt64.ofNat k).toNat = k := by
    rw [UInt64.toNat_ofNat']
    exact Nat.mod_eq_of_lt (by omega)
  have hfill : CircBuffer.fill { cb with tail := cb.tail + UInt64.ofNat k } = cb.fill - k := by
    have hhead := UInt64.toNat_lt cb.head
    have htail := UInt64.toNat_lt cb.tail
    change (cb.head - (cb.tail + UInt64.ofNat k)).toNat = (cb.head - cb.tail).toNat - k
    rw [CircBuffer.fill, UInt64.toNat_sub] at hk
    rw [UInt64.toNat_sub, UInt64.toNat_sub, UInt64.toNat_add, hofNat]
    omega
  have hindex : (cb.tail + UInt64.ofNat k).toNat % hardlogDataCbuffsize =
      (cb.tail.toNat + k) % hardlogDataCbuffsize := by
    rw [UInt64.toNat_add, hofNat, Nat.mod_mod_of_dvd _ cbuffsize_dvd]
  unfold backlog
  rw [hfill]
  obtain ⟨n, hn⟩ := Nat.exists_eq_add_of_le hk
  rw [hn, read_add, Nat.add_sub_cancel_left, List.drop_left' (length_read ..)]
  exact read_congr hindex

end Sent

/-! ### When nothing is lost -/

theorem Advances.keepsStream {o : Outcome} {s : Store} (h : Advances o s) : KeepsStream o s := by
  obtain ⟨k, hk, hfile, htail⟩ := h
  intro stream hs
  have hcb : (iterate o s).cb = { s.cb with tail := s.cb.tail + UInt64.ofNat k } := by
    rw [iterate_cb] at htail ⊢
    rw [← htail]
  rwa [hfile, contents_write, backlog_drop hk hcb, List.append_assoc, List.take_append_drop]

/-- **A failed write**: an iteration loses nothing exactly if each of its writes gets all of its range
into the file, and there is no more than a ring of backlog (or it looks like none). -/
theorem iterate_losesNothing_iff (o : Outcome) (s : Store) :
    LosesNothing o s ↔
      Full o s.cb ∧ (s.cb.fill ≤ hardlogDataCbuffsize ∨ hardlogDataCbuffsize ∣ s.cb.fill) := by
  have hadv : LosesNothing o s ↔ Advances o s := ⟨fun h => h.1, fun h => ⟨h, h.keepsStream⟩⟩
  rw [hadv]
  by_cases heq : s.cb.headIndex = tailIndex s.cb
  · -- nothing is written, and the tail stays
    have hsame : iterate o s = s := by
      rcases iterate_cases o s with ⟨h, -⟩ | ⟨h, -⟩ | ⟨-, h⟩
      · omega
      · omega
      · exact h
    refine iff_of_true ⟨0, Nat.zero_le _, ?_, ?_⟩ ⟨?_, Or.inr ?_⟩
    · rw [hsame, List.take_zero, write_nil]
    · rw [hsame]
      exact (UInt64.add_zero _).symm
    · rw [Full, if_neg (by omega)]
      omega
    · exact (headIndex_eq_tailIndex_iff _).mp heq
  · have hdvd : ¬ hardlogDataCbuffsize ∣ s.cb.fill :=
      fun hd => heq ((headIndex_eq_tailIndex_iff _).mpr hd)
    have hfile := iterate_file o s
    have htail : (iterate o s).cb.tail = s.cb.head := by rw [iterate_cb, if_neg heq]
    constructor
    · rintro ⟨k, hk, hfile', htail'⟩
      rw [hfile] at hfile'
      have hlen : (sent o s.cb).length = k := by
        have hpos := congrArg File.fPos hfile'
        simp only [File.write, List.length_take, length_backlog] at hpos
        omega
      have hkfill : k = s.cb.fill := by
        rw [htail] at htail'
        have hlt : s.cb.fill < 2 ^ 64 := UInt64.toNat_lt _
        have hfill : s.cb.fill = (UInt64.ofNat k).toNat := by
          rw [CircBuffer.fill, htail', UInt64.add_comm, UInt64.add_sub_cancel]
        rw [hfill, UInt64.toNat_ofNat', Nat.mod_eq_of_lt (by omega)]
      have hle : s.cb.fill ≤ hardlogDataCbuffsize := by
        have := length_sent_lt o s.cb
        omega
      exact ⟨full_of_length_sent hle (by omega), Or.inl hle⟩
    · rintro ⟨hfull, hor⟩
      have hle := hor.resolve_right hdvd
      have hne : s.cb.fill ≠ hardlogDataCbuffsize := fun h => hdvd (by rw [h])
      refine ⟨s.cb.fill, Nat.le_refl _, ?_, ?_⟩
      · rw [hfile, sent_eq_backlog (by omega) hfull, List.take_of_length_le (length_backlog _).le]
      · rw [htail, CircBuffer.fill, UInt64.ofNat_toNat, UInt64.add_comm,
          UInt64.sub_add_cancel]

/-- **Any run** in which every write gets all of its range into the file and every copied chunk fits: at
all times the file is a prefix of the stream. -/
theorem contents_prefix_of_reach {garbage log : ℕ → UInt8} {s : Store}
    (h : Lib.Runs.Reach storeStep (fun s a => WritesAll s a ∧ Fits s a) (storeInit garbage log) s) :
    s.file.contents <+: s.stream := by
  obtain ⟨flushed, e, hinv⟩ := inv_of_reach h
  rw [hinv.contents]
  exact List.take_prefix _ _

/-- When all but the last block of the ring is flushed, two blocks are to be flushed across its end. The
first half fails, the second is written: the file gets the second block, and the tail passes both. -/
theorem failed_first_half :
    ¬ LosesNothing ⟨-28, 512⟩
      ⟨⟨fun i => if i < 512 then 66 else 65, 536871424, 536870400⟩, .idle, .top,
        ⟨fun _ => 65, 536870400⟩, 536870400,
        List.replicate 536870912 65 ++ List.replicate 512 66⟩ := by
  intro h
  have hfull := ((iterate_losesNothing_iff _ _).mp h).1
  unfold Full at hfull
  exact absurd hfull (by decide)

end HardLog.Device.ShortWrite
