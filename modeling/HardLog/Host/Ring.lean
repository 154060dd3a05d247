import HardLog.Lib.CInt
import HardLog.Lib.Ring
import HardLog.Lib.Runs

/-! # The host's circular buffer

`audit_cbuff` (HostBuf) holds `HARDLOG_AUDIT_CBUFFSIZE` bytes and 4096 spare ones behind them. A
record is copied as one block to the index of the head, and the flusher takes every index modulo
the size of the ring. `always_readBack_iff` says for which records the flusher finds what was
appended: those that end before the end of the ring, and those whose part in the spare bytes is by
chance what the ring has at its start. The 64-bit counters may wrap, since `2 ^ 20` divides
`2 ^ 64`. -/

namespace HardLog.Host.Ring

open HardLog.Lib.CInt HardLog.Lib.Memory HardLog.Lib.Ring HardLog.Lib.Runs

/-- `HARDLOG_AUDIT_CBUFFSIZE`: 1 MB. -/
def hardlogAuditCbuffsize : ℕ := 1 * 1024 * 1024

theorem hardlogAuditCbuffsize_pos : 0 < hardlogAuditCbuffsize := by decide

/-- `struct audit_circ_buffer`. The allocation has `HARDLOG_AUDIT_CBUFFSIZE + 4096` bytes. -/
structure AuditCircBuffer where
  buffer : ℕ → UInt8
  head : UInt64
  tail : UInt64

/-- The index at which `audit_log_end_hardlog` copies: the head modulo the size. -/
def AuditCircBuffer.headIndex (cb : AuditCircBuffer) : ℕ := cb.head.toNat % hardlogAuditCbuffsize

/-- `memcpy(&(audit_cbuff.buffer[i]), rec, …)`. -/
def AuditCircBuffer.copyIn (cb : AuditCircBuffer) (i : ℕ) (rec : List UInt8) : AuditCircBuffer :=
  { cb with buffer := memcpy cb.buffer i rec }

/-- `audit_cbuff.head += n`. -/
def AuditCircBuffer.addHead (cb : AuditCircBuffer) (n : ℕ) : AuditCircBuffer :=
  { cb with head := cb.head + UInt64.ofNat n }

/-- `audit_cbuff.head - audit_cbuff.tail`. -/
def AuditCircBuffer.fill (cb : AuditCircBuffer) : ℕ := (cb.head - cb.tail).toNat

/-- What `audit_log_end_hardlog` does with a record under the producer lock, once there is space. -/
def AuditCircBuffer.append (cb : AuditCircBuffer) (rec : List UInt8) : AuditCircBuffer :=
  (cb.copyIn cb.headIndex rec).addHead rec.length

/-- The ring of `hardlog_logger_setup`, with the memory `vmalloc` returned. -/
def hardlogLoggerSetup (garbage : ℕ → UInt8) : AuditCircBuffer := ⟨garbage, 0, 0⟩

/-! ### Appends and tail updates -/

/-- The ring with its history: all bytes appended, and how many of them the flusher has passed. -/
structure RingState where
  cb : AuditCircBuffer
  stream : List UInt8
  flushed : ℕ

/-- An append, or the flusher setting the tail to the head it read after `n` bytes. -/
inductive RingAction where
  | append (rec : List UInt8)
  | setTail (n : ℕ)

/-- A step: an append of at most 512 bytes for which there is room, or a tail update. -/
def ringStep (s : RingState) : RingAction → Option RingState
  | .append rec =>
    if rec.length ≤ 512 ∧ s.cb.fill + rec.length ≤ hardlogAuditCbuffsize then
      some { s with cb := s.cb.append rec, stream := s.stream ++ rec }
    else none
  | .setTail n =>
    if s.flushed ≤ n ∧ n ≤ s.stream.length then
      some { s with cb := { s.cb with tail := UInt64.ofNat n }, flushed := n }
    else none

/-- The ring before the first append. -/
def ringInit (garbage : ℕ → UInt8) : RingState := ⟨hardlogLoggerSetup garbage, [], 0⟩

/-- **Reading back**: the index `p % HARDLOG_AUDIT_CBUFFSIZE` holds byte `p` of all that was
appended, for every position between the tail and the head. -/
def ReadBack (s : RingState) : Prop :=
  Holds hardlogAuditCbuffsize s.cb.buffer s.stream s.flushed

/-- The copy of a record ends before the end of the ring, or has behind it what is already at the
start of the ring. -/
def StaysInside (s : RingState) : RingAction → Prop
  | .append rec =>
    s.cb.headIndex + rec.length ≤ hardlogAuditCbuffsize ∨
      rec.drop (hardlogAuditCbuffsize - s.cb.headIndex) =
        slice s.cb.buffer 0 (s.cb.headIndex + rec.length - hardlogAuditCbuffsize)
  | .setTail _ => True

/-! ### The counters -/

@[simp] theorem copyIn_head (cb : AuditCircBuffer) (i : ℕ) (rec : List UInt8) :
    (cb.copyIn i rec).head = cb.head := rfl
@[simp] theorem addHead_tail (cb : AuditCircBuffer) (n : ℕ) : (cb.addHead n).tail = cb.tail := rfl

/-- The counters are the lengths of the history modulo `2 ^ 64`, and the ring is not overfull. -/
structure Counters (s : RingState) : Prop where
  head : s.cb.head = UInt64.ofNat s.stream.length
  tail : s.cb.tail = UInt64.ofNat s.flushed
  flushed_le : s.flushed ≤ s.stream.length
  fill_le : s.stream.length - s.flushed ≤ hardlogAuditCbuffsize

theorem headIndex_of_head {cb : AuditCircBuffer} {n : ℕ} (h : cb.head = UInt64.ofNat n) :
    cb.headIndex = n % hardlogAuditCbuffsize := by
  unfold AuditCircBuffer.headIndex
  rw [h, toNat_ofNat_mod ⟨2 ^ 44, by decide⟩]

theorem Counters.headIndex {s : RingState} (h : Counters s) :
    s.cb.headIndex = s.stream.length % hardlogAuditCbuffsize := headIndex_of_head h.head

theorem Counters.fill {s : RingState} (h : Counters s) :
    s.cb.fill = s.stream.length - s.flushed := by
  have h1 := h.flushed_le
  have h2 := h.fill_le
  unfold AuditCircBuffer.fill hardlogAuditCbuffsize at *
  rw [h.head, h.tail, toNat_ofNat_sub h1 (by omega)]

theorem ringInit_counters (garbage : ℕ → UInt8) : Counters (ringInit garbage) :=
  ⟨rfl, rfl, Nat.le_refl 0, Nat.zero_le _⟩

theorem Counters.step {s s' : RingState} {a : RingAction} (h : Counters s)
    (hs : ringStep s a = some s') : Counters s' := by
  have h1 := h.flushed_le
  have h2 := h.fill_le
  cases a with
  | append rec =>
    simp only [ringStep, Option.ite_none_right_eq_some, Option.some.injEq] at hs
    obtain ⟨⟨-, hroom⟩, rfl⟩ := hs
    rw [h.fill] at hroom
    refine ⟨?_, h.tail, by simp; omega, by simp; omega⟩
    simp [AuditCircBuffer.append, AuditCircBuffer.addHead, AuditCircBuffer.copyIn, h.head]
  | setTail n =>
    simp only [ringStep, Option.ite_none_right_eq_some, Option.some.injEq] at hs
    obtain ⟨⟨h3, h4⟩, rfl⟩ := hs
    exact ⟨h.head, rfl, h4, by simp only; omega⟩

/-! ### Reading back -/

theorem staysInside_append_iff {s : RingState} (h : Counters s) {rec : List UInt8} :
    StaysInside s (.append rec) ↔
      ∀ k, ∀ hk : k < rec.length, hardlogAuditCbuffsize ≤ s.stream.length % hardlogAuditCbuffsize + k →
        s.cb.buffer (s.stream.length % hardlogAuditCbuffsize + k - hardlogAuditCbuffsize) = rec[k] := by
  have hS : s.stream.length % hardlogAuditCbuffsize < hardlogAuditCbuffsize :=
    Nat.mod_lt _ (by decide)
  simp only [StaysInside, h.headIndex]
  generalize s.stream.length % hardlogAuditCbuffsize = o at hS ⊢
  generalize hardlogAuditCbuffsize = S at hS ⊢
  constructor
  · rintro (hfit | heq) k hk hSk
    · omega
    · have hget := (slice_eq_iff (m := s.cb.buffer) (by simp; omega)).mp heq.symm
        (o + k - S) (by simp; omega)
      rw [List.getElem_drop] at hget
      simpa [show S - o + (o + k - S) = k by omega] using hget
  · intro hw
    by_cases hfit : o + rec.length ≤ S
    · exact Or.inl hfit
    · refine Or.inr ((slice_eq_iff (by simp; omega)).mpr fun i hi => ?_).symm
      have hi' : i < o + rec.length - S := by simp at hi; omega
      have hget := hw (S - o + i) (by omega) (by omega)
      rw [List.getElem_drop]
      simpa [show o + (S - o + i) - S = i by omega] using hget

/-- **One step**: reading back works after it exactly when the record stays inside the ring. -/
theorem readBack_step_iff {s s' : RingState} {a : RingAction} (h : Counters s) (hr : ReadBack s)
    (hs : ringStep s a = some s') : ReadBack s' ↔ StaysInside s a := by
  have h1 := h.flushed_le
  cases a with
  | append rec =>
    simp only [ringStep, Option.ite_none_right_eq_some, Option.some.injEq] at hs
    obtain ⟨⟨-, hroom⟩, rfl⟩ := hs
    rw [h.fill] at hroom
    rw [staysInside_append_iff h]
    have := holds_append hr h1 hroom
    rwa [← h.headIndex] at this ⊢
  | setTail n =>
    simp only [ringStep, Option.ite_none_right_eq_some, Option.some.injEq] at hs
    obtain ⟨⟨h3, -⟩, rfl⟩ := hs
    exact iff_of_true (hr.mono h3) trivial

theorem ringInit_readBack (garbage : ℕ → UInt8) : ReadBack (ringInit garbage) :=
  Holds.of_length_le (Nat.zero_le _)

/-- **Any run of appends and tail updates**: the flusher reads back what was appended in every
state exactly if every copied record stays inside the ring. -/
theorem always_readBack_iff (garbage : ℕ → UInt8) (as : List RingAction) :
    Always ringStep ReadBack (ringInit garbage) as ↔
      EachStep ringStep StaysInside (ringInit garbage) as :=
  always_iff_eachStep (I := fun s => Counters s ∧ ReadBack s)
    (fun _ _ _ h hs hr => ⟨h.1.step hs, hr⟩) (fun _ _ _ h hs => readBack_step_iff h.1 h.2 hs) as
    ⟨ringInit_counters garbage, ringInit_readBack garbage⟩ (ringInit_readBack garbage)

/-! ### A record across the end -/

theorem ringStep_append {s : RingState} (h : Counters s) (rec : List UInt8) (hlen : rec.length ≤ 512)
    (hroom : s.stream.length - s.flushed + rec.length ≤ hardlogAuditCbuffsize) :
    ringStep s (.append rec) =
      some { s with cb := s.cb.append rec, stream := s.stream ++ rec } := by
  rw [← h.fill] at hroom
  simp [ringStep, hlen, hroom]

theorem runFrom_fill (garbage : ℕ → UInt8) {r : List UInt8} (hr : r.length = 512) (k : ℕ)
    (hk : 512 * k ≤ hardlogAuditCbuffsize) :
    ∃ s, runFrom ringStep (ringInit garbage) (List.replicate k (.append r)) = some s ∧
      Counters s ∧ s.stream.length = 512 * k ∧ s.flushed = 0 ∧
        (0 < k → s.cb.buffer 0 = r[0]) := by
  induction k with
  | zero => exact ⟨_, rfl, ringInit_counters garbage, rfl, rfl, fun h => absurd h (by omega)⟩
  | succ k ih =>
    obtain ⟨s, hrun, hc, hl, hf, hx⟩ := ih (by omega)
    have hstep := ringStep_append hc r (by omega) (by omega)
    refine ⟨_, ?_, hc.step hstep, by rw [List.length_append]; omega, hf, fun _ => ?_⟩
    · rw [List.replicate_succ', runFrom_append, hrun]
      simpa [runFrom] using hstep
    · have hidx : s.cb.headIndex = 512 * k := by
        rw [hc.headIndex, hl, Nat.mod_eq_of_lt (by omega)]
      simp only [AuditCircBuffer.append, AuditCircBuffer.copyIn, AuditCircBuffer.addHead, hidx]
      rcases Nat.eq_zero_or_pos k with rfl | hk0
      · exact memcpy_inside _ 0 _ (k := 0) (by omega)
      · rw [memcpy_outside _ _ _ (by omega)]
        exact hx hk0

/-- With 12 bytes left before the end of the ring, a record of 512 bytes is read back wrong if its
byte 12 is not what the first record left at the start of the ring. -/
theorem not_readBack_across_end {r r' w : List UInt8} (hr : r.length = 512) (hr' : r'.length = 500)
    (hw : w.length = 512) (hne : r[0] ≠ w[12]) :
    ¬ Always ringStep ReadBack (ringInit fun _ => 0)
      (List.replicate 2047 (.append r) ++ [.append r', .setTail 1048564, .append w]) := by
  intro h
  have hS : hardlogAuditCbuffsize = 1048576 := rfl
  obtain ⟨s, hrun, hc, hl, hf, hx⟩ := runFrom_fill (fun _ => 0) hr 2047 (by decide)
  have h1 := h.append hrun
  have hs1 := ringStep_append hc r' (by omega) (by omega)
  have hc1 := hc.step hs1
  have hl1 : (s.stream ++ r').length = 1048564 := by rw [List.length_append]; omega
  have hs2 : ringStep ⟨s.cb.append r', s.stream ++ r', s.flushed⟩ (.setTail 1048564) = some _ :=
    if_pos ⟨show s.flushed ≤ 1048564 by omega, hl1.ge⟩
  have hc2 := hc1.step hs2
  have hs3 := ringStep_append hc2 w (by omega) (by simp only [hl1]; omega)
  have h3 := (h1.2 _ hs1).2 _ hs2
  have hin := (staysInside_append_iff hc2).mp
    ((readBack_step_iff hc2 h3.head hs3).mp (h3.2 _ hs3).head)
  have h0 := hin 12 (by omega) (by simp only [hl1]; decide)
  have hidx : s.cb.headIndex = 1048064 := by
    rw [hc.headIndex, hl]; decide
  simp only [hl1, hS, AuditCircBuffer.append, AuditCircBuffer.copyIn, AuditCircBuffer.addHead,
    hidx] at h0
  rw [memcpy_outside _ _ _ (by omega)] at h0
  exact hne ((hx (by omega)).symm.trans h0)

/-- 2047 records of 512 bytes and one of 500 leave 12 bytes before the end of the ring. The next
record runs 500 bytes into the spare ones, and reading back finds the first record in their place. -/
theorem append_across_end_not_readBack :
    ¬ Always ringStep ReadBack (ringInit fun _ => 0)
      (List.replicate 2047 (.append (List.replicate 512 65)) ++
        [.append (List.replicate 500 65), .setTail 1048564, .append (List.replicate 512 66)]) :=
  not_readBack_across_end List.length_replicate List.length_replicate List.length_replicate
    (by rw [List.getElem_replicate, List.getElem_replicate]; decide)

end HardLog.Host.Ring
