import HardLog.Host.BackEnds
import HardLog.Host.Shutdown

/-! # The last write of the flusher

Behind its loop `hardlog_auditd_thread` writes what lies between the tail and the head. It takes
both modulo the size of the ring before it compares them, makes one call at most, and stores the
reduced head in the tail. `sends_iff` says when that call names the bytes left, `drains_iff` when
the ring is also empty behind it, which is only before the head has gone round once. -/

namespace HardLog.Host.FinalDrain

open HardLog.Lib.Ring HardLog.Lib.Runs HardLog.Host.Ring HardLog.Host.BioContent HardLog.Host.BackEnds
open HardLog.Host.Shutdown

/-- What the code behind the loop leaves: its calls of `usb_write`, and the ring. -/
structure Drained where
  calls : List Range
  cb : AuditCircBuffer

/-- The code behind the loop. -/
def finalDrain (cb : AuditCircBuffer) : Drained :=
  if cb.head ≠ cb.tail then
    let fin := ringIndex cb.head
    let start := lastStart cb.head cb.tail
    let size := fin - start
    if 0 < size then ⟨[⟨start, fin⟩], { cb with tail := fin }⟩ else ⟨[], cb⟩
  else ⟨[], cb⟩

/-- The bytes that the calls name, one call after the other. -/
def sentBytes (cb : AuditCircBuffer) : List UInt8 :=
  (finalDrain cb).calls.flatMap fun r => Flush.bytes ⟨r, cb.buffer⟩

/-- The bytes left: those at the positions from the tail up to the head. -/
def leftBytes (cb : AuditCircBuffer) : List UInt8 := Flush.bytes ⟨⟨cb.tail, cb.head⟩, cb.buffer⟩

/-- **Draining**: the calls name the bytes left, in order, and the tail is where the head is. -/
def Drains (cb : AuditCircBuffer) : Prop :=
  sentBytes cb = leftBytes cb ∧ (finalDrain cb).cb.tail = cb.head

/-! ### The code behind the loop as steps of the flusher -/

/-- What the thread does behind its loop, if nothing comes between, is `finalDrain`. -/
theorem runFrom_finalDrain {Tid : Type} [DecidableEq Tid] {s : ShutState Tid}
    (h : s.stage = .compare) :
    ∃ n s', runFrom shutStep s (List.replicate n .flusher) = some s' ∧ s'.stage = .done ∧
      s'.host.cb = (finalDrain s.host.cb).cb ∧
      ∀ r ∈ (finalDrain s.host.cb).calls,
        s'.last = some ⟨s.host.cb.head, s.host.cb.tail, r.start⟩ := by
  unfold finalDrain
  by_cases heq : s.host.cb.head = s.host.cb.tail
  · refine ⟨1, { s with stage := .done }, ?_, rfl, by simp [heq], by simp [heq]⟩
    simp [runFrom, shutStep, auditdThreadStep, h, heq]
  by_cases hpos : 0 < ringIndex s.host.cb.head - lastStart s.host.cb.head s.host.cb.tail
  · let start := lastStart s.host.cb.head s.host.cb.tail
    let host := { s.host with cb := { s.host.cb with tail := ringIndex s.host.cb.head } }
    refine ⟨5, ⟨host, .done, s.exit, some ⟨s.host.cb.head, s.host.cb.tail, start⟩, s.inside⟩, ?_, rfl,
      by simp [heq, hpos, host], by simp [heq, hpos, start]⟩
    simp [List.replicate, runFrom, shutStep, auditdThreadStep, h, heq, hpos, host, start]
  · refine ⟨3, { s with stage := .done }, ?_, rfl, by simp [heq, hpos], by simp [heq, hpos]⟩
    simp [List.replicate, runFrom, shutStep, auditdThreadStep, h, heq, hpos]

/-! ### When it drains -/

section Drain

variable {cb : AuditCircBuffer} (hlt : cb.tail < cb.head)

include hlt

theorem fill_eq : cb.fill = cb.head.toNat - cb.tail.toNat ∧ cb.tail.toNat < cb.head.toNat :=
  ⟨UInt64.toNat_sub_of_le _ _ (UInt64.le_of_lt hlt), UInt64.lt_iff_toNat_lt.mp hlt⟩

theorem finalDrain_of_lt (h : ringIndex cb.tail < ringIndex cb.head) :
    finalDrain cb =
      ⟨[⟨ringIndex cb.tail, ringIndex cb.head⟩], { cb with tail := ringIndex cb.head }⟩ := by
  have hne : cb.head ≠ cb.tail := fun heq => UInt64.lt_irrefl _ (heq ▸ hlt)
  have hle := UInt64.le_of_lt h
  have hstart : lastStart cb.head cb.tail = ringIndex cb.tail := if_neg (UInt64.not_lt.mpr hle)
  have hpos : 0 < ringIndex cb.head - ringIndex cb.tail := by
    have hsub := UInt64.toNat_sub_of_le _ _ hle
    have hzero := UInt64.toNat_zero
    rw [UInt64.lt_iff_toNat_lt] at h ⊢
    omega
  unfold finalDrain
  simp only [ne_eq, hne, not_false_eq_true, if_true, hstart, if_pos hpos]

theorem length_sentBytes_of_le (h : ringIndex cb.head ≤ ringIndex cb.tail)
    (hle : cb.fill ≤ hardlogAuditCbuffsize) : (sentBytes cb).length < cb.fill := by
  obtain ⟨hfill, hlt'⟩ := fill_eq hlt
  have ht := Nat.mod_lt cb.tail.toNat hardlogAuditCbuffsize_pos
  have hcases := mod_cases hardlogAuditCbuffsize_pos hlt'.le (by omega)
  have hlen : (sentBytes cb).length ≤ (ringIndex cb.head - lastStart cb.head cb.tail).toNat := by
    unfold sentBytes finalDrain
    simp only
    split_ifs <;> simp [Flush.bytes, ringBytes, Range.size]
  rw [UInt64.le_iff_toNat_le, toNat_ringIndex, toNat_ringIndex] at h
  unfold lastStart at hlen
  split_ifs at hlen with hwrap
  · rw [UInt64.sub_zero, toNat_ringIndex] at hlen
    rw [UInt64.lt_iff_toNat_lt, toNat_ringIndex, toNat_ringIndex] at hwrap
    omega
  · rw [UInt64.not_lt, UInt64.le_iff_toNat_le, toNat_ringIndex, toNat_ringIndex] at hwrap
    have heq : ringIndex cb.head = ringIndex cb.tail := by
      rw [← UInt64.toNat_inj, toNat_ringIndex, toNat_ringIndex]
      omega
    rw [heq, UInt64.sub_self] at hlen
    have hzero := UInt64.toNat_zero
    omega

theorem sends_iff (hle : cb.fill ≤ hardlogAuditCbuffsize) :
    sentBytes cb = leftBytes cb ↔ ringIndex cb.tail < ringIndex cb.head := by
  obtain ⟨hfill, hlt'⟩ := fill_eq hlt
  constructor
  · intro heq
    by_contra hc
    have hshort := length_sentBytes_of_le hlt (UInt64.not_lt.mp hc) hle
    rw [heq, leftBytes] at hshort
    simp [Flush.bytes, ringBytes, Range.size, AuditCircBuffer.fill] at hshort
  · intro h
    have hsize := UInt64.toNat_sub_of_le _ _ (UInt64.le_of_lt h)
    have hcases := mod_cases hardlogAuditCbuffsize_pos hlt'.le (by omega)
    have ht := Nat.mod_lt cb.head.toNat hardlogAuditCbuffsize_pos
    rw [UInt64.lt_iff_toNat_lt] at h
    rw [toNat_ringIndex, toNat_ringIndex] at h hsize
    have hsame : (ringIndex cb.head - ringIndex cb.tail).toNat = (cb.head - cb.tail).toNat := by
      rw [hsize]
      change _ = cb.fill
      omega
    rw [sentBytes, finalDrain_of_lt hlt (by rwa [UInt64.lt_iff_toNat_lt, toNat_ringIndex,
      toNat_ringIndex])]
    simp only [List.flatMap_cons, List.flatMap_nil, List.append_nil, leftBytes, Flush.bytes,
      Range.size, hsame, ringBytes, toNat_ringIndex, Nat.mod_add_mod]

/-- **The last write**: with at most a ring left, the code behind the loop drains exactly if the head
has not gone round yet. -/
theorem drains_iff (hle : cb.fill ≤ hardlogAuditCbuffsize) :
    Drains cb ↔ cb.head.toNat < hardlogAuditCbuffsize := by
  obtain ⟨hfill, hlt'⟩ := fill_eq hlt
  constructor
  · rintro ⟨hbytes, htail⟩
    rw [finalDrain_of_lt hlt ((sends_iff hlt hle).mp hbytes)] at htail
    have hmod := congrArg UInt64.toNat htail
    rw [toNat_ringIndex] at hmod
    have := Nat.mod_lt cb.head.toNat hardlogAuditCbuffsize_pos
    omega
  · intro h
    have hlap : ringIndex cb.tail < ringIndex cb.head := by
      rw [UInt64.lt_iff_toNat_lt, toNat_ringIndex, toNat_ringIndex, Nat.mod_eq_of_lt (by omega),
        Nat.mod_eq_of_lt h]
      exact hlt'
    refine ⟨(sends_iff hlt hle).mpr hlap, ?_⟩
    rw [finalDrain_of_lt hlt hlap]
    refine UInt64.toNat_inj.mp ?_
    rw [toNat_ringIndex, Nat.mod_eq_of_lt h]

end Drain

/-- 500 bytes from position 100 on. -/
theorem drains_100_600 : Drains ⟨fun _ => 65, 600, 100⟩ := by
  rw [drains_iff (by decide) (by decide)]
  decide

/-- 200 bytes across the end of the ring: the call goes from 0 to 100, and the tail is set to 100. -/
theorem not_drains_across_end :
    ¬ Drains ⟨fun _ => 65, 1048676, 1048476⟩ ∧
      finalDrain ⟨fun _ => 65, 1048676, 1048476⟩ =
        ⟨[⟨0, 100⟩], ⟨fun _ => 65, 1048676, 100⟩⟩ := by
  refine ⟨fun h => ?_, rfl⟩
  have := (drains_iff (by decide) (by decide)).mp h
  exact absurd this (by decide)

end HardLog.Host.FinalDrain
