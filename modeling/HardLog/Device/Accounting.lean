import HardLog.Device.AppendOnly

/-! # The counters of `do_hardlog_write`

One command: the loop queues buffers for the data, drains them in the order in which they were queued,
and keeps what is still to be asked for, to be written and to be accounted for in five counters. The
buffers queued and not drained yet are a path in the circle of buffer heads (`Queue`), and what was
asked for in them together with the other counters is what the command is owed (`Owed`). The
accounting is right at every exit but one: `always_accounted_iff` says that it is right all along a
schedule exactly if no signal is pending behind a copy. -/

namespace HardLog.Device.Accounting

open HardLog.Lib.CInt HardLog.Lib.Memory HardLog.Lib.Runs HardLog.Device.Cbuff HardLog.Device.Gadget
open HardLog.Device.AppendOnly (twoLuns writeBlock calm)

/-- A step while one command runs. -/
def runStep (cfg : Config) (s : GadgetState) : Gadget.Action → Option GadgetState
  | .command _ _ => none
  | a => gadgetStep cfg s a

/-- A command that has passed the checks: the loop begins, no buffer is in use, `residue` and
`usb_amount_left` are the length of the transfer, and the LUN has place for its sectors. -/
structure Accepted (cfg : Config) (curlun : FsgLun) (s : GadgetState) (v : Vars) : Prop where
  luns_eq : cfg.luns s.common.lun = some curlun
  started : doHardlogWrite s.common curlun = .loop v
  main : s.main = .loop v
  writer : s.store.writer = .idle
  empty : ∀ i, (s.common.buffhds i).state = .empty
  drain_eq : s.common.nextBuffhdToDrain = s.common.nextBuffhdToFill
  residue_eq : s.common.residue = s.common.usbAmountLeft
  size_le : s.common.dataSizeFromCmnd ≤ s.common.residue
  residue_lt : s.common.residue < 2 ^ 32
  length_ge : (curlun.numSectors : ℤ) * 2 ^ curlun.blkbits ≤ curlun.fileLength

/-- **Accounting** in a state `s` of a command that began in `s₀`: behind the loop the head has grown by
what `residue` has shrunk, and by no more than the command said; in it no counter is smaller than
what the next statement takes from it. -/
structure Accounted (curlun : FsgLun) (s₀ s : GadgetState) : Prop where
  exit : s.main = .idle →
    s.common.residue + (s.store.cb.head - s₀.store.cb.head).toNat = s₀.common.residue ∧
      (s.store.cb.head - s₀.store.cb.head).toNat ≤ s₀.common.dataSizeFromCmnd
  loop : ∀ v, s.main = .loop v →
    min v.amountLeftToReq fsgBuflen ≤ s.common.usbAmountLeft ∧ v.fileOffset ≤ curlun.fileLength
  copying : ∀ v bh amount, s.main = .copying v bh amount →
    amount ≤ v.amountLeftToWrite ∧ amount ≤ s.common.residue ∧
      v.fileOffset + amount ≤ curlun.fileLength

/-- No signal is pending where the code looks for one behind the copying. -/
def Uninterrupted (s : GadgetState) : Gadget.Action → Prop
  | .main env => ∀ v bh amount, s.main = .copying v bh amount → s.store.writer = .idle →
      env.signal = false
  | _ => True

/-! ### The buffers in use -/

/-- The places `q` follow each other from `i` on, and `j` is behind them. -/
def Path (next : ℕ → ℕ) : ℕ → List ℕ → ℕ → Prop
  | i, [], j => i = j
  | i, k :: q, j => i = k ∧ Path next (next k) q j

/-- The buffers of `q` are in use, from the next one to drain up to the next one to fill, and no
others. -/
structure Queue (cfg : Config) (c : FsgCommon) (q : List ℕ) : Prop where
  path : Path cfg.next c.nextBuffhdToDrain q c.nextBuffhdToFill
  nodup : q.Nodup
  used : ∀ i ∈ q, (c.buffhds i).state ≠ .empty
  unused : ∀ i ∉ q, (c.buffhds i).state = .empty

/-- What was asked for in the buffers of `q`. -/
def asked (c : FsgCommon) (q : List ℕ) : ℕ :=
  (q.map fun i => (c.buffhds i).bulkOutIntendedLength).sum

theorem Path.snoc {next : ℕ → ℕ} {i j : ℕ} {q : List ℕ} (h : Path next i q j) :
    Path next i (q ++ [j]) (next j) := by
  induction q generalizing i with
  | nil => exact ⟨h, rfl⟩
  | cons k q ih => exact ⟨h.1, ih h.2⟩

theorem asked_congr {c c' : FsgCommon} {q : List ℕ}
    (h : ∀ i ∈ q, (c'.buffhds i).bulkOutIntendedLength = (c.buffhds i).bulkOutIntendedLength) :
    asked c' q = asked c q := by
  unfold asked
  rw [List.map_congr_left h]

section Queue

variable {cfg : Config} {c : FsgCommon} {q : List ℕ} (c' : FsgCommon)

theorem Queue.push {bh : FsgBuffhd} (h : Queue cfg c q)
    (hempty : (c.buffhds c.nextBuffhdToFill).state = .empty) (hbh : bh.state ≠ .empty)
    (hb : c'.buffhds = (c.setBuffhd c.nextBuffhdToFill bh).buffhds)
    (hd : c'.nextBuffhdToDrain = c.nextBuffhdToDrain)
    (hf : c'.nextBuffhdToFill = cfg.next c.nextBuffhdToFill) :
    Queue cfg c' (q ++ [c.nextBuffhdToFill]) ∧
      asked c' (q ++ [c.nextBuffhdToFill]) = asked c q + bh.bulkOutIntendedLength := by
  have hnot : c.nextBuffhdToFill ∉ q := fun hm => h.used _ hm hempty
  have hne : ∀ i ∈ q, i ≠ c.nextBuffhdToFill := fun i hi heq => hnot (heq ▸ hi)
  have hself : c'.buffhds c.nextBuffhdToFill = bh := by rw [hb, FsgCommon.setBuffhd_self]
  have hother : ∀ {i}, i ≠ c.nextBuffhdToFill → c'.buffhds i = c.buffhds i := fun hi => by
    rw [hb, c.setBuffhd_of_ne bh hi]
  refine ⟨⟨?_, ?_, fun i hi => ?_, fun i hi => ?_⟩, ?_⟩
  · rw [hd, hf]
    exact h.path.snoc
  · rw [List.nodup_append]
    refine ⟨h.nodup, List.pairwise_singleton _ _, fun i hi j hj => ?_⟩
    rw [List.mem_singleton.mp hj]
    exact hne i hi
  · rcases List.mem_append.mp hi with hi | hi
    · rw [hother (hne i hi)]
      exact h.used i hi
    · rw [List.mem_singleton.mp hi, hself]
      exact hbh
  · rw [List.mem_append, not_or, List.mem_singleton] at hi
    rw [hother hi.2]
    exact h.unused i hi.1
  · have hold : asked c' q = asked c q := asked_congr fun i hi => by rw [hother (hne i hi)]
    rw [← hold, ← hself]
    simp [asked]

theorem Queue.head_eq (h : Queue cfg c q)
    (hused : (c.buffhds c.nextBuffhdToDrain).state ≠ .empty) :
    ∃ q', q = c.nextBuffhdToDrain :: q' := by
  rcases q with _ | ⟨k, q'⟩
  · exact absurd (h.unused _ List.not_mem_nil) hused
  · exact ⟨q', by rw [h.path.1]⟩

theorem Queue.pop {bh : FsgBuffhd} (h : Queue cfg c (c.nextBuffhdToDrain :: q))
    (hbh : bh.state = .empty)
    (hb : c'.buffhds = (c.setBuffhd c.nextBuffhdToDrain bh).buffhds)
    (hd : c'.nextBuffhdToDrain = cfg.next c.nextBuffhdToDrain)
    (hf : c'.nextBuffhdToFill = c.nextBuffhdToFill) : Queue cfg c' q ∧ asked c' q = asked c q := by
  obtain ⟨hnot, hnodup⟩ := List.nodup_cons.mp h.nodup
  have hne : ∀ i ∈ q, i ≠ c.nextBuffhdToDrain := fun i hi heq => hnot (heq ▸ hi)
  have hother : ∀ {i}, i ≠ c.nextBuffhdToDrain → c'.buffhds i = c.buffhds i := fun hi => by
    rw [hb, c.setBuffhd_of_ne bh hi]
  refine ⟨⟨?_, hnodup, fun i hi => ?_, fun i hi => ?_⟩, asked_congr fun i hi => ?_⟩
  · rw [hd, hf]
    exact h.path.2
  · rw [hother (hne i hi)]
    exact h.used i (List.mem_cons_of_mem _ hi)
  · by_cases heq : i = c.nextBuffhdToDrain
    · rw [heq, hb, FsgCommon.setBuffhd_self]
      exact hbh
    · rw [hother heq]
      exact h.unused i fun hm => (List.mem_cons.mp hm).elim heq hi
  · rw [hother (hne i hi)]

theorem Queue.complete {i : ℕ} {bh : FsgBuffhd} (h : Queue cfg c q)
    (hused : (c.buffhds i).state ≠ .empty) (hbh : bh.state ≠ .empty)
    (hlen : bh.bulkOutIntendedLength = (c.buffhds i).bulkOutIntendedLength) :
    Queue cfg (c.setBuffhd i bh) q ∧ asked (c.setBuffhd i bh) q = asked c q := by
  refine ⟨⟨h.path, h.nodup, fun j hj => ?_, fun j hj => ?_⟩, asked_congr fun j hj => ?_⟩
  · by_cases heq : j = i
    · rwa [heq, FsgCommon.setBuffhd_self]
    · rw [c.setBuffhd_of_ne bh heq]
      exact h.used j hj
  · have heq : j ≠ i := by
      rintro rfl
      exact hused (h.unused j hj)
    rw [c.setBuffhd_of_ne bh heq]
    exact h.unused j hj
  · by_cases heq : j = i
    · rw [heq, FsgCommon.setBuffhd_self, hlen]
    · rw [c.setBuffhd_of_ne bh heq]

end Queue

/-! ### What the command is owed -/

section Owed

variable {cfg : Config} {curlun : FsgLun} {c₀ c : FsgCommon} {v : Vars} {n : ℕ}

/-- The counters when `n` bytes of a command that began with `c₀` have been accounted for, and `amount`
more are being copied: what is still to be written covers the buffers of `q`, what is still to be asked
for and these. -/
structure Owed (cfg : Config) (curlun : FsgLun) (c₀ c : FsgCommon) (v : Vars) (n amount : ℕ)
    (q : List ℕ) : Prop where
  lun_eq : c.lun = c₀.lun
  queue : Queue cfg c q
  covered : asked c q + v.amountLeftToReq + amount ≤ v.amountLeftToWrite
  written : v.amountLeftToWrite + n = c₀.dataSizeFromCmnd
  residue_eq : c.residue + n = c₀.residue
  req_le : v.amountLeftToReq ≤ c.usbAmountLeft
  usb_lt : c.usbAmountLeft < 2 ^ 32
  offset_le : v.fileOffset + amount ≤ curlun.fileLength

/-- Where the main thread may be when `n` bytes have been accounted for. -/
def Settles (cfg : Config) (curlun : FsgLun) (c₀ : FsgCommon) (n : ℕ) (c : FsgCommon) : MainPc → Prop
  | .idle => c.residue + n = c₀.residue ∧ n ≤ c₀.dataSizeFromCmnd
  | .loop v => ∃ q, Owed cfg curlun c₀ c v n 0 q
  | .copying v _ amount => 0 < amount ∧ ∃ q, Owed cfg curlun c₀ c v n amount q
  | _ => False

theorem Owed.exit {amount : ℕ} {q : List ℕ} (h : Owed cfg curlun c₀ c v n amount q) :
    Settles cfg curlun c₀ n c .idle := by
  have := h.written
  exact ⟨h.residue_eq, by omega⟩

theorem amountOf_le (bh : FsgBuffhd) (h : v.fileOffset ≤ curlun.fileLength) :
    amountOf curlun v bh ≤ bh.bulkOutIntendedLength ∧
      v.fileOffset + amountOf curlun v bh ≤ curlun.fileLength := by
  have hround : amountOf curlun v bh ≤ min (if curlun.fileLength - v.fileOffset < bh.actual then
      ((curlun.fileLength - v.fileOffset) % 2 ^ 32).toNat else bh.actual)
      bh.bulkOutIntendedLength := Nat.sub_le _ _
  refine ⟨hround.trans (Nat.min_le_right _ _), ?_⟩
  have hclip := hround.trans (Nat.min_le_left _ _)
  split_ifs at hclip with hroom <;> omega

theorem Owed.queueRequest {q : List ℕ} (h : Owed cfg curlun c₀ c v n 0 q) (env : Env)
    (hempty : (c.buffhds c.nextBuffhdToFill).state = .empty) :
    Settles cfg curlun c₀ n (queueRequest cfg env curlun c v).1 (queueRequest cfg env curlun c v).2 := by
  have hmin := Nat.min_le_left v.amountLeftToReq fsgBuflen
  have hreq := h.req_le
  have husb := h.usb_lt
  have hcov := h.covered
  have hleft := sub32_of_le hmin (by omega)
  have husb' : sub32 c.usbAmountLeft (min v.amountLeftToReq fsgBuflen) =
      c.usbAmountLeft - min v.amountLeftToReq fsgBuflen := sub32_of_le (by omega) husb
  unfold Gadget.queueRequest
  by_cases hend : curlun.fileLength ≤ v.usbOffset
  · simp only [if_pos hend]
    exact ⟨q, h.lun_eq, h.queue, h.covered, h.written, h.residue_eq, hreq, husb, h.offset_le⟩
  · simp only [if_neg hend]
    by_cases hst : env.started = true
    · simp only [hst, Bool.not_true, Bool.false_eq_true, if_false]
      obtain ⟨hq, hasked⟩ := h.queue.push { ({ c with
          usbAmountLeft := sub32 c.usbAmountLeft (min v.amountLeftToReq fsgBuflen) }).setBuffhd
            c.nextBuffhdToFill { c.buffhds c.nextBuffhdToFill with
              bulkOutIntendedLength := min v.amountLeftToReq fsgBuflen
              intended_le := Nat.min_le_right _ _
              state := .busy } with nextBuffhdToFill := cfg.next c.nextBuffhdToFill }
        hempty (by simp) rfl rfl rfl
      refine ⟨_, h.lun_eq, hq, ?_, h.written, h.residue_eq, ?_, ?_, h.offset_le⟩
      · rw [hasked]
        simp only [hleft]
        omega
      · simp only [FsgCommon.setBuffhd, hleft, husb']
        omega
      · simp only [FsgCommon.setBuffhd, husb']
        omega
    · simp only [hst, Bool.not_false, if_true]
      exact h.exit

theorem Owed.emptyWrite {q : List ℕ} (h : Owed cfg curlun c₀ c v n 0 q) (bh : FsgBuffhd) :
    Settles cfg curlun c₀ n (emptyWrite c v bh).1 (emptyWrite c v bh).2 := by
  unfold Gadget.emptyWrite
  split_ifs
  · exact h.exit
  · exact ⟨q, h⟩

theorem Owed.drainBuffer {q : List ℕ} (h : Owed cfg curlun c₀ c v n 0 q)
    (hfull : (c.buffhds c.nextBuffhdToDrain).state = .full) :
    Settles cfg curlun c₀ n (drainBuffer cfg curlun c v).1 (drainBuffer cfg curlun c v).2 := by
  obtain ⟨q', rfl⟩ := h.queue.head_eq (by simp [hfull])
  obtain ⟨hle, hoff⟩ := amountOf_le (c.buffhds c.nextBuffhdToDrain) (by simpa using h.offset_le)
  obtain ⟨hq, hasked⟩ := h.queue.pop { c.setBuffhd c.nextBuffhdToDrain
      { c.buffhds c.nextBuffhdToDrain with state := .empty } with
        nextBuffhdToDrain := cfg.next c.nextBuffhdToDrain } rfl rfl rfl rfl
  have hcov := h.covered
  have hcons : asked c (c.nextBuffhdToDrain :: q') =
      (c.buffhds c.nextBuffhdToDrain).bulkOutIntendedLength + asked c q' := by simp [asked]
  have howed : ∀ amount ≤ amountOf curlun v (c.buffhds c.nextBuffhdToDrain),
      Owed cfg curlun c₀ { c.setBuffhd c.nextBuffhdToDrain
        { c.buffhds c.nextBuffhdToDrain with state := .empty } with
          nextBuffhdToDrain := cfg.next c.nextBuffhdToDrain } v n amount q' := by
    intro amount ha
    exact ⟨h.lun_eq, hq, by rw [hasked]; omega, h.written, h.residue_eq, h.req_le, h.usb_lt,
      by omega⟩
  unfold Gadget.drainBuffer
  simp only
  by_cases hst : (c.buffhds c.nextBuffhdToDrain).status = 0
  · rw [if_neg (not_not.mpr hst)]
    by_cases h0 : amountOf curlun v (c.buffhds c.nextBuffhdToDrain) = 0
    · rw [if_pos h0]
      exact (howed 0 (Nat.zero_le _)).emptyWrite _
    · rw [if_neg h0]
      exact ⟨Nat.pos_of_ne_zero h0, q', howed _ (Nat.le_refl _)⟩
  · rw [if_pos hst]
    exact (howed 0 (Nat.zero_le _)).exit

theorem Owed.round {q : List ℕ} (h : Owed cfg curlun c₀ c v n 0 q) (env : Env) :
    Settles cfg curlun c₀ n (hardlogWriteRound cfg env curlun c v).1
      (hardlogWriteRound cfg env curlun c v).2 := by
  unfold hardlogWriteRound
  by_cases h0 : v.amountLeftToWrite = 0
  · rw [if_pos h0]
    exact h.exit
  rw [if_neg h0]
  split
  · next hempty _ => exact h.queueRequest env hempty
  · split
    · exact h.exit
    · next hfull => exact h.drainBuffer hfull
    · split_ifs
      · exact h.exit
      · exact ⟨q, h⟩

theorem Owed.rest {amount : ℕ} {q : List ℕ} (h : Owed cfg curlun c₀ c v n amount q)
    (hres : c₀.residue < 2 ^ 32) (hsize : c₀.dataSizeFromCmnd ≤ c₀.residue) {env : Env}
    (hsig : env.signal = false) (bh : FsgBuffhd) :
    Settles cfg curlun c₀ (n + amount) (hardlogWriteRest env c v bh amount).1
      (hardlogWriteRest env c v bh amount).2 := by
  have hcov := h.covered
  have hwritten := h.written
  have hresidue := h.residue_eq
  have hsub : sub32 c.residue amount = c.residue - amount := sub32_of_le (by omega) (by omega)
  have hsub' : sub32 v.amountLeftToWrite amount = v.amountLeftToWrite - amount :=
    sub32_of_le (by omega) (by omega)
  unfold hardlogWriteRest
  simp only [hsig, Bool.false_eq_true, if_false, hsub, hsub']
  refine Owed.emptyWrite (q := q) ?_ bh
  refine ⟨h.lun_eq, ⟨h.queue.path, h.queue.nodup, h.queue.used, h.queue.unused⟩, ?_, ?_, ?_,
    h.req_le, h.usb_lt, ?_⟩
  · change asked c q + v.amountLeftToReq + 0 ≤ v.amountLeftToWrite - amount
    omega
  · change v.amountLeftToWrite - amount + (n + amount) = c₀.dataSizeFromCmnd
    omega
  · change c.residue - amount + (n + amount) = c₀.residue
    omega
  · simpa using h.offset_le

theorem Settles.complete {pc : MainPc} {i : ℕ} {bh : FsgBuffhd} (h : Settles cfg curlun c₀ n c pc)
    (hused : (c.buffhds i).state ≠ .empty) (hbh : bh.state ≠ .empty)
    (hlen : bh.bulkOutIntendedLength = (c.buffhds i).bulkOutIntendedLength) :
    Settles cfg curlun c₀ n (c.setBuffhd i bh) pc := by
  have howed : ∀ {v amount q}, Owed cfg curlun c₀ c v n amount q →
      Owed cfg curlun c₀ (c.setBuffhd i bh) v n amount q := by
    intro v amount q h
    obtain ⟨hq, hasked⟩ := h.queue.complete hused hbh hlen
    exact ⟨h.lun_eq, hq, hasked ▸ h.covered, h.written, h.residue_eq, h.req_le, h.usb_lt,
      h.offset_le⟩
  rcases pc with _ | v | ⟨v, bh', amount⟩ | _ | _
  · exact h
  · obtain ⟨q, h⟩ := h
    exact ⟨q, howed h⟩
  · obtain ⟨hpos, q, h⟩ := h
    exact ⟨hpos, q, howed h⟩
  · exact h
  · exact h

end Owed

/-! ### One command -/

/-- The chunk that is being copied. -/
def pending : WriterPc → Option (List UInt8)
  | .idle => none
  | .space chunk => some chunk
  | .copy chunk _ => some chunk
  | .bump chunk => some chunk

/-- Where the head is when `n` bytes have been accounted for. -/
def Held (head₀ : UInt64) (n : ℕ) (s : Store) : MainPc → Prop
  | .copying _ _ amount =>
    (s.writer = .idle ∧ s.cb.head = head₀ + UInt64.ofNat (n + amount)) ∨
      ∃ chunk, pending s.writer = some chunk ∧ chunk.length = amount ∧
        s.cb.head = head₀ + UInt64.ofNat n
  | _ => s.writer = .idle ∧ s.cb.head = head₀ + UInt64.ofNat n

/-- The invariant of a command that began in `s₀`. -/
def Inv (cfg : Config) (curlun : FsgLun) (s₀ s : GadgetState) : Prop :=
  ∃ n, Settles cfg curlun s₀.common n s.common s.main ∧ Held s₀.store.cb.head n s.store s.main

section Command

variable {cfg : Config} {curlun : FsgLun} {s₀ s s' : GadgetState} {v₀ : Vars}

theorem Accepted.inv (h : Accepted cfg curlun s₀ v₀) : Inv cfg curlun s₀ s₀ := by
  have hstart := h.started
  unfold doHardlogWrite at hstart
  simp only at hstart
  split_ifs at hstart with h1 h2 h3
  obtain rfl := MainPc.loop.inj hstart
  have hpow : (0 : ℤ) < 2 ^ curlun.blkbits := Int.pow_pos (by decide)
  have hlba : (s₀.common.lba : ℤ) < curlun.numSectors := by omega
  have hoff : (s₀.common.lba : ℤ) * 2 ^ curlun.blkbits ≤ curlun.fileLength :=
    (Int.mul_le_mul_of_nonneg_right hlba.le hpow.le).trans h.length_ge
  refine ⟨0, ?_, ?_⟩
  · rw [h.main]
    refine ⟨[], rfl, ⟨h.drain_eq, List.nodup_nil, by simp, fun i _ => h.empty i⟩, ?_, rfl, rfl, ?_, ?_,
      ?_⟩
    · simp [asked]
    · exact h.residue_eq ▸ h.size_le
    · exact h.residue_eq ▸ h.residue_lt
    · simpa using hoff
  · rw [h.main]
    exact ⟨h.writer, (UInt64.add_zero _).symm⟩

theorem Inv.accounted (h0 : Accepted cfg curlun s₀ v₀) (h : Inv cfg curlun s₀ s) :
    Accounted curlun s₀ s := by
  obtain ⟨n, hset, hheld⟩ := h
  have hres := h0.residue_lt
  have hsize := h0.size_le
  refine ⟨fun hpc => ?_, fun v hpc => ?_, fun v bh amount hpc => ?_⟩
  · rw [hpc] at hset hheld
    obtain ⟨hresidue, hn⟩ := hset
    have hgain : (s.store.cb.head - s₀.store.cb.head).toNat = n := by
      rw [hheld.2, UInt64.add_comm, UInt64.add_sub_cancel, UInt64.toNat_ofNat']
      exact Nat.mod_eq_of_lt (by omega)
    rw [hgain]
    exact ⟨hresidue, hn⟩
  · rw [hpc] at hset
    obtain ⟨q, howed⟩ := hset
    exact ⟨(Nat.min_le_left _ _).trans howed.req_le, by simpa using howed.offset_le⟩
  · rw [hpc] at hset
    obtain ⟨-, q, howed⟩ := hset
    have h1 := howed.covered
    have h2 := howed.written
    have h3 := howed.residue_eq
    exact ⟨by omega, by omega, howed.offset_le⟩

theorem Inv.proceed {n : ℕ} {r : FsgCommon × MainPc} (hr : Settles cfg curlun s₀.common n r.1 r.2)
    (hw : s.store.writer = .idle) (hhead : s.store.cb.head = s₀.store.cb.head + UInt64.ofNat n)
    (hs : s.proceed r = some s') : Inv cfg curlun s₀ s' := by
  unfold GadgetState.proceed at hs
  obtain ⟨c, pc⟩ := r
  cases pc with
  | copying v bh amount =>
    simp only [Option.map_eq_some_iff] at hs
    obtain ⟨store, hstore, rfl⟩ := hs
    obtain ⟨-, rfl⟩ := chunk_cases hstore
    exact ⟨n, hr, Or.inr ⟨_, rfl, length_slice .., hhead⟩⟩
  | doWrite => exact hr.elim
  | oops => exact hr.elim
  | _ =>
    obtain rfl := Option.some.inj hs
    exact ⟨n, hr, hw, hhead⟩

theorem Held.writer_step {head₀ : UInt64} {n amount : ℕ} {v : Vars} {bh : FsgBuffhd} {t t' : Store}
    (h : Held head₀ n t (.copying v bh amount)) (hs : writerStep t = some t') :
    Held head₀ n t' (.copying v bh amount) := by
  have hnot : t.writer ≠ .idle := by
    intro hw
    simp [writerStep, hw] at hs
  obtain ⟨hw, -⟩ | ⟨chunk, hpend, hlen, hhead⟩ := h
  · exact absurd hw hnot
  rcases writerStep_cases hs with ⟨d, hpc, rfl⟩ | ⟨d, hpc, -, rfl⟩ | ⟨d, i, hpc, rfl⟩ | ⟨d, hpc, rfl⟩
  · exact Or.inr ⟨chunk, hpend, hlen, hhead⟩
  · rw [hpc] at hpend
    exact Or.inr ⟨chunk, hpend, hlen, hhead⟩
  · rw [hpc] at hpend
    exact Or.inr ⟨chunk, hpend, hlen, hhead⟩
  · rw [hpc] at hpend
    obtain rfl := Option.some.inj hpend
    refine Or.inl ⟨rfl, ?_⟩
    simp only
    rw [hhead, hlen, UInt64.add_assoc, ← UInt64.ofNat_add]

theorem Held.flusher_step {head₀ : UInt64} {n : ℕ} {t : Store} {pc : MainPc} (h : Held head₀ n t pc)
    (len : ℤ) : Held head₀ n (flusherStep t len) pc := by
  obtain ⟨hhead, hw⟩ := flusherStep_frame t len
  unfold Held at *
  rwa [hhead, hw]

theorem Inv.main_step (h0 : Accepted cfg curlun s₀ v₀) {env : Env} (h : Inv cfg curlun s₀ s)
    (hu : Uninterrupted s (.main env)) (hs : mainStep cfg env s = some s') :
    Inv cfg curlun s₀ s' := by
  obtain ⟨n, hset, hheld⟩ := h
  unfold mainStep at hs
  split at hs
  · next v curlun' hpc hcur =>
    rw [hpc] at hset hheld
    obtain ⟨q, howed⟩ := hset
    rw [howed.lun_eq, h0.luns_eq] at hcur
    obtain rfl := Option.some.inj hcur
    exact Inv.proceed (howed.round env) hheld.1 hheld.2 hs
  · next v bh amount curlun' hpc _ =>
    rw [hpc] at hset hheld
    obtain ⟨hpos, q, howed⟩ := hset
    split at hs
    · next hw =>
      have hhead : s.store.cb.head = s₀.store.cb.head + UInt64.ofNat (n + amount) := by
        rcases hheld with ⟨-, hhead⟩ | ⟨chunk, hpend, -, -⟩
        · exact hhead
        · rw [hw] at hpend
          cases hpend
      exact Inv.proceed (howed.rest h0.residue_lt h0.size_le (hu v bh amount hpc hw) bh) hw hhead hs
    · obtain ⟨store, hstore, rfl⟩ := Option.map_eq_some_iff.mp hs
      refine ⟨n, ?_, ?_⟩
      · rw [hpc]
        exact ⟨hpos, q, howed⟩
      · rw [hpc]
        exact hheld.writer_step hstore
  · next hpc =>
    rw [hpc] at hset
    exact hset.elim
  · cases hs

theorem Inv.step (h0 : Accepted cfg curlun s₀ v₀) {a : Gadget.Action} (h : Inv cfg curlun s₀ s)
    (hu : Uninterrupted s a) (hs : runStep cfg s a = some s') : Inv cfg curlun s₀ s' := by
  cases a with
  | command common reply => cases hs
  | main env => exact h.main_step h0 hu hs
  | complete i buf status actual =>
    obtain ⟨n, hset, hheld⟩ := h
    simp only [runStep, gadgetStep] at hs
    split at hs
    · next hbusy =>
      obtain rfl := Option.some.inj hs
      exact ⟨n, hset.complete (by simp [hbusy]) (by simp) rfl, hheld⟩
    · cases hs
  | flusher len =>
    obtain ⟨n, hset, hheld⟩ := h
    simp only [runStep, gadgetStep, storeStep, Option.map_some, Option.some.injEq] at hs
    subst hs
    exact ⟨n, hset, hheld.flusher_step len⟩
  | ioctl copied =>
    obtain rfl := Option.some.inj hs
    obtain ⟨hstore, hmain, hcommon⟩ := ioctlStep_frame s copied
    unfold Inv at *
    rwa [hstore, hmain, hcommon]

theorem not_accounted_of_signal (h0 : Accepted cfg curlun s₀ v₀) (h : Inv cfg curlun s₀ s)
    {env : Env} (hs : mainStep cfg env s = some s') {v : Vars} {bh : FsgBuffhd} {amount : ℕ}
    (hpc : s.main = .copying v bh amount) (hw : s.store.writer = .idle)
    (hsig : env.signal = true) : ¬ Accounted curlun s₀ s' := by
  obtain ⟨n, hset, hheld⟩ := h
  have hres := h0.residue_lt
  have hsize := h0.size_le
  rw [hpc] at hset hheld
  obtain ⟨hpos, q, howed⟩ := hset
  have hcov := howed.covered
  have hwritten := howed.written
  have hresidue := howed.residue_eq
  rcases hheld with ⟨-, hhead⟩ | ⟨chunk, hpend, -, -⟩
  · have hs' : s' = { s with main := .idle } := by
      unfold mainStep hardlogWriteRest GadgetState.proceed at hs
      rw [howed.lun_eq, h0.luns_eq] at hs
      simpa [hpc, hw, hsig] using hs.symm
    intro hacc
    have hexit := (hacc.exit (by rw [hs'])).1
    rw [hs'] at hexit
    simp only at hexit
    rw [hhead, UInt64.add_comm, UInt64.add_sub_cancel, UInt64.toNat_ofNat',
      Nat.mod_eq_of_lt (by omega)] at hexit
    omega
  · rw [hw] at hpend
    cases hpend

/-- **The accounting** of an accepted command is right in every state of a schedule exactly if no signal
is pending behind a copy. -/
theorem always_accounted_iff (h0 : Accepted cfg curlun s₀ v₀) (as : List Gadget.Action) :
    Always (runStep cfg) (Accounted curlun s₀) s₀ as ↔ EachStep (runStep cfg) Uninterrupted s₀ as := by
  have hP : ∀ s a s', Inv cfg curlun s₀ s → runStep cfg s a = some s' →
      (Accounted curlun s₀ s' ↔ Uninterrupted s a) := by
    intro s a s' h hs
    constructor
    · intro hacc
      cases a with
      | main env =>
        intro v bh amount hpc hw
        by_contra hsig
        exact not_accounted_of_signal h0 h hs hpc hw (by simpa using hsig) hacc
      | _ => trivial
    · exact fun hu => (h.step h0 hu hs).accounted h0
  refine always_iff_eachStep (I := Inv cfg curlun s₀) (fun s a s' h hs hacc => ?_) hP as h0.inv
    (h0.inv.accounted h0)
  exact h.step h0 ((hP s a s' h hs).mp hacc) hs

end Command

/-- The LUN of the log. -/
def logLun : FsgLun := ⟨"lun0", false, 2048, 1048576, 9⟩

/-- The device at the loop of `do_hardlog_write`, with a WRITE(10) of a block to the log. -/
def blockStart : GadgetState :=
  { gadgetInit (fun _ => 0) (fun _ => 0) (fun _ _ => 0) writeBlock with
    main := .loop ⟨0, 0, 512, 512, true⟩ }

/-- The block is asked for, received and copied. -/
def receiveBlock : List Gadget.Action :=
  [.main calm, .complete 0 (fun _ => 65) 0 512] ++ List.replicate 4 (.main calm)

theorem accepted_blockStart : Accepted twoLuns logLun blockStart ⟨0, 0, 512, 512, true⟩ where
  luns_eq := rfl
  started := rfl
  main := rfl
  writer := rfl
  empty _ := rfl
  drain_eq := rfl
  residue_eq := rfl
  size_le := Nat.le_refl _
  residue_lt := by decide
  length_ge := by decide

/-- A command with no signal. -/
theorem accounted_block :
    Always (runStep twoLuns) (Accounted logLun blockStart) blockStart
      (receiveBlock ++ List.replicate 2 (.main calm)) := by
  rw [always_accounted_iff accepted_blockStart]
  refine EachStep.of_forall_mem (fun s a ha => ?_) _
  simp only [receiveBlock, List.mem_append, List.mem_cons, List.mem_replicate, List.not_mem_nil,
    or_false] at ha
  obtain ((rfl | rfl) | ⟨-, rfl⟩) | ⟨-, rfl⟩ := ha
  · exact fun _ _ _ _ _ => rfl
  · trivial
  · exact fun _ _ _ _ _ => rfl
  · exact fun _ _ _ _ _ => rfl

/-- A signal is pending when a block has been copied: the head is 512 bytes further on, and the residue
is that of a command of which nothing was taken. -/
theorem signal_behind_copy :
    Accepted twoLuns logLun blockStart ⟨0, 0, 512, 512, true⟩ ∧
      ∃ s, runFrom (runStep twoLuns) blockStart
          (receiveBlock ++ [.main { calm with signal := true }]) = some s ∧
        s.store.cb.head = 512 ∧ s.common.residue = 512 ∧ ¬ Accounted logLun blockStart s := by
  obtain ⟨s, hrun⟩ : ∃ s, runFrom (runStep twoLuns) blockStart
      (receiveBlock ++ [.main { calm with signal := true }]) = some s := ⟨_, rfl⟩
  have hend : (runFrom (runStep twoLuns) blockStart
      (receiveBlock ++ [.main { calm with signal := true }])).map
        (fun s => (s.store.cb.head, s.common.residue)) = some (512, 512) := by decide +kernel
  rw [hrun] at hend
  obtain ⟨hhead, hres⟩ := Prod.mk.inj (Option.some.inj hend)
  refine ⟨accepted_blockStart, s, hrun, hhead, hres, fun hacc => ?_⟩
  have hidle : s.main = .idle := by
    obtain rfl := Option.some.inj hrun
    rfl
  have hexit := (hacc.exit hidle).1
  rw [hhead, hres] at hexit
  exact absurd hexit (by decide)

end HardLog.Device.Accounting
