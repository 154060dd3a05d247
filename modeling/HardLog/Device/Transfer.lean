import HardLog.Device.Accounting

/-! # From the wire to the stream

The host sends the data of a WRITE over the bulk endpoint. `do_hardlog_write` queues its buffers there,
the controller fills them in the order in which they were queued, and the main thread drains them
while others are still being filled. `BusState` has the device with what is queued at the endpoint and
what the host has not sent yet. `prefix_of_reach`: whatever happens during a command, a signal, an error
or the end of the file included, the stream has grown by a prefix of the data, with no byte lost,
doubled or out of order; `all_of_reach`: by all of it if nothing gets in the way. -/

namespace HardLog.Device.Transfer

open HardLog.Lib.CInt HardLog.Lib.Memory HardLog.Lib.Runs HardLog.Device.Cbuff HardLog.Device.Gadget
open HardLog.Device.Accounting
open HardLog.Device.AppendOnly (twoLuns writeBlock calm)

/-- The device, the buffers queued at the endpoint, and the bytes that are still to come. -/
structure BusState where
  gadget : GadgetState
  endpoint : List ℕ
  wire : List UInt8

/-- The main thread takes a step; the controller puts `k` bytes into the first buffer queued, or fails
to and loses `lost` of them; the flusher or the ioctl takes a step. -/
inductive BusAction where
  | main (env : Env)
  | transfer (k : ℕ)
  | fail (status : ℤ) (buf : ℕ → UInt8) (actual lost : ℕ)
  | flusher (len : ℤ)
  | ioctl (copied : Bool)

/-- The buffer that a step of the main thread has queued, if any. -/
def queued (c c' : FsgCommon) : List ℕ :=
  match (c.buffhds c.nextBuffhdToFill).state, (c'.buffhds c.nextBuffhdToFill).state with
  | .empty, .busy => [c.nextBuffhdToFill]
  | _, _ => []

/-- A step of the device and of the controller while one command runs. A short packet has fewer bytes
than were asked for; there are never more. -/
def busStep (cfg : Config) (s : BusState) : BusAction → Option BusState
  | .main env => (runStep cfg s.gadget (.main env)).map fun gadget =>
      { s with gadget, endpoint := s.endpoint ++ queued s.gadget.common gadget.common }
  | .transfer k =>
    match s.endpoint with
    | [] => none
    | i :: endpoint =>
      let bh := s.gadget.common.buffhds i
      if k ≤ bh.bulkOutIntendedLength ∧ k ≤ s.wire.length then
        (runStep cfg s.gadget (.complete i (memcpy bh.buf 0 (s.wire.take k)) 0 k)).map fun gadget =>
          ⟨gadget, endpoint, s.wire.drop k⟩
      else none
  | .fail status buf actual lost =>
    match s.endpoint with
    | [] => none
    | i :: endpoint =>
      if status ≠ 0 then
        (runStep cfg s.gadget (.complete i buf status actual)).map fun gadget =>
          ⟨gadget, endpoint, s.wire.drop lost⟩
      else none
  | .flusher len => (runStep cfg s.gadget (.flusher len)).map fun gadget => { s with gadget }
  | .ioctl copied => (runStep cfg s.gadget (.ioctl copied)).map fun gadget => { s with gadget }

/-- Nothing gets in the way: no error, no signal, no short packet. -/
def Undisturbed (s : BusState) : BusAction → Prop
  | .main env => env.started = true ∧ env.signal = false ∧ env.sleepRc = 0
  | .transfer k => ∀ i endpoint, s.endpoint = i :: endpoint →
      k = (s.gadget.common.buffhds i).bulkOutIntendedLength
  | .fail _ _ _ _ => False
  | _ => True

/-! ### What the received buffers hold -/

/-- `rest` is what the received buffers `q` hold one after the other, and then the wire; what is behind
a buffer whose transfer failed does not count. -/
def Carries (c : FsgCommon) (wire : List UInt8) : List ℕ → List UInt8 → Prop
  | [], rest => rest = wire
  | i :: q, rest => (c.buffhds i).status ≠ 0 ∨
      ((c.buffhds i).actual ≤ (c.buffhds i).bulkOutIntendedLength ∧
        ∃ rest', rest = slice (c.buffhds i).buf 0 (c.buffhds i).actual ++ rest' ∧
          Carries c wire q rest')

section Carries

variable {c c' : FsgCommon} {wire wire' rest : List UInt8} {q : List ℕ}

theorem Carries.congr (h : Carries c wire q rest) (hq : ∀ i ∈ q, c'.buffhds i = c.buffhds i) :
    Carries c' wire q rest := by
  induction q generalizing rest with
  | nil => exact h
  | cons i q ih =>
    unfold Carries at h ⊢
    rw [hq i List.mem_cons_self]
    rcases h with hbad | ⟨hle, rest', hrest, hmore⟩
    · exact Or.inl hbad
    · exact Or.inr ⟨hle, rest', hrest, ih hmore fun j hj => hq j (List.mem_cons_of_mem i hj)⟩

theorem Carries.snoc {i : ℕ} (h : Carries c wire q rest)
    (hq : ∀ j ∈ q, c'.buffhds j = c.buffhds j)
    (hi : (c'.buffhds i).status ≠ 0 ∨
      ((c'.buffhds i).actual ≤ (c'.buffhds i).bulkOutIntendedLength ∧
        wire = slice (c'.buffhds i).buf 0 (c'.buffhds i).actual ++ wire')) :
    Carries c' wire' (q ++ [i]) rest := by
  induction q generalizing rest with
  | nil =>
    obtain rfl : rest = wire := h
    rcases hi with hbad | ⟨hle, hwire⟩
    · exact Or.inl hbad
    · exact Or.inr ⟨hle, wire', hwire, rfl⟩
  | cons j q ih =>
    unfold Carries at h
    rw [List.cons_append, Carries, hq j List.mem_cons_self]
    rcases h with hbad | ⟨hle, rest', hrest, hmore⟩
    · exact Or.inl hbad
    · exact Or.inr ⟨hle, rest', hrest, ih hmore fun k hk => hq k (List.mem_cons_of_mem j hk)⟩

end Carries

/-! ### What is taken of a buffer -/

/-- The file has no place for another block, with `amount` bytes being copied. -/
def NoRoom (curlun : FsgLun) (v : Vars) (amount : ℕ) : Prop :=
  curlun.fileLength - (v.fileOffset + amount) < ((2 ^ curlun.blkbits : ℕ) : ℤ)

section Amount

variable {curlun : FsgLun} {v : Vars} {bh : FsgBuffhd}

theorem clip_eq (h : v.fileOffset ≤ curlun.fileLength)
    (hlt : curlun.fileLength - v.fileOffset < bh.actual)
    (hle : bh.actual ≤ bh.bulkOutIntendedLength) :
    ((curlun.fileLength - v.fileOffset) % 2 ^ 32).toNat =
      (curlun.fileLength - v.fileOffset).toNat := by
  have := bh.intended_le
  unfold fsgBuflen at this
  rw [Int.emod_eq_of_lt (by omega) (by omega)]

/-- **All of a whole buffer is taken**, or no place is left behind what is taken of it. -/
theorem amountOf_whole (h : v.fileOffset ≤ curlun.fileLength)
    (hwhole : bh.actual = bh.bulkOutIntendedLength)
    (hdvd : 2 ^ curlun.blkbits ∣ bh.bulkOutIntendedLength) :
    amountOf curlun v bh = bh.actual ∨
      ((curlun.fileLength - v.fileOffset < bh.actual) ∧ NoRoom curlun v (amountOf curlun v bh)) := by
  unfold NoRoom amountOf
  by_cases hroom : curlun.fileLength - v.fileOffset < bh.actual
  · right
    refine ⟨hroom, ?_⟩
    have hclip := clip_eq h hroom hwhole.le
    obtain ⟨room, hr⟩ := Int.eq_ofNat_of_zero_le (show 0 ≤ curlun.fileLength - v.fileOffset by omega)
    have hmod := Nat.mod_lt room (Nat.two_pow_pos curlun.blkbits)
    have hle := Nat.mod_le room (2 ^ curlun.blkbits)
    simp only [if_pos hroom, hclip]
    rw [hr] at hroom ⊢
    rw [Int.toNat_natCast, Nat.min_eq_left (by omega)]
    omega
  · left
    rw [← hwhole] at hdvd ⊢
    simp only [if_neg hroom, Nat.min_self, Nat.mod_eq_zero_of_dvd hdvd, Nat.sub_zero]

theorem amountOf_le_actual (h : v.fileOffset ≤ curlun.fileLength)
    (hle : bh.actual ≤ bh.bulkOutIntendedLength) : amountOf curlun v bh ≤ bh.actual := by
  unfold amountOf
  refine (Nat.sub_le _ _).trans ((Nat.min_le_left _ _).trans ?_)
  split_ifs with hroom
  · rw [clip_eq h hroom hle]
    omega
  · exact Nat.le_refl _

theorem amountOf_noRoom (h : NoRoom curlun v 0) (hle : v.fileOffset ≤ curlun.fileLength) :
    amountOf curlun v bh = 0 := by
  unfold NoRoom at h
  have hsmall : min (if curlun.fileLength - v.fileOffset < bh.actual then
      ((curlun.fileLength - v.fileOffset) % 2 ^ 32).toNat else bh.actual)
      bh.bulkOutIntendedLength < 2 ^ curlun.blkbits := by
    refine Nat.lt_of_le_of_lt (Nat.min_le_left _ _) ?_
    split_ifs with hroom <;> omega
  unfold amountOf
  simp only
  rw [Nat.mod_eq_of_lt hsmall, Nat.sub_self]

end Amount

/-! ### The data on its way -/

/-- The buffers `qf` have been received and those of the endpoint are being filled, in this order; what
was asked for and what is still to be asked for are whole blocks. -/
structure Flow (cfg : Config) (curlun : FsgLun) (c : FsgCommon) (v : Vars) (qf endpoint : List ℕ)
    (wire rest : List UInt8) : Prop where
  queue : Queue cfg c (qf ++ endpoint)
  full : ∀ i ∈ qf, (c.buffhds i).state = .full
  busy : ∀ i ∈ endpoint, (c.buffhds i).state = .busy
  carries : Carries c wire qf rest
  left_dvd : 2 ^ curlun.blkbits ∣ v.amountLeftToReq
  asked_dvd : ∀ i ∈ qf ++ endpoint, 2 ^ curlun.blkbits ∣ (c.buffhds i).bulkOutIntendedLength

/-- Nothing has got in the way: all that is to be written is in the buffers, to be asked for, or being
copied, and the file has place for it. -/
structure Exact (curlun : FsgLun) (c : FsgCommon) (v : Vars) (amount : ℕ) (qf endpoint : List ℕ) :
    Prop where
  covered : asked c (qf ++ endpoint) + v.amountLeftToReq + amount = v.amountLeftToWrite
  room : v.fileOffset + v.amountLeftToWrite ≤ curlun.fileLength
  usb : v.usbOffset + v.amountLeftToReq = v.fileOffset + v.amountLeftToWrite
  more : v.getSomeMore = false → v.amountLeftToReq = 0
  whole : ∀ i ∈ qf, (c.buffhds i).status = 0 ∧
    (c.buffhds i).actual = (c.buffhds i).bulkOutIntendedLength

/-- The data `rest` is on its way, behind `amount` bytes that are being copied; or, unless nothing has
got in the way, the file is full. -/
def Flowing (quiet : Prop) (cfg : Config) (curlun : FsgLun) (c : FsgCommon) (v : Vars) (amount : ℕ)
    (endpoint : List ℕ) (wire rest : List UInt8) : Prop :=
  (¬ quiet ∧ NoRoom curlun v amount) ∨
    ∃ qf, Flow cfg curlun c v qf endpoint wire rest ∧
      (quiet → Exact curlun c v amount qf endpoint)

/-- What the place of the main thread says when `n` bytes of `data` have been accounted for. -/
def Flows (quiet : Prop) (cfg : Config) (curlun : FsgLun) (size : ℕ) (data : List UInt8) (n : ℕ)
    (c : FsgCommon) (endpoint : List ℕ) (wire : List UInt8) : MainPc → Prop
  | .idle => quiet → n = size
  | .loop v => Flowing quiet cfg curlun c v 0 endpoint wire (data.drop n)
  | .copying v bh amount =>
    slice bh.buf 0 amount = (data.drop n).take amount ∧ amount ≤ (data.drop n).length ∧
      ((¬ quiet ∧ bh.actual < bh.bulkOutIntendedLength) ∨
        (¬ bh.actual < bh.bulkOutIntendedLength ∧
          Flowing quiet cfg curlun c v amount endpoint wire (data.drop (n + amount))))
  | _ => False

section Flow

variable {quiet : Prop} {cfg : Config} {curlun : FsgLun} {c₀ c : FsgCommon} {v : Vars} {n : ℕ}
  {q endpoint : List ℕ} {data wire : List UInt8} {env : Env}

theorem queued_of_eq {c' : FsgCommon} (h : c'.buffhds = c.buffhds) : queued c c' = [] := by
  unfold queued
  rw [h]
  cases (c.buffhds c.nextBuffhdToFill).state <;> rfl

theorem Flowing.queueRequest (h : Flowing quiet cfg curlun c v 0 endpoint wire (data.drop n))
    (howed : Owed cfg curlun c₀ c v n 0 q) (hbuf : 2 ^ curlun.blkbits ∣ fsgBuflen)
    (hempty : (c.buffhds c.nextBuffhdToFill).state = .empty) (hmore : v.getSomeMore = true)
    (henv : quiet → env.started = true) (size : ℕ) :
    Flows quiet cfg curlun size data n (queueRequest cfg env curlun c v).1
      (endpoint ++ queued c (queueRequest cfg env curlun c v).1) wire
      (queueRequest cfg env curlun c v).2 := by
  have hmin := Nat.min_le_left v.amountLeftToReq fsgBuflen
  have hleft : sub32 v.amountLeftToReq (min v.amountLeftToReq fsgBuflen) =
      v.amountLeftToReq - min v.amountLeftToReq fsgBuflen :=
    sub32_of_le hmin (Nat.lt_of_le_of_lt howed.req_le howed.usb_lt)
  unfold Gadget.queueRequest
  by_cases hend : curlun.fileLength ≤ v.usbOffset
  · simp only [if_pos hend, queued_of_eq, List.append_nil]
    rcases h with hroom | ⟨qf, hf, he⟩
    · exact Or.inl hroom
    · refine Or.inr ⟨qf, ⟨hf.queue, hf.full, hf.busy, hf.carries, hf.left_dvd, hf.asked_dvd⟩,
        fun hq => ?_⟩
      obtain ⟨h1, h2, h3, -, h5⟩ := he hq
      exact ⟨h1, h2, h3, fun _ => by simp only; omega, h5⟩
  simp only [if_neg hend]
  by_cases hst : env.started = true
  swap
  · simp only [hst, Bool.not_false, if_true]
    exact fun hq => absurd (henv hq) hst
  simp only [hst, Bool.not_true, Bool.false_eq_true, if_false, hleft]
  rcases h with ⟨hq, hroom⟩ | ⟨qf, hf, he⟩
  · exact Or.inl ⟨hq, hroom⟩
  have hused := hf.queue.used
  obtain ⟨bh, hbh⟩ : ∃ bh, bh = { c.buffhds c.nextBuffhdToFill with
      bulkOutIntendedLength := min v.amountLeftToReq fsgBuflen
      intended_le := Nat.min_le_right _ _
      state := .busy } := ⟨_, rfl⟩
  obtain ⟨c', hc'⟩ : ∃ c', c' = { ({ c with
      usbAmountLeft := sub32 c.usbAmountLeft (min v.amountLeftToReq fsgBuflen) }).setBuffhd
        c.nextBuffhdToFill bh with nextBuffhdToFill := cfg.next c.nextBuffhdToFill } := ⟨_, rfl⟩
  have hself : c'.buffhds c.nextBuffhdToFill = bh := by
    rw [hc']
    exact FsgCommon.setBuffhd_self _ _ _
  have hother : ∀ i ∈ qf ++ endpoint, c'.buffhds i = c.buffhds i := by
    intro i hi
    have hne : i ≠ c.nextBuffhdToFill := fun heq => hused i hi (heq ▸ hempty)
    rw [hc']
    exact FsgCommon.setBuffhd_of_ne _ bh hne
  have hqueued : queued c c' = [c.nextBuffhdToFill] := by
    unfold queued
    rw [hempty, hself, hbh]
  have hbusy : bh.state ≠ .empty := by simp [hbh]
  obtain ⟨hqueue, hasked⟩ := hf.queue.push c' hempty hbusy
    (by rw [hc']; rfl) (by rw [hc']; rfl) (by rw [hc'])
  rw [← hbh, ← hc', hqueued]
  rw [List.append_assoc] at hqueue hasked
  have hdvd : 2 ^ curlun.blkbits ∣ min v.amountLeftToReq fsgBuflen := by
    rcases Nat.le_total v.amountLeftToReq fsgBuflen with hle | hle
    · rw [Nat.min_eq_left hle]
      exact hf.left_dvd
    · rw [Nat.min_eq_right hle]
      exact hbuf
  refine Or.inr ⟨qf, ⟨hqueue, fun i hi => ?_, fun i hi => ?_, ?_, Nat.dvd_sub hf.left_dvd hdvd,
    fun i hi => ?_⟩, fun hq => ?_⟩
  · rw [hother i (List.mem_append_left _ hi)]
    exact hf.full i hi
  · rcases List.mem_append.mp hi with hi | hi
    · rw [hother i (List.mem_append_right _ hi)]
      exact hf.busy i hi
    · rw [List.mem_singleton.mp hi, hself, hbh]
  · exact hf.carries.congr fun i hi => hother i (List.mem_append_left _ hi)
  · rw [← List.append_assoc] at hi
    rcases List.mem_append.mp hi with hi | hi
    · rw [hother i hi]
      exact hf.asked_dvd i hi
    · rw [List.mem_singleton.mp hi, hself, hbh]
      exact hdvd
  · obtain ⟨h1, h2, h3, -, h5⟩ := he hq
    refine ⟨?_, h2, by simp only; omega, fun hfalse => ?_, fun i hi => ?_⟩
    · rw [hasked, hbh]
      simp only
      omega
    · by_contra hne
      simp only [if_neg hne, hmore] at hfalse
      cases hfalse
    · rw [hother i (List.mem_append_left _ hi)]
      exact h5 i hi

theorem Flow.head {qf : List ℕ} {rest : List UInt8}
    (h : Flow cfg curlun c v qf endpoint wire rest)
    (hfull : (c.buffhds c.nextBuffhdToDrain).state = .full) :
    ∃ qf', qf = c.nextBuffhdToDrain :: qf' := by
  obtain ⟨q', hq'⟩ := h.queue.head_eq (by simp [hfull])
  cases qf with
  | nil =>
    obtain rfl : endpoint = c.nextBuffhdToDrain :: q' := hq'
    have := h.busy _ List.mem_cons_self
    rw [hfull] at this
    cases this
  | cons i qf' =>
    obtain rfl : i = c.nextBuffhdToDrain := (List.cons.inj hq').1
    exact ⟨qf', rfl⟩

/-- The common data behind the draining of a buffer. -/
def drained (cfg : Config) (c : FsgCommon) : FsgCommon :=
  { c.setBuffhd c.nextBuffhdToDrain { c.buffhds c.nextBuffhdToDrain with state := .empty } with
    nextBuffhdToDrain := cfg.next c.nextBuffhdToDrain }

theorem Flow.pop {qf : List ℕ} {rest rest' : List UInt8}
    (h : Flow cfg curlun c v (c.nextBuffhdToDrain :: qf) endpoint wire rest)
    (hrest : Carries c wire qf rest') :
    Flow cfg curlun (drained cfg c) v qf endpoint wire rest' ∧
      asked (drained cfg c) (qf ++ endpoint) = asked c (qf ++ endpoint) ∧
      ∀ i ∈ qf, (drained cfg c).buffhds i = c.buffhds i := by
  obtain ⟨hqueue, hasked⟩ := Queue.pop (drained cfg c) (q := qf ++ endpoint) h.queue rfl rfl rfl rfl
  have hnot := (List.nodup_cons.mp h.queue.nodup).1
  have hother : ∀ i ∈ qf ++ endpoint, (drained cfg c).buffhds i = c.buffhds i := fun i hi =>
    FsgCommon.setBuffhd_of_ne c _ fun heq => hnot (heq ▸ hi)
  have hleft : ∀ i ∈ qf, (drained cfg c).buffhds i = c.buffhds i :=
    fun i hi => hother i (List.mem_append_left _ hi)
  refine ⟨⟨hqueue, fun i hi => ?_, fun i hi => ?_, hrest.congr hleft, h.left_dvd, fun i hi => ?_⟩,
    hasked, hleft⟩
  · rw [hleft i hi]
    exact h.full i (List.mem_cons_of_mem _ hi)
  · rw [hother i (List.mem_append_right _ hi)]
    exact h.busy i hi
  · rw [hother i hi]
    exact h.asked_dvd i (List.mem_cons_of_mem _ hi)

theorem Flowing.drainBuffer (h : Flowing quiet cfg curlun c v 0 endpoint wire (data.drop n))
    (howed : Owed cfg curlun c₀ c v n 0 q)
    (hfull : (c.buffhds c.nextBuffhdToDrain).state = .full) (size : ℕ) :
    Flows quiet cfg curlun size data n (drainBuffer cfg curlun c v).1 endpoint wire
      (drainBuffer cfg curlun c v).2 := by
  have hoff : v.fileOffset ≤ curlun.fileLength := by simpa using howed.offset_le
  unfold Gadget.drainBuffer
  simp only
  rw [← drained]
  obtain ⟨bh, hbh⟩ : ∃ bh, bh = c.buffhds c.nextBuffhdToDrain := ⟨_, rfl⟩
  rw [← hbh]
  rcases h with ⟨hq, hroom⟩ | ⟨qf, hf, he⟩
  · have h0 : amountOf curlun v bh = 0 := amountOf_noRoom hroom hoff
    simp only [h0, if_true]
    unfold emptyWrite
    split_ifs
    · exact fun hquiet => absurd hquiet hq
    · exact fun hquiet => absurd hquiet hq
    · exact Or.inl ⟨hq, hroom⟩
  obtain ⟨qf', rfl⟩ := hf.head hfull
  have hmem : c.nextBuffhdToDrain ∈ c.nextBuffhdToDrain :: qf' := List.mem_cons_self
  by_cases hst : bh.status = 0
  swap
  · rw [if_pos hst]
    refine fun hquiet => absurd ((he hquiet).whole _ hmem).1 ?_
    rwa [← hbh]
  rw [if_neg (not_not.mpr hst)]
  obtain ⟨hle, rest', hrest, hmore⟩ := hf.carries.resolve_left (by rw [← hbh]; exact not_not.mpr hst)
  rw [← hbh] at hle hrest
  obtain ⟨hf', hasked, hsame⟩ := hf.pop hmore
  have hcons : asked c (c.nextBuffhdToDrain :: (qf' ++ endpoint)) =
      bh.bulkOutIntendedLength + asked c (qf' ++ endpoint) := by simp [asked, hbh]
  have hdvd : 2 ^ curlun.blkbits ∣ bh.bulkOutIntendedLength := by
    rw [hbh]
    exact hf.asked_dvd _ List.mem_cons_self
  have hwhole : quiet → bh.actual = bh.bulkOutIntendedLength ∧ amountOf curlun v bh = bh.actual := by
    intro hq
    have hexact := he hq
    have hw := (hexact.whole _ hmem).2
    rw [← hbh] at hw
    refine ⟨hw, (amountOf_whole hoff hw hdvd).resolve_right fun hclip => ?_⟩
    have h1 := hexact.covered
    have h2 := hexact.room
    rw [List.cons_append, hcons] at h1
    omega
  -- the rest of the data, unless the packet was short
  have hflow : ¬ bh.actual < bh.bulkOutIntendedLength →
      Flowing quiet cfg curlun (drained cfg c) v (amountOf curlun v bh) endpoint wire
        (data.drop (n + amountOf curlun v bh)) := by
    intro hshort
    by_cases hclip : amountOf curlun v bh = bh.actual
    · have hdrop : data.drop (n + amountOf curlun v bh) = rest' := by
        rw [hclip, ← List.drop_drop, hrest, List.drop_left' (length_slice _ _ _)]
      rw [hdrop]
      refine Or.inr ⟨qf', hf', fun hq => ?_⟩
      obtain ⟨h1, h2, h3, h4, h5⟩ := he hq
      rw [List.cons_append, hcons] at h1
      have := (hwhole hq).1
      refine ⟨by rw [hasked]; omega, h2, h3, h4, fun i hi => ?_⟩
      rw [hsame i hi]
      exact h5 i (List.mem_cons_of_mem _ hi)
    · refine Or.inl ⟨fun hq => hclip (hwhole hq).2, ?_⟩
      exact ((amountOf_whole hoff (by omega) hdvd).resolve_left hclip).2
  by_cases h0 : amountOf curlun v bh = 0
  · rw [if_pos h0]
    unfold emptyWrite
    split_ifs with hshort
    · exact fun hq => absurd (hwhole hq).1 (by omega)
    · have := hflow hshort
      rw [h0, Nat.add_zero] at this
      exact this
  · rw [if_neg h0]
    have hamount := amountOf_le_actual hoff hle
    refine ⟨?_, ?_, ?_⟩
    · rw [hrest, List.take_append_of_le_length (by rw [length_slice]; exact hamount), take_slice,
        Nat.min_eq_left hamount]
    · rw [hrest, List.length_append, length_slice]
      omega
    · by_cases hshort : bh.actual < bh.bulkOutIntendedLength
      · exact Or.inl ⟨fun hq => absurd (hwhole hq).1 (by omega), hshort⟩
      · exact Or.inr ⟨hshort, hflow hshort⟩

theorem queued_drainBuffer (cfg : Config) (curlun : FsgLun) (c : FsgCommon) (v : Vars) :
    queued c (drainBuffer cfg curlun c v).1 = [] := by
  have hdrained : queued c (drained cfg c) = [] := by
    unfold queued drained FsgCommon.setBuffhd
    by_cases heq : c.nextBuffhdToFill = c.nextBuffhdToDrain
    · simp [heq]
    · simp only [if_neg heq]
      cases (c.buffhds c.nextBuffhdToFill).state <;> rfl
  unfold Gadget.drainBuffer
  simp only
  rw [← drained]
  split_ifs
  · exact hdrained
  · unfold emptyWrite
    split_ifs <;> exact hdrained
  · exact hdrained

theorem Flowing.round (h : Flowing quiet cfg curlun c v 0 endpoint wire (data.drop n))
    (howed : Owed cfg curlun c₀ c v n 0 q) (hbuf : 2 ^ curlun.blkbits ∣ fsgBuflen)
    (henv : quiet → env.started = true ∧ env.sleepRc = 0) :
    Flows quiet cfg curlun c₀.dataSizeFromCmnd data n (hardlogWriteRound cfg env curlun c v).1
      (endpoint ++ queued c (hardlogWriteRound cfg env curlun c v).1) wire
      (hardlogWriteRound cfg env curlun c v).2 := by
  have hwritten := howed.written
  unfold hardlogWriteRound
  by_cases h0 : v.amountLeftToWrite = 0
  · rw [if_pos h0]
    exact fun _ => by omega
  rw [if_neg h0]
  split
  · next hempty hmore =>
    exact h.queueRequest howed hbuf hempty hmore (fun hq => (henv hq).1) _
  · split
    · next hempty hmore =>
      intro hq
      obtain ⟨hn, -⟩ | ⟨qf, hf, he⟩ := h
      · exact absurd hq hn
      have hnil : qf ++ endpoint = [] := by
        by_contra hne
        obtain ⟨i, q', hiq⟩ := List.exists_cons_of_ne_nil hne
        have hpath := hf.queue.path
        rw [hiq] at hpath
        refine hf.queue.used i (by rw [hiq]; exact List.mem_cons_self) ?_
        rw [← hpath.1]
        exact hempty
      have hcov := (he hq).covered
      rw [hnil, (he hq).more hmore] at hcov
      simp [asked] at hcov
      omega
    · next hfull =>
      have hdrain := h.drainBuffer howed hfull c₀.dataSizeFromCmnd
      rwa [← List.append_nil endpoint, ← queued_drainBuffer cfg curlun c v] at hdrain
    · split_ifs with hrc
      · exact fun hq => absurd (henv hq).2 hrc
      · rw [queued_of_eq rfl, List.append_nil]
        exact h

theorem hardlogWriteRest_cases (env : Env) (c : FsgCommon) (v : Vars) (bh : FsgBuffhd)
    (amount : ℕ) :
    ((env.signal = true ∨ bh.actual < bh.bulkOutIntendedLength) ∧
      (hardlogWriteRest env c v bh amount).2 = .idle) ∨
    (¬ bh.actual < bh.bulkOutIntendedLength ∧
      ∃ residue, hardlogWriteRest env c v bh amount = ({ c with residue }, .loop { v with
        fileOffset := v.fileOffset + amount
        amountLeftToWrite := sub32 v.amountLeftToWrite amount })) := by
  unfold hardlogWriteRest emptyWrite
  split_ifs with hsig hshort
  · exact Or.inl ⟨Or.inl hsig, rfl⟩
  · exact Or.inl ⟨Or.inr hshort, rfl⟩
  · exact Or.inr ⟨hshort, _, rfl⟩

theorem Flowing.copied {amount residue : ℕ} {rest : List UInt8} {v' : Vars}
    (h : Flowing quiet cfg curlun c v amount endpoint wire rest)
    (hoff : v'.fileOffset = v.fileOffset + amount) (husb : v'.usbOffset = v.usbOffset)
    (hleft : v'.amountLeftToReq = v.amountLeftToReq) (hmore : v'.getSomeMore = v.getSomeMore)
    (hwrite : v'.amountLeftToWrite + amount = v.amountLeftToWrite) :
    Flowing quiet cfg curlun { c with residue } v' 0 endpoint wire rest := by
  rcases h with ⟨hq, hroom⟩ | ⟨qf, hf, he⟩
  · refine Or.inl ⟨hq, ?_⟩
    unfold NoRoom at hroom ⊢
    omega
  · have hsame : asked { c with residue } (qf ++ endpoint) = asked c (qf ++ endpoint) := rfl
    refine Or.inr ⟨qf, ⟨⟨hf.queue.path, hf.queue.nodup, hf.queue.used, hf.queue.unused⟩, hf.full,
      hf.busy, hf.carries.congr fun _ _ => rfl, hleft ▸ hf.left_dvd, hf.asked_dvd⟩, fun hq => ?_⟩
    obtain ⟨h1, h2, h3, h4, h5⟩ := he hq
    refine ⟨?_, ?_, ?_, fun hf => ?_, h5⟩
    · rw [hsame]
      omega
    · omega
    · omega
    · rw [hleft]
      exact h4 (hmore ▸ hf)

theorem Flows.rest {bh : FsgBuffhd} {amount : ℕ} {size : ℕ}
    (h : Flows quiet cfg curlun size data n c endpoint wire (.copying v bh amount))
    (howed : Owed cfg curlun c₀ c v n amount q) (hsize : c₀.dataSizeFromCmnd < 2 ^ 32)
    (henv : quiet → env.signal = false) :
    Flows quiet cfg curlun size data (n + amount) (hardlogWriteRest env c v bh amount).1
      (endpoint ++ queued c (hardlogWriteRest env c v bh amount).1) wire
      (hardlogWriteRest env c v bh amount).2 := by
  have hcov := howed.covered
  have hwritten := howed.written
  obtain ⟨-, -, hrest⟩ := h
  rcases hardlogWriteRest_cases env c v bh amount with ⟨hend, hidle⟩ | ⟨hshort, residue, heq⟩
  · rw [hidle]
    intro hq
    rcases hend with hsig | hshort
    · rw [henv hq] at hsig
      cases hsig
    · rcases hrest with ⟨hn, -⟩ | ⟨hn, -⟩
      · exact absurd hq hn
      · exact absurd hshort hn
  · have hsub : sub32 v.amountLeftToWrite amount = v.amountLeftToWrite - amount :=
      sub32_of_le (by omega) (by omega)
    obtain ⟨-, hflow⟩ := hrest.resolve_left fun hr => hshort hr.2
    have hqueued : queued c { c with residue } = [] := queued_of_eq rfl
    rw [heq, hsub]
    simp only [hqueued, List.append_nil]
    exact hflow.copied rfl rfl rfl rfl (by simp only; omega)

/-- **The first buffer of the endpoint** is received, or its transfer fails. -/
theorem Flowing.receive {i amount : ℕ} {bh : FsgBuffhd} {wire' rest : List UInt8}
    (h : Flowing quiet cfg curlun c v amount (i :: endpoint) wire rest) (hstate : bh.state = .full)
    (hlen : bh.bulkOutIntendedLength = (c.buffhds i).bulkOutIntendedLength)
    (hdata : bh.status ≠ 0 ∨ (bh.actual ≤ bh.bulkOutIntendedLength ∧
      wire = slice bh.buf 0 bh.actual ++ wire'))
    (hquiet : quiet → bh.status = 0 ∧ bh.actual = bh.bulkOutIntendedLength) :
    Flowing quiet cfg curlun (c.setBuffhd i bh) v amount endpoint wire' rest := by
  rcases h with hroom | ⟨qf, hf, he⟩
  · exact Or.inl hroom
  have hself := FsgCommon.setBuffhd_self c i bh
  have hnodup := hf.queue.nodup
  rw [List.nodup_append] at hnodup
  obtain ⟨-, hend, hdisj⟩ := hnodup
  have hqf : ∀ j ∈ qf, (c.setBuffhd i bh).buffhds j = c.buffhds j := fun j hj =>
    c.setBuffhd_of_ne bh (hdisj j hj i List.mem_cons_self)
  have hrest : ∀ j ∈ endpoint, (c.setBuffhd i bh).buffhds j = c.buffhds j := fun j hj =>
    c.setBuffhd_of_ne bh fun heq => (List.nodup_cons.mp hend).1 (heq ▸ hj)
  have hused : bh.state ≠ .empty := by simp [hstate]
  obtain ⟨hqueue, hasked⟩ := hf.queue.complete
    (hf.queue.used i (List.mem_append_right _ List.mem_cons_self)) hused hlen
  have hsplit : qf ++ i :: endpoint = (qf ++ [i]) ++ endpoint := by simp
  rw [hsplit] at hqueue hasked
  refine Or.inr ⟨qf ++ [i], ⟨hqueue, fun j hj => ?_, fun j hj => ?_, ?_, hf.left_dvd,
    fun j hj => ?_⟩, fun hq => ?_⟩
  · rcases List.mem_append.mp hj with hj | hj
    · rw [hqf j hj]
      exact hf.full j hj
    · rw [List.mem_singleton.mp hj, hself]
      exact hstate
  · rw [hrest j hj]
    exact hf.busy j (List.mem_cons_of_mem i hj)
  · refine hf.carries.snoc hqf ?_
    rw [hself]
    exact hdata
  · rw [← hsplit] at hj
    have hdvd := hf.asked_dvd j hj
    by_cases heq : j = i
    · rw [heq, hself, hlen, ← heq]
      exact hdvd
    · rwa [c.setBuffhd_of_ne bh heq]
  · obtain ⟨h1, h2, h3, h4, h5⟩ := he hq
    rw [hsplit] at h1
    refine ⟨by rw [hasked]; exact h1, h2, h3, h4, fun j hj => ?_⟩
    rcases List.mem_append.mp hj with hj | hj
    · rw [hqf j hj]
      exact h5 j hj
    · rw [List.mem_singleton.mp hj, hself]
      exact hquiet hq

end Flow

/-! ### One command -/

/-- The stream when `n` bytes of `data` have been accounted for: it has grown by these, and by those
that have just been copied. -/
def Taken (stream₀ data : List UInt8) (n : ℕ) (s : Store) : MainPc → Prop
  | .copying _ bh amount =>
    (s.writer = .idle ∧ s.stream = stream₀ ++ data.take (n + amount)) ∨
      (pending s.writer = some (slice bh.buf 0 amount) ∧ s.stream = stream₀ ++ data.take n)
  | _ => s.writer = .idle ∧ s.stream = stream₀ ++ data.take n

/-- The counters are right as long as the command runs; behind it, `residue` is at least what is
missing. -/
structure Settling (quiet : Prop) (cfg : Config) (curlun : FsgLun) (c₀ : FsgCommon) (n : ℕ)
    (c : FsgCommon) (pc : MainPc) : Prop where
  settles : quiet ∨ pc ≠ .idle → Settles cfg curlun c₀ n c pc
  residue_le : c₀.residue ≤ c.residue + n
  size_le : n ≤ c₀.dataSizeFromCmnd

theorem settling {quiet : Prop} {cfg : Config} {curlun : FsgLun} {c₀ c : FsgCommon} {n : ℕ}
    {pc : MainPc} (h : Settles cfg curlun c₀ n c pc) : Settling quiet cfg curlun c₀ n c pc := by
  have hexit : c.residue + n = c₀.residue ∧ n ≤ c₀.dataSizeFromCmnd := by
    cases pc with
    | idle => exact h
    | loop v =>
      obtain ⟨q, howed⟩ := h
      exact howed.exit
    | copying v bh amount =>
      obtain ⟨-, q, howed⟩ := h
      exact howed.exit
    | doWrite | oops => exact h.elim
  exact ⟨fun _ => h, hexit.1.ge, hexit.2⟩

/-- The invariant of a command that began in `s₀` with `data` on the wire. -/
def Inv (quiet : Prop) (cfg : Config) (curlun : FsgLun) (s₀ : GadgetState) (data : List UInt8)
    (s : BusState) : Prop :=
  ∃ n, Settling quiet cfg curlun s₀.common n s.gadget.common s.gadget.main ∧
    Flows quiet cfg curlun s₀.common.dataSizeFromCmnd data n s.gadget.common s.endpoint s.wire
      s.gadget.main ∧
    Taken s₀.store.stream data n s.gadget.store s.gadget.main

/-- The size of the command is a number of blocks, and that of a buffer too; and if nothing is to get
in the way, the sectors of the command are there. -/
structure Sized (quiet : Prop) (curlun : FsgLun) (s : GadgetState) (v : Vars) : Prop where
  buflen_dvd : 2 ^ curlun.blkbits ∣ fsgBuflen
  size_dvd : 2 ^ curlun.blkbits ∣ s.common.dataSizeFromCmnd
  room : quiet → v.fileOffset + s.common.dataSizeFromCmnd ≤ curlun.fileLength

section Command

variable {quiet : Prop} {cfg : Config} {curlun : FsgLun} {s₀ : GadgetState} {data : List UInt8}
  {s s' : BusState} {v₀ : Vars}

theorem inv_start (h0 : Accepted cfg curlun s₀ v₀) (hs : Sized quiet curlun s₀ v₀) :
    Inv quiet cfg curlun s₀ data ⟨s₀, [], data⟩ := by
  obtain ⟨n, hset, -⟩ := h0.inv
  have hstart := h0.started
  unfold doHardlogWrite at hstart
  simp only at hstart
  split_ifs at hstart
  obtain rfl := MainPc.loop.inj hstart
  rw [h0.main] at hset
  have hset' := hset
  obtain ⟨q, howed⟩ := hset
  obtain rfl : n = 0 := by
    have := howed.written
    simp only at this
    omega
  obtain rfl : q = [] := List.eq_nil_iff_forall_not_mem.mpr fun i hi =>
    howed.queue.used i hi (h0.empty i)
  refine ⟨0, settling (by simpa only [h0.main] using hset'), ?_, ?_⟩
  · simp only [h0.main]
    refine Or.inr ⟨[], ⟨howed.queue, fun _ hi => (List.not_mem_nil hi).elim,
      fun _ hi => (List.not_mem_nil hi).elim, rfl, hs.size_dvd,
      fun _ hi => (List.not_mem_nil hi).elim⟩, fun hq => ?_⟩
    refine ⟨?_, hs.room hq, rfl, fun hf => (by cases hf), fun _ hi => (List.not_mem_nil hi).elim⟩
    simp [asked]
  · simp only [h0.main]
    exact ⟨h0.writer, by rw [List.take_zero, List.append_nil]⟩

theorem Inv.proceed {n : ℕ} {r : FsgCommon × MainPc} {g : GadgetState}
    (hset : Settling quiet cfg curlun s₀.common n r.1 r.2)
    (hflows : Flows quiet cfg curlun s₀.common.dataSizeFromCmnd data n r.1
      (s.endpoint ++ queued s.gadget.common r.1) s.wire r.2)
    (hw : s.gadget.store.writer = .idle)
    (hstream : s.gadget.store.stream = s₀.store.stream ++ data.take n)
    (hs : s.gadget.proceed r = some g) :
    Inv quiet cfg curlun s₀ data
      { s with gadget := g, endpoint := s.endpoint ++ queued s.gadget.common g.common } := by
  unfold GadgetState.proceed at hs
  obtain ⟨c, pc⟩ := r
  cases pc with
  | copying v bh amount =>
    simp only [Option.map_eq_some_iff] at hs
    obtain ⟨store, hstore, rfl⟩ := hs
    obtain ⟨-, rfl⟩ := chunk_cases hstore
    exact ⟨n, hset, hflows, Or.inr ⟨rfl, hstream⟩⟩
  | doWrite => exact hflows.elim
  | oops => exact hflows.elim
  | _ =>
    obtain rfl := Option.some.inj hs
    exact ⟨n, hset, hflows, hw, hstream⟩

theorem Taken.writer_step {stream₀ : List UInt8} {n amount : ℕ} {v : Vars} {bh : FsgBuffhd}
    {t t' : Store} (h : Taken stream₀ data n t (.copying v bh amount))
    (hdata : slice bh.buf 0 amount = (data.drop n).take amount) (hs : writerStep t = some t') :
    Taken stream₀ data n t' (.copying v bh amount) := by
  have hnot : t.writer ≠ .idle := by
    intro hw
    simp [writerStep, hw] at hs
  obtain ⟨hw, -⟩ | ⟨hpend, hstream⟩ := h
  · exact absurd hw hnot
  rcases writerStep_cases hs with ⟨d, hpc, rfl⟩ | ⟨d, hpc, -, rfl⟩ | ⟨d, i, hpc, rfl⟩ | ⟨d, hpc, rfl⟩
  · exact Or.inr ⟨hpend, hstream⟩
  · rw [hpc] at hpend
    exact Or.inr ⟨hpend, hstream⟩
  · rw [hpc] at hpend
    exact Or.inr ⟨hpend, hstream⟩
  · rw [hpc] at hpend
    obtain rfl := Option.some.inj hpend
    refine Or.inl ⟨rfl, ?_⟩
    simp only
    rw [hstream, hdata, List.append_assoc, List.take_add]

theorem flusherStep_stream (t : Store) (len : ℤ) : (flusherStep t len).stream = t.stream := by
  unfold flusherStep
  cases t.flusher with
  | readTail realEnd =>
    simp only
    split_ifs <;> rfl
  | normal realEnd fin start => simp only [fsWrite_frame]
  | wrapFirst realEnd fin start => simp only [fsWrite_frame]
  | wrapSecond realEnd fin => simp only [fsWrite_frame]
  | _ => rfl

theorem Inv.main_step (h0 : Accepted cfg curlun s₀ v₀) (hsized : Sized quiet curlun s₀ v₀)
    {env : Env} {g : GadgetState} (h : Inv quiet cfg curlun s₀ data s)
    (hu : quiet → Undisturbed s (.main env)) (hs : mainStep cfg env s.gadget = some g) :
    Inv quiet cfg curlun s₀ data
      { s with gadget := g, endpoint := s.endpoint ++ queued s.gadget.common g.common } := by
  obtain ⟨n, hset, hflows, htaken⟩ := h
  have hres := h0.residue_lt
  have hsize := h0.size_le
  unfold mainStep at hs
  split at hs
  · next v curlun' hpc hcur =>
    rw [hpc] at hset hflows htaken
    obtain ⟨q, howed⟩ := hset.settles (Or.inr (by simp))
    rw [howed.lun_eq, h0.luns_eq] at hcur
    obtain rfl := Option.some.inj hcur
    exact Inv.proceed (settling (howed.round env))
      (hflows.round howed hsized.buflen_dvd fun hq => ⟨(hu hq).1, (hu hq).2.2⟩)
      htaken.1 htaken.2 hs
  · next v bh amount curlun' hpc _ =>
    rw [hpc] at hset hflows htaken
    obtain ⟨hpos, q, howed⟩ := hset.settles (Or.inr (by simp))
    split at hs
    · next hw =>
      have hstream : s.gadget.store.stream = s₀.store.stream ++ data.take (n + amount) := by
        rcases htaken with ⟨-, hstream⟩ | ⟨hpend, -⟩
        · exact hstream
        · rw [hw] at hpend
          cases hpend
      refine Inv.proceed ?_ (hflows.rest howed (by omega) fun hq => (hu hq).2.1) hw hstream hs
      cases hsig : env.signal with
      | false => exact settling (howed.rest hres hsize hsig bh)
      | true =>
        -- the bytes that were copied are not taken from the residue
        have hcov := howed.covered
        have hwritten := howed.written
        have heq : hardlogWriteRest env s.gadget.common v bh amount = (s.gadget.common, .idle) := by
          simp [hardlogWriteRest, hsig]
        rw [heq]
        refine ⟨fun hne => ?_, ?_, by omega⟩
        · rcases hne with hq | hne
          · rw [(hu hq).2.1] at hsig
            cases hsig
          · exact absurd rfl hne
        · exact howed.residue_eq.ge.trans (Nat.add_le_add_left (Nat.le_add_right n amount) _)
    · obtain ⟨store, hstore, rfl⟩ := Option.map_eq_some_iff.mp hs
      have hqueued : queued s.gadget.common s.gadget.common = [] := queued_of_eq rfl
      simp only [hqueued, List.append_nil]
      refine ⟨n, ?_, ?_, ?_⟩
      · rw [hpc]
        exact settling ⟨hpos, q, howed⟩
      · rw [hpc]
        exact hflows
      · rw [hpc]
        exact htaken.writer_step hflows.1 hstore
  · next hpc =>
    rw [hpc] at hflows
    exact hflows.elim
  · cases hs

theorem Inv.receive {i : ℕ} {endpoint : List ℕ} {wire' : List UInt8} {bh : FsgBuffhd}
    (h : Inv quiet cfg curlun s₀ data s) (hend : s.endpoint = i :: endpoint)
    (hbusy : (s.gadget.common.buffhds i).state = .busy) (hstate : bh.state = .full)
    (hlen : bh.bulkOutIntendedLength = (s.gadget.common.buffhds i).bulkOutIntendedLength)
    (hdata : bh.status ≠ 0 ∨ (bh.actual ≤ bh.bulkOutIntendedLength ∧
      s.wire = slice bh.buf 0 bh.actual ++ wire'))
    (hquiet : quiet → bh.status = 0 ∧ bh.actual = bh.bulkOutIntendedLength) :
    Inv quiet cfg curlun s₀ data
      ⟨{ s.gadget with common := s.gadget.common.setBuffhd i bh }, endpoint, wire'⟩ := by
  obtain ⟨n, hset, hflows, htaken⟩ := h
  rw [hend] at hflows
  refine ⟨n, ⟨fun hne => (hset.settles hne).complete (by simp [hbusy]) (by simp [hstate]) hlen,
    hset.residue_le, hset.size_le⟩, ?_, htaken⟩
  cases hpc : s.gadget.main with
  | loop v =>
    rw [hpc] at hflows
    exact Flowing.receive hflows hstate hlen hdata hquiet
  | copying v bh' amount =>
    rw [hpc] at hflows
    obtain ⟨h1, h2, h3⟩ := hflows
    refine ⟨h1, h2, h3.imp_right fun h4 => ⟨h4.1, ?_⟩⟩
    exact Flowing.receive h4.2 hstate hlen hdata hquiet
  | _ =>
    rw [hpc] at hflows
    exact hflows

theorem Inv.step (h0 : Accepted cfg curlun s₀ v₀) (hsized : Sized quiet curlun s₀ v₀)
    {a : BusAction} (h : Inv quiet cfg curlun s₀ data s) (hu : quiet → Undisturbed s a)
    (hs : busStep cfg s a = some s') : Inv quiet cfg curlun s₀ data s' := by
  cases a with
  | main env =>
    obtain ⟨g, hg, rfl⟩ := Option.map_eq_some_iff.mp hs
    exact h.main_step h0 hsized hu hg
  | transfer k =>
    simp only [busStep] at hs
    split at hs
    · cases hs
    · next i endpoint hend =>
      obtain ⟨⟨hk, hwire⟩, hs⟩ := Option.ite_none_right_eq_some.mp hs
      obtain ⟨g, hg, rfl⟩ := Option.map_eq_some_iff.mp hs
      simp only [runStep, gadgetStep] at hg
      split at hg
      · next hbusy =>
        obtain rfl := Option.some.inj hg
        have hdata : slice (memcpy (s.gadget.common.buffhds i).buf 0 (s.wire.take k)) 0 k =
            s.wire.take k := by
          have hlen : (s.wire.take k).length = k := by
            rw [List.length_take]
            omega
          have hcopy := slice_memcpy (s.gadget.common.buffhds i).buf 0 (s.wire.take k)
          rwa [hlen] at hcopy
        refine h.receive hend hbusy rfl rfl (Or.inr ⟨hk, ?_⟩) fun hq => ⟨rfl, hu hq i endpoint hend⟩
        simp only [hdata, List.take_append_drop]
      · cases hg
  | fail status buf actual lost =>
    simp only [busStep] at hs
    split at hs
    · cases hs
    · next i endpoint hend =>
      obtain ⟨hstatus, hs⟩ := Option.ite_none_right_eq_some.mp hs
      obtain ⟨g, hg, rfl⟩ := Option.map_eq_some_iff.mp hs
      simp only [runStep, gadgetStep] at hg
      split at hg
      · next hbusy =>
        obtain rfl := Option.some.inj hg
        exact h.receive hend hbusy rfl rfl (Or.inl hstatus) fun hq => (hu hq).elim
      · cases hg
  | flusher len =>
    simp only [busStep, runStep, gadgetStep, storeStep, Option.map_some, Option.some.injEq] at hs
    subst hs
    obtain ⟨n, hset, hflows, htaken⟩ := h
    refine ⟨n, hset, hflows, ?_⟩
    have hwriter := (flusherStep_frame s.gadget.store len).2
    have hstream := flusherStep_stream s.gadget.store len
    unfold Taken at htaken ⊢
    simp only [hwriter, hstream]
    exact htaken
  | ioctl copied =>
    simp only [busStep, runStep, gadgetStep, Option.map_some, Option.some.injEq] at hs
    subst hs
    obtain ⟨hstore, hmain, hcommon⟩ := ioctlStep_frame s.gadget copied
    unfold Inv at h ⊢
    simp only [hstore, hmain, hcommon]
    exact h

theorem Inv.stream_eq (h : Inv quiet cfg curlun s₀ data s) :
    ∃ n, s.gadget.store.stream = s₀.store.stream ++ data.take n := by
  obtain ⟨n, -, -, htaken⟩ := h
  unfold Taken at htaken
  split at htaken
  · rcases htaken with ⟨-, hstream⟩ | ⟨-, hstream⟩
    · exact ⟨_, hstream⟩
    · exact ⟨_, hstream⟩
  · exact ⟨_, htaken.2⟩

/-- **A residue of zero**: the stream of a command that is over has grown by all of the data. -/
theorem Inv.whole (h0 : Accepted cfg curlun s₀ v₀) (h : Inv quiet cfg curlun s₀ data s)
    (hidle : s.gadget.main = .idle) (hzero : s.gadget.common.residue = 0) :
    s.gadget.store.stream = s₀.store.stream ++ data.take s₀.common.dataSizeFromCmnd := by
  obtain ⟨n, hset, -, htaken⟩ := h
  have hle := hset.residue_le
  have hge := hset.size_le
  have hres := h0.size_le
  rw [hidle] at htaken
  obtain rfl : n = s₀.common.dataSizeFromCmnd := by omega
  exact htaken.2

/-- **Nothing is lost, doubled or out of order**: in every state of every run of an accepted command of
whole blocks, whatever signals, errors and short packets come, the stream is what it was and then a
prefix of the data. -/
theorem prefix_of_reach (h0 : Accepted cfg curlun s₀ v₀)
    (hbuf : 2 ^ curlun.blkbits ∣ fsgBuflen) (hsize : 2 ^ curlun.blkbits ∣ s₀.common.dataSizeFromCmnd)
    (h : Reach (busStep cfg) (fun _ _ => True) ⟨s₀, [], data⟩ s) :
    ∃ n, s.gadget.store.stream = s₀.store.stream ++ data.take n := by
  have hsized : Sized False curlun s₀ v₀ := ⟨hbuf, hsize, False.elim⟩
  exact (h.inv (fun _ _ _ hi _ hs => hi.step h0 hsized False.elim hs) (inv_start h0 hsized)).stream_eq

/-- **All of the data** is in the stream, and accounted for, when a command of whole blocks to which
nothing happens has come to its end. -/
theorem all_of_reach (h0 : Accepted cfg curlun s₀ v₀)
    (hbuf : 2 ^ curlun.blkbits ∣ fsgBuflen) (hsize : 2 ^ curlun.blkbits ∣ s₀.common.dataSizeFromCmnd)
    (hroom : v₀.fileOffset + s₀.common.dataSizeFromCmnd ≤ curlun.fileLength)
    (h : Reach (busStep cfg) Undisturbed ⟨s₀, [], data⟩ s) (hidle : s.gadget.main = .idle) :
    s.gadget.store.stream = s₀.store.stream ++ data.take s₀.common.dataSizeFromCmnd ∧
      s.gadget.common.residue + s₀.common.dataSizeFromCmnd = s₀.common.residue := by
  have hsized : Sized True curlun s₀ v₀ := ⟨hbuf, hsize, fun _ => hroom⟩
  obtain ⟨n, hset, hflows, htaken⟩ := h.inv
    (fun _ _ _ hi hu hs => hi.step h0 hsized (fun _ => hu) hs) (inv_start h0 hsized)
  have hsettled := hset.settles (Or.inl trivial)
  rw [hidle] at hflows htaken hsettled
  obtain rfl := hflows trivial
  exact ⟨htaken.2, hsettled.1⟩

end Command

/-- The block of `blockStart`, and what the host has to send for it. -/
def blockBus : BusState := ⟨blockStart, [], List.replicate 512 65⟩

/-- The main thread is not in a command. -/
def isIdle (s : BusState) : Bool :=
  match s.gadget.main with
  | .idle => true
  | _ => false

theorem undisturbed_calm (s : BusState) : Undisturbed s (.main calm) := ⟨rfl, rfl, rfl⟩

theorem reach_block :
    ∃ s, Reach (busStep twoLuns) Undisturbed blockBus s ∧ s.gadget.main = .idle := by
  have hfirst : (runFrom (busStep twoLuns) blockBus [.main calm]).map
      (fun s => (s.endpoint, (s.gadget.common.buffhds 0).bulkOutIntendedLength)) =
        some ([0], 512) := by decide +kernel
  have hend : (runFrom (busStep twoLuns) blockBus ([.main calm] ++
      (.transfer 512 :: List.replicate 6 (.main calm)))).map isIdle = some true := by decide +kernel
  obtain ⟨s1, h1, hasked⟩ := Option.map_eq_some_iff.mp hfirst
  obtain ⟨hendpoint, hlen⟩ := Prod.mk.inj hasked
  obtain ⟨s, hs, hidle⟩ := Option.map_eq_some_iff.mp hend
  refine ⟨s, Reach.of_runFrom hs (EachStep.append ?_ h1 ?_), ?_⟩
  · exact EachStep.of_forall_mem (fun s a ha => List.mem_singleton.mp ha ▸ undisturbed_calm s) _
  · refine fun s2 _ => ⟨fun i endpoint hi => ?_, EachStep.of_forall_mem (fun s a ha => ?_) s2⟩
    · rw [hendpoint] at hi
      obtain ⟨rfl, -⟩ := List.cons.inj hi
      exact hlen.symm
    · rw [List.eq_of_mem_replicate ha]
      exact undisturbed_calm s
  · unfold isIdle at hidle
    split at hidle
    · assumption
    · cases hidle

/-- The block gets into the stream. -/
theorem all_block :
    ∃ s, Reach (busStep twoLuns) Undisturbed blockBus s ∧ s.gadget.main = .idle ∧
      s.gadget.store.stream = [] ++ (List.replicate 512 65).take 512 ∧
      s.gadget.common.residue + 512 = 512 := by
  obtain ⟨s, hreach, hidle⟩ := reach_block
  exact ⟨s, hreach, hidle, all_of_reach accepted_blockStart (by decide) (by decide) (by decide)
    hreach hidle⟩

/-- The block is copied and a signal is pending: the stream is a prefix of the block. -/
theorem prefix_signal :
    ∃ s, Reach (busStep twoLuns) (fun _ _ => True) blockBus s ∧ s.gadget.common.residue = 512 ∧
      s.gadget.store.cb.head = 512 ∧
      ∃ n, s.gadget.store.stream = [] ++ (List.replicate 512 65).take n := by
  have hend : (runFrom (busStep twoLuns) blockBus ([.main calm, .transfer 512] ++
      List.replicate 4 (.main calm) ++ [.main { calm with signal := true }])).map
        (fun s => (s.gadget.common.residue, s.gadget.store.cb.head)) = some (512, 512) := by
    decide +kernel
  obtain ⟨s, hs, hpair⟩ := Option.map_eq_some_iff.mp hend
  obtain ⟨hres, hhead⟩ := Prod.mk.inj hpair
  have hreach := Reach.of_runFrom hs (EachStep.of_forall (fun _ _ => trivial) _ _)
  exact ⟨s, hreach, hres, hhead, prefix_of_reach accepted_blockStart (by decide) (by decide) hreach⟩

end HardLog.Device.Transfer
