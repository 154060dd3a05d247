import HardLog.Device.Dispatch
import HardLog.Device.Reports
import HardLog.Device.Transfer

/-! # Command after command

The host sends what it has for the log in WRITE commands to LUN 0, one after the other, with writes to
other LUNs between them, and goes on with the log as long as the device reports a residue of zero.
`accepted_of_reach`: whatever gets in the way of any of these commands, what `do_hardlog_write` has
accepted are the bytes that the host was to send, in order; and while the host goes on, all that it has
sent. This is what `residue` is for: a command of which bytes were lost does not come out with zero
(`Inv.whole`). -/

namespace HardLog.Device.Commands

open HardLog.Lib.Runs HardLog.Lib.Refine HardLog.Device.Cbuff HardLog.Device.Gadget
open HardLog.Device.Accounting HardLog.Device.Reports HardLog.Device.Transfer
open HardLog.Device.AppendOnly (twoLuns writeBlock calm)

/-- Where the host is with the commands to LUN 0. -/
inductive Initiator where
  | ready
  | sending
  /-- A residue was not zero. -/
  | failed
  deriving DecidableEq

/-- The device with its bus, the bytes the host has not put into a command yet, and all that it was to
send. -/
structure LinkState where
  bus : BusState
  initiator : Initiator
  unsent : List UInt8
  submitted : List UInt8

/-- The host gets more to send, sends a command, or looks at the residue of the one that has ended; or
there is a step of the bus. -/
inductive LinkAction where
  | submit (data : List UInt8)
  | command (common : FsgCommon) (reply : ℤ)
  | status
  | bus (a : BusAction)

/-- The gadget has taken a command, which for LUN 0 has the next bytes behind it. -/
def LinkState.take (s : LinkState) (common : FsgCommon) (gadget : GadgetState) : Option LinkState :=
  if common.lun = 0 then
    if s.initiator = .ready ∧ common.dataSizeFromCmnd ≤ s.unsent.length then
      some
        { s with
          bus := ⟨gadget, [], s.unsent.take common.dataSizeFromCmnd⟩
          initiator := .sending
          unsent := s.unsent.drop common.dataSizeFromCmnd }
    else none
  else if s.initiator = .sending then none
  else some { s with bus := { s.bus with gadget } }

/-- A step. -/
def linkStep (cfg : Config) (s : LinkState) : LinkAction → Option LinkState
  | .submit data => some { s with unsent := s.unsent ++ data, submitted := s.submitted ++ data }
  | .command common reply =>
    (gadgetStep cfg s.bus.gadget (.command common reply)).bind (s.take common)
  | .status =>
    match s.initiator, s.bus.gadget.main with
    | .sending, .idle =>
      some { s with initiator := if s.bus.gadget.common.residue = 0 then .ready else .failed }
    | _, _ => none
  | .bus a => (busStep cfg s.bus a).map fun bus => { s with bus }

/-- The device before the first command. -/
def linkInit (garbage log : ℕ → UInt8) (lunFile : ℕ → ℕ → UInt8) (common : FsgCommon) : LinkState :=
  ⟨⟨gadgetInit garbage log lunFile common, [], []⟩, .ready, [], []⟩

/-- What the gadget finds with a command: no buffer in use, the counters at the length of the transfer,
whole blocks. -/
structure WellFormed (cfg : Config) (c : FsgCommon) : Prop where
  empty : ∀ i, (c.buffhds i).state = .empty
  drain_eq : c.nextBuffhdToDrain = c.nextBuffhdToFill
  residue_eq : c.residue = c.usbAmountLeft
  size_le : c.dataSizeFromCmnd ≤ c.residue
  residue_lt : c.residue < 2 ^ 32
  length_ge : ∀ curlun, cfg.luns c.lun = some curlun →
    (curlun.numSectors : ℤ) * 2 ^ curlun.blkbits ≤ curlun.fileLength
  buflen_dvd : ∀ curlun, cfg.luns c.lun = some curlun → 2 ^ curlun.blkbits ∣ fsgBuflen
  size_dvd : ∀ curlun, cfg.luns c.lun = some curlun → 2 ^ curlun.blkbits ∣ c.dataSizeFromCmnd

/-- The commands to LUN 0 are well formed. -/
def Formed (cfg : Config) : LinkAction → Prop
  | .command common _ => common.lun = 0 → WellFormed cfg common
  | _ => True

/-! ### Under the bus -/

/-- The step of the gadget in a step of the bus. -/
def Underlies : BusAction → Gadget.Action → Prop
  | .main env, a => a = .main env
  | .flusher len, a => a = .flusher len
  | .ioctl copied, a => a = .ioctl copied
  | .transfer _, a | .fail _ _ _ _, a => ∃ i buf status actual, a = .complete i buf status actual

section Steps

variable {cfg : Config} {s s' : LinkState}

theorem runStep_gadgetStep {g g' : GadgetState} {a : Gadget.Action} (h : runStep cfg g a = some g') :
    gadgetStep cfg g a = some g' := by
  unfold runStep at h
  split at h
  · cases h
  · exact h

/-- **A step of the bus** is one of the gadget. -/
theorem busStep_gadgetStep {b b' : BusState} {a : BusAction} (hs : busStep cfg b a = some b') :
    ∃ ga, Underlies a ga ∧ gadgetStep cfg b.gadget ga = some b'.gadget := by
  unfold busStep at hs
  cases a with
  | main env =>
    obtain ⟨g, hg, rfl⟩ := Option.map_eq_some_iff.mp hs
    exact ⟨_, rfl, runStep_gadgetStep hg⟩
  | flusher len =>
    obtain ⟨g, hg, rfl⟩ := Option.map_eq_some_iff.mp hs
    exact ⟨_, rfl, runStep_gadgetStep hg⟩
  | ioctl copied =>
    obtain ⟨g, hg, rfl⟩ := Option.map_eq_some_iff.mp hs
    exact ⟨_, rfl, runStep_gadgetStep hg⟩
  | transfer | fail =>
    simp only at hs
    split at hs
    · cases hs
    · obtain ⟨-, hs⟩ := Option.ite_none_right_eq_some.mp hs
      obtain ⟨g, hg, rfl⟩ := Option.map_eq_some_iff.mp hs
      exact ⟨_, ⟨_, _, _, _, rfl⟩, runStep_gadgetStep hg⟩

/-! ### Beside the commands to the log -/

/-- The main thread is not in `do_hardlog_write`. -/
def AtRest (g : GadgetState) : Prop :=
  g.store.writer = .idle ∧
    match g.main with
    | .loop _ | .copying _ _ _ => False
    | .doWrite => g.common.lun ≠ 0
    | _ => True

theorem AtRest.busStep {b b' : BusState} {a : BusAction} (h : AtRest b.gadget)
    (hs : busStep cfg b a = some b') : AtRest b'.gadget ∧
      b'.gadget.store.stream = b.gadget.store.stream ∧
      b'.gadget.common.residue = b.gadget.common.residue := by
  obtain ⟨ga, hunder, hg⟩ := busStep_gadgetStep hs
  generalize b'.gadget = g at hg ⊢
  have ⟨hw, hpc⟩ := h
  cases a with
  | main env =>
    obtain rfl := hunder
    simp only [gadgetStep, mainStep] at hg
    cases hmain : b.gadget.main with
    | loop | copying =>
      rw [hmain] at hpc
      exact hpc.elim
    | doWrite =>
      rw [hmain] at hpc
      simp only [hmain, Option.some.injEq] at hg
      subst hg
      unfold doWriteStep
      simp only [if_neg hpc]
      split_ifs
      · exact ⟨⟨hw, by simp only [hmain]; exact hpc⟩, rfl, rfl⟩
      · split <;> exact ⟨⟨hw, trivial⟩, rfl, rfl⟩
    | idle | oops =>
      simp only [hmain] at hg
      cases hg
  | flusher len =>
    obtain rfl := hunder
    simp only [gadgetStep, storeStep, Option.map_some, Option.some.injEq] at hg
    subst hg
    exact ⟨⟨(flusherStep_frame b.gadget.store len).2.trans hw, hpc⟩, flusherStep_stream _ _, rfl⟩
  | ioctl copied =>
    obtain rfl := hunder
    obtain rfl := Option.some.inj hg
    obtain ⟨hstore, hmain, hcommon⟩ := ioctlStep_frame b.gadget copied
    unfold AtRest
    rw [hstore, hmain, hcommon]
    exact ⟨⟨hw, hpc⟩, rfl, rfl⟩
  | transfer | fail =>
    obtain ⟨i, buf, status, actual, rfl⟩ := hunder
    simp only [gadgetStep] at hg
    split at hg
    · obtain rfl := Option.some.inj hg
      exact ⟨h, rfl, rfl⟩
    · cases hg

/-! ### The commands to the log -/

/-- Where a WRITE goes: to the loop if it is to LUN 0 and passes the checks, to `do_write` if it is not
to LUN 0, or nowhere. -/
theorem doScsiCommand_cases (hfast : cfg.faststorage = true) (c : FsgCommon) (reply : ℤ) :
    (∃ curlun v, c.lun = 0 ∧ cfg.luns c.lun = some curlun ∧ doHardlogWrite c curlun = .loop v ∧
      doScsiCommand cfg c reply = .loop v) ∨
    (c.lun ≠ 0 ∧ doScsiCommand cfg c reply = .doWrite) ∨ doScsiCommand cfg c reply = .idle ∨
      doScsiCommand cfg c reply = .oops := by
  unfold doScsiCommand
  cases hl : cfg.luns c.lun with
  | none => exact Or.inr (Or.inr (Or.inr rfl))
  | some curlun =>
    have hname := Dispatch.name_eq_lun0_iff hl
    by_cases hreply : reply = 0
    swap
    · simp only [if_neg hreply]
      exact Or.inr (Or.inr (Or.inl trivial))
    by_cases h0 : c.lun = 0
    · have hcond : (cfg.faststorage && curlun.name == "lun0") = true := by
        simp [hfast, hname.mpr h0]
      simp only [if_pos hreply, hcond, if_true]
      cases hpc : doHardlogWrite c curlun with
      | loop v => exact Or.inl ⟨curlun, v, h0, rfl, hpc, rfl⟩
      | idle => exact Or.inr (Or.inr (Or.inl rfl))
      | _ =>
        unfold doHardlogWrite at hpc
        simp only at hpc
        split_ifs at hpc
    · have hcond : (cfg.faststorage && curlun.name == "lun0") = false := by
        simp [hfast, hname, h0]
      simp only [if_pos hreply, hcond, Bool.false_eq_true, if_false]
      exact Or.inr (Or.inl ⟨h0, trivial⟩)

/-- A command to the log is in the loop, or has been. -/
def UnderWay (cfg : Config) (s : LinkState) : Prop :=
  ∃ curlun s₀ v₀ data, Accepted cfg curlun s₀ v₀ ∧ 2 ^ curlun.blkbits ∣ fsgBuflen ∧
    2 ^ curlun.blkbits ∣ s₀.common.dataSizeFromCmnd ∧ data.length = s₀.common.dataSizeFromCmnd ∧
    s₀.store.stream ++ data ++ s.unsent = s.submitted ∧ Transfer.Inv False cfg curlun s₀ data s.bus

/-- A command to the log has not passed the checks. -/
def Refused (s : LinkState) : Prop :=
  AtRest s.bus.gadget ∧ ∃ data, s.bus.gadget.store.stream ++ data ++ s.unsent = s.submitted ∧
    data.length ≤ s.bus.gadget.common.residue

/-- What the device has of what the host was to send. -/
def LinkInv (cfg : Config) (s : LinkState) : Prop :=
  match s.initiator with
  | .ready => AtRest s.bus.gadget ∧ s.bus.gadget.store.stream ++ s.unsent = s.submitted
  | .sending => UnderWay cfg s ∨ Refused s
  | .failed => AtRest s.bus.gadget ∧ s.bus.gadget.store.stream <+: s.submitted

theorem linkInit_inv (garbage log : ℕ → UInt8) (lunFile : ℕ → ℕ → UInt8) (common : FsgCommon) :
    LinkInv cfg (linkInit garbage log lunFile common) :=
  ⟨⟨rfl, trivial⟩, rfl⟩

theorem LinkInv.command (hfast : cfg.faststorage = true) {common : FsgCommon} {reply : ℤ}
    (h : LinkInv cfg s) (hformed : Formed cfg (.command common reply))
    (hs : linkStep cfg s (.command common reply) = some s') : LinkInv cfg s' := by
  obtain ⟨g, hg, hs⟩ := Option.bind_eq_some_iff.mp hs
  simp only [gadgetStep] at hg
  split at hg
  swap
  · cases hg
  obtain ⟨-, hg⟩ := Option.ite_none_right_eq_some.mp hg
  obtain rfl := Option.some.inj hg
  have hcases := doScsiCommand_cases hfast common reply
  unfold LinkState.take at hs
  by_cases h0 : common.lun = 0
  · rw [if_pos h0] at hs
    obtain ⟨⟨hready, hle⟩, hs⟩ := Option.ite_none_right_eq_some.mp hs
    obtain rfl := Option.some.inj hs
    have hwf := hformed h0
    unfold LinkInv at h ⊢
    simp only [hready] at h ⊢
    obtain ⟨⟨hw, -⟩, hstream⟩ := h
    have hsplit : s.bus.gadget.store.stream ++ s.unsent.take common.dataSizeFromCmnd ++
        s.unsent.drop common.dataSizeFromCmnd = s.submitted := by
      rw [List.append_assoc, List.take_append_drop, hstream]
    have hlen : (s.unsent.take common.dataSizeFromCmnd).length = common.dataSizeFromCmnd :=
      List.length_take_of_le hle
    rcases hcases with ⟨curlun, v, -, hlun, hloop, hpc⟩ | ⟨hne, -⟩ | hpc | hpc
    · have hacc : Accepted cfg curlun { s.bus.gadget with
          common, main := doScsiCommand cfg common reply } v :=
        ⟨hlun, hloop, hpc, hw, hwf.empty, hwf.drain_eq, hwf.residue_eq, hwf.size_le, hwf.residue_lt,
          hwf.length_ge curlun hlun⟩
      have hbuf := hwf.buflen_dvd curlun hlun
      have hsize := hwf.size_dvd curlun hlun
      exact Or.inl ⟨curlun, _, v, _, hacc, hbuf, hsize, hlen, hsplit,
        inv_start hacc ⟨hbuf, hsize, False.elim⟩⟩
    · exact absurd h0 hne
    · exact Or.inr ⟨⟨hw, by simp only [hpc]⟩, _, hsplit, hlen.le.trans hwf.size_le⟩
    · exact Or.inr ⟨⟨hw, by simp only [hpc]⟩, _, hsplit, hlen.le.trans hwf.size_le⟩
  · rw [if_neg h0] at hs
    obtain ⟨hne, hs⟩ := Option.ite_none_left_eq_some.mp hs
    obtain rfl := Option.some.inj hs
    have hrest : s.bus.gadget.store.writer = .idle → AtRest { s.bus.gadget with
        common, main := doScsiCommand cfg common reply } := by
      intro hw
      refine ⟨hw, ?_⟩
      rcases hcases with ⟨_, _, h0', -⟩ | ⟨-, hpc⟩ | hpc | hpc
      · exact absurd h0' h0
      · simp only [hpc]
        exact h0
      · simp only [hpc]
      · simp only [hpc]
    unfold LinkInv at h ⊢
    cases hi : s.initiator with
    | ready | failed =>
      simp only [hi] at h ⊢
      exact ⟨hrest h.1.1, h.2⟩
    | sending => exact absurd hi hne

/-- **The residue** tells whether all was accepted. -/
theorem LinkInv.status (h : LinkInv cfg s) (hs : linkStep cfg s .status = some s') :
    LinkInv cfg s' := by
  simp only [linkStep] at hs
  split at hs
  swap
  · cases hs
  next hi hidle =>
  obtain rfl := Option.some.inj hs
  unfold LinkInv at h
  simp only [hi] at h
  have hrest : s.bus.gadget.store.writer = .idle → AtRest s.bus.gadget := fun hw =>
    ⟨hw, by rw [hidle]; trivial⟩
  rcases h with ⟨curlun, s₀, v₀, data, hacc, -, -, hlen, hsub, hinv⟩ | ⟨hr, data, hsub, hle⟩
  · have hw : s.bus.gadget.store.writer = .idle := by
      obtain ⟨n, -, -, htaken⟩ := hinv
      rw [hidle] at htaken
      exact htaken.1
    unfold LinkInv
    by_cases hzero : s.bus.gadget.common.residue = 0
    · simp only [if_pos hzero]
      have hstream := hinv.whole hacc hidle hzero
      rw [← hlen, List.take_length] at hstream
      exact ⟨hrest hw, by rw [hstream, hsub]⟩
    · simp only [if_neg hzero]
      obtain ⟨n, hstream⟩ := hinv.stream_eq
      refine ⟨hrest hw, ?_⟩
      rw [hstream, ← hsub, List.append_assoc, List.prefix_append_right_inj]
      exact (List.take_prefix n data).trans (List.prefix_append _ _)
  · unfold LinkInv
    by_cases hzero : s.bus.gadget.common.residue = 0
    · simp only [if_pos hzero]
      obtain rfl : data = [] := List.eq_nil_of_length_eq_zero (by omega)
      rw [List.append_nil] at hsub
      exact ⟨hr, hsub⟩
    · simp only [if_neg hzero]
      refine ⟨hr, ?_⟩
      rw [← hsub, List.append_assoc]
      exact List.prefix_append _ _

theorem LinkInv.bus (h : LinkInv cfg s) {a : BusAction} (hs : linkStep cfg s (.bus a) = some s') :
    LinkInv cfg s' := by
  obtain ⟨b, hb, rfl⟩ := Option.map_eq_some_iff.mp hs
  unfold LinkInv at h ⊢
  cases hi : s.initiator with
  | ready | failed =>
    simp only [hi] at h ⊢
    obtain ⟨hrest, hstream, -⟩ := h.1.busStep hb
    exact ⟨hrest, by rw [hstream]; exact h.2⟩
  | sending =>
    simp only [hi] at h ⊢
    rcases h with ⟨curlun, s₀, v₀, data, hacc, hbuf, hsize, hlen, hsub, hinv⟩ | ⟨hr, data, hsub, hle⟩
    · exact Or.inl ⟨curlun, s₀, v₀, data, hacc, hbuf, hsize, hlen, hsub,
        hinv.step hacc ⟨hbuf, hsize, False.elim⟩ False.elim hb⟩
    · obtain ⟨hrest, hstream, hres⟩ := hr.busStep hb
      exact Or.inr ⟨hrest, data, by rw [hstream]; exact hsub, by rw [hres]; exact hle⟩

theorem LinkInv.step (hfast : cfg.faststorage = true) (h : LinkInv cfg s) {a : LinkAction}
    (hformed : Formed cfg a) (hs : linkStep cfg s a = some s') : LinkInv cfg s' := by
  cases a with
  | submit data =>
    obtain rfl := Option.some.inj hs
    unfold LinkInv at h ⊢
    cases hi : s.initiator with
    | ready =>
      simp only [hi] at h ⊢
      exact ⟨h.1, by rw [← h.2, List.append_assoc]⟩
    | failed =>
      simp only [hi] at h ⊢
      exact ⟨h.1, h.2.trans (List.prefix_append _ _)⟩
    | sending =>
      simp only [hi] at h ⊢
      rcases h with ⟨curlun, s₀, v₀, sent, hacc, hbuf, hsize, hlen, hsub, hinv⟩ | ⟨hr, sent, hsub, hle⟩
      · exact Or.inl ⟨curlun, s₀, v₀, sent, hacc, hbuf, hsize, hlen,
          by rw [← hsub, List.append_assoc _ s.unsent], hinv⟩
      · exact Or.inr ⟨hr, sent, by rw [← hsub, List.append_assoc _ s.unsent], hle⟩
  | command common reply => exact h.command hfast hformed hs
  | status => exact h.status hs
  | bus a => exact h.bus hs

theorem LinkInv.stream_prefix (h : LinkInv cfg s) : s.bus.gadget.store.stream <+: s.submitted := by
  unfold LinkInv at h
  split at h
  · exact ⟨_, h.2⟩
  · rcases h with ⟨curlun, s₀, v₀, data, -, -, -, -, hsub, hinv⟩ | ⟨-, data, hsub, -⟩
    · obtain ⟨n, hstream⟩ := hinv.stream_eq
      rw [hstream, ← hsub, List.append_assoc, List.prefix_append_right_inj]
      exact (List.take_prefix n data).trans (List.prefix_append _ _)
    · rw [← hsub, List.append_assoc]
      exact List.prefix_append _ _
  · exact h.2

theorem linkInv_of_reach (cfg : Config) (hfast : cfg.faststorage = true) (garbage log : ℕ → UInt8)
    (lunFile : ℕ → ℕ → UInt8) (common : FsgCommon) {s : LinkState}
    (h : Reach (linkStep cfg) (fun _ => Formed cfg) (linkInit garbage log lunFile common) s) :
    LinkInv cfg s :=
  h.inv (fun _ _ _ hi hf hs => hi.step hfast hf hs) (linkInit_inv garbage log lunFile common)

/-- **Command after command**: with `faststorage` on, in every run of well-formed commands to LUN 0, of
commands to other LUNs, and of what goes on beside them, whatever signals, errors and short packets
come, what was accepted are the bytes that the host was to send, in order, and as long as it has not
given up and is not in a command to LUN 0, all that it has sent. -/
theorem accepted_of_reach (cfg : Config) (hfast : cfg.faststorage = true) (garbage log : ℕ → UInt8)
    (lunFile : ℕ → ℕ → UInt8) (common : FsgCommon) {s : LinkState}
    (h : Reach (linkStep cfg) (fun _ => Formed cfg) (linkInit garbage log lunFile common) s) :
    s.bus.gadget.store.stream <+: s.submitted ∧
      (s.initiator = .ready → s.bus.gadget.store.stream ++ s.unsent = s.submitted) := by
  have hinv := linkInv_of_reach cfg hfast garbage log lunFile common h
  refine ⟨hinv.stream_prefix, fun hready => ?_⟩
  unfold LinkInv at hinv
  rw [hready] at hinv
  exact hinv.2

/-! ### The log file -/

/-- The store takes the step as it should. -/
def Kept (s : LinkState) : LinkAction → Prop
  | .bus (.main env) => StoreOk s.bus.gadget (.main env)
  | .bus (.flusher len) => StoreOk s.bus.gadget (.flusher len)
  | _ => True

instance (s : LinkState) : (a : LinkAction) → Decidable (Kept s a)
  | .bus (.main env) => inferInstanceAs (Decidable (StoreOk s.bus.gadget (.main env)))
  | .bus (.flusher len) => inferInstanceAs (Decidable (StoreOk s.bus.gadget (.flusher len)))
  | .bus (.transfer _) | .bus (.fail _ _ _ _) | .bus (.ioctl _) | .submit _ | .command _ _ | .status =>
    isTrue trivial

/-- **A run of the link** is one of the gadget. -/
theorem linked : Simulation (linkStep cfg) Kept (gadgetStep cfg) StoreOk
    (fun s g => s.bus.gadget = g) := by
  rintro s a s' _ rfl hkept hs
  cases a with
  | submit data =>
    obtain rfl := Option.some.inj hs
    exact stays rfl
  | command common reply =>
    obtain ⟨g, hg, hs⟩ := Option.bind_eq_some_iff.mp hs
    have hsame : s'.bus.gadget = g := by
      unfold LinkState.take at hs
      split_ifs at hs <;> obtain rfl := Option.some.inj hs <;> rfl
    exact steps (b := .command common reply) trivial hg hsame
  | status =>
    simp only [linkStep] at hs
    split at hs
    · obtain rfl := Option.some.inj hs
      exact stays rfl
    · cases hs
  | bus a =>
    obtain ⟨b, hb, rfl⟩ := Option.map_eq_some_iff.mp hs
    obtain ⟨ga, hunder, hg⟩ := busStep_gadgetStep hb
    refine steps (b := ga) ?_ hg rfl
    cases a with
    | main | flusher =>
      obtain rfl := hunder
      exact hkept
    | ioctl =>
      obtain rfl := hunder
      trivial
    | transfer | fail =>
      obtain ⟨i, buf, status, actual, rfl⟩ := hunder
      trivial

end Steps

/-- A block is submitted and sent. -/
def sendBlock (data : List UInt8) : List LinkAction :=
  [.submit data, .command writeBlock 0, .bus (.main calm), .bus (.transfer 512)] ++
    List.replicate 6 (.bus (.main calm))

/-- The host gets one more byte to send, and looks at the residue. -/
def lookAtResidue : List LinkAction := [.submit [66], .status]

theorem wellFormed_writeBlock : WellFormed twoLuns writeBlock where
  empty := fun _ => rfl
  drain_eq := rfl
  residue_eq := rfl
  size_le := le_rfl
  residue_lt := by decide
  length_ge := by
    rintro curlun ⟨rfl⟩
    decide
  buflen_dvd := by
    rintro curlun ⟨rfl⟩
    decide
  size_dvd := by
    rintro curlun ⟨rfl⟩
    decide

theorem formed_sendBlock {data : List UInt8} {a : LinkAction} (ha : a ∈ sendBlock data) :
    Formed twoLuns a := by
  cases a with
  | command common reply =>
    obtain ⟨rfl, -⟩ : common = writeBlock ∧ reply = 0 := by simpa [sendBlock] using ha
    exact fun _ => wellFormed_writeBlock
  | _ => trivial

/-- The block is accepted, and one more byte is still to be sent. -/
theorem accepted_block : ∃ s, Reach (linkStep twoLuns) (fun _ => Formed twoLuns)
    (linkInit (fun _ => 0) (fun _ => 0) (fun _ _ => 0) writeBlock) s ∧ s.unsent = [66] ∧
      s.bus.gadget.store.stream ++ s.unsent = List.replicate 512 65 ++ [66] := by
  have hend : (runFrom (linkStep twoLuns) (linkInit (fun _ => 0) (fun _ => 0) (fun _ _ => 0) writeBlock)
      (sendBlock (List.replicate 512 65) ++ lookAtResidue)).map
        (fun s => (s.initiator, s.unsent, s.submitted)) =
          some (.ready, [66], List.replicate 512 65 ++ [66]) := by decide +kernel
  obtain ⟨s, hrun, hs⟩ := Option.map_eq_some_iff.mp hend
  obtain ⟨hready, hs⟩ := Prod.mk.inj hs
  obtain ⟨hunsent, hsubmitted⟩ := Prod.mk.inj hs
  have hformed : ∀ a ∈ sendBlock (List.replicate 512 65) ++ lookAtResidue, Formed twoLuns a := by
    intro a ha
    rcases List.mem_append.mp ha with ha | ha
    · exact formed_sendBlock ha
    · simp only [lookAtResidue, List.mem_cons, List.not_mem_nil, or_false] at ha
      rcases ha with rfl | rfl <;> trivial
  have hreach := Reach.of_runFrom hrun (EachStep.of_forall_mem (C := fun _ => Formed twoLuns)
    (fun _ => hformed) _)
  refine ⟨s, hreach, hunsent, ?_⟩
  rw [← hsubmitted]
  exact (accepted_of_reach twoLuns rfl _ _ _ _ hreach).2 hready

end HardLog.Device.Commands
