import HardLog.Device.Gadget

/-! # Requests of the administrator

A command written to LUN 1 sets `server_request`; the device library polls with the REQUEST ioctl,
which copies the flag into its reply, copies the reply to the library, and then tests and clears the
flag itself. A command that arrives behind the copying is cleared by a poll that did not report it.
`cleared_of_reach`: as long as none arrives between the sampling of a cleared flag and the test of the
same poll, every clearing is that of a poll whose reply had the flag set. A poll that cannot copy its
reply comes to no test, and commands may arrive in it. -/

namespace HardLog.Device.ServerRequest

open HardLog.Lib.Runs HardLog.Device.Gadget

/-- The last reply given to the library had the flag set. -/
def Reported (s : GadgetState) : Prop :=
  ∃ r, s.reports.getLast? = some r ∧ r.hreq.serverRequest = true

/-- **No request is lost** in a step: if it clears the flag, it belongs to a poll whose reply, the last
one given, had the flag set. -/
def LosesNone (cfg : Config) (s : GadgetState) : Prop :=
  ∀ a s', gadgetStep cfg s a = some s' → s.serverRequest = true → s'.serverRequest = false →
    s.ioctl = .clear ∧ Reported s

/-- The step ends a `do_write` to `lun1`. -/
def Requests (cfg : Config) (s : GadgetState) : Action → Prop
  | .main env => s.main = .doWrite ∧ env.returns = true ∧ env.atEnd = true ∧
      ∃ curlun, cfg.luns s.common.lun = some curlun ∧ curlun.name = "lun1"
  | _ => False

/-- A poll whose reply had the flag cleared is at its test of the flag. -/
def Unreported (s : GadgetState) : Prop := s.ioctl = .test ∧ ¬ Reported s

/-- A poll that has sampled a cleared flag comes to its test only if no command has come since, and none
comes before the test. -/
def Spaced (cfg : Config) (s : GadgetState) : Action → Prop
  | .ioctl copied => ∀ hreq, s.ioctl = .copyToUser hreq → copied = true →
      hreq.serverRequest = false → s.serverRequest = false
  | a => Requests cfg s a → ¬ Unreported s

/-! ### The other steps -/

/-- A step that is not the ioctl's leaves the poll alone, and the flag too unless it is the end of a
command. -/
structure Leaves (cfg : Config) (s s' : GadgetState) (a : Action) : Prop where
  ioctl : s'.ioctl = s.ioctl
  reports : s'.reports = s.reports
  flag : s'.serverRequest = s.serverRequest ∨ s'.serverRequest = true ∧ Requests cfg s a

variable {cfg : Config} {s s' : GadgetState}

theorem proceed_leaves {r : FsgCommon × MainPc} {a : Action} (hs : s.proceed r = some s') :
    Leaves cfg s s' a := by
  unfold GadgetState.proceed at hs
  split at hs
  · obtain ⟨store, -, rfl⟩ := Option.map_eq_some_iff.mp hs
    exact ⟨rfl, rfl, Or.inl rfl⟩
  · obtain rfl := Option.some.inj hs
    exact ⟨rfl, rfl, Or.inl rfl⟩

theorem doWriteStep_leaves (h : s.main = .doWrite) (env : Env) :
    Leaves cfg s (doWriteStep cfg env s) (.main env) := by
  unfold doWriteStep
  by_cases hret : env.returns
  · simp only [hret, Bool.not_true, Bool.false_eq_true, if_false]
    cases hcur : cfg.luns s.common.lun with
    | none => split_ifs <;> exact ⟨rfl, rfl, Or.inl rfl⟩
    | some curlun =>
      by_cases hreq : env.atEnd && curlun.name == "lun1"
      · have hreq' := hreq
        rw [Bool.and_eq_true, beq_iff_eq] at hreq'
        have hset : Requests cfg s (.main env) := ⟨h, hret, hreq'.1, curlun, hcur, hreq'.2⟩
        split_ifs <;> exact ⟨rfl, rfl, Or.inr ⟨by simp [hreq], hset⟩⟩
      · split_ifs <;> exact ⟨rfl, rfl, Or.inl (by simp [hreq])⟩
  · simp only [hret, Bool.not_false, if_true]
    split_ifs <;> exact ⟨rfl, rfl, Or.inl rfl⟩

theorem mainStep_leaves {env : Env} (hs : mainStep cfg env s = some s') :
    Leaves cfg s s' (.main env) := by
  unfold mainStep at hs
  split at hs
  · exact proceed_leaves hs
  · split at hs
    · exact proceed_leaves hs
    · obtain ⟨store, -, rfl⟩ := Option.map_eq_some_iff.mp hs
      exact ⟨rfl, rfl, Or.inl rfl⟩
  · next h =>
    obtain rfl := Option.some.inj hs
    exact doWriteStep_leaves h env
  · cases hs

/-- **A step of the device**: the ioctl's, or one that leaves the poll alone. -/
theorem gadgetStep_leaves {a : Action} (hs : gadgetStep cfg s a = some s') :
    Leaves cfg s s' a ∨ ∃ copied, a = .ioctl copied ∧ s' = ioctlStep s copied := by
  cases a with
  | command common reply =>
    simp only [gadgetStep] at hs
    split at hs
    · obtain ⟨-, hs⟩ := Option.ite_none_right_eq_some.mp hs
      obtain rfl := Option.some.inj hs
      exact Or.inl ⟨rfl, rfl, Or.inl rfl⟩
    · cases hs
  | main env => exact Or.inl (mainStep_leaves hs)
  | complete i buf status actual =>
    simp only [gadgetStep] at hs
    split at hs
    · obtain rfl := Option.some.inj hs
      exact Or.inl ⟨rfl, rfl, Or.inl rfl⟩
    · cases hs
  | flusher len =>
    simp only [gadgetStep, Option.map_eq_some_iff] at hs
    obtain ⟨store, -, rfl⟩ := hs
    exact Or.inl ⟨rfl, rfl, Or.inl rfl⟩
  | ioctl copied => exact Or.inr ⟨copied, rfl, (Option.some.inj hs).symm⟩

/-! ### The invariant -/

/-- A poll at its test finds the flag cleared if its reply had it so, and one about to clear it has
reported it. -/
structure Inv (s : GadgetState) : Prop where
  unreported : Unreported s → s.serverRequest = false
  clear : s.ioctl = .clear → Reported s

theorem Inv.leaves {a : Action} (h : Inv s) (hl : Leaves cfg s s' a)
    (hsp : Requests cfg s a → ¬ Unreported s) : Inv s' := by
  have hreported : Reported s' ↔ Reported s := by rw [Reported, Reported, hl.reports]
  refine ⟨fun hun => ?_, fun hc => ?_⟩
  · rw [Unreported, hl.ioctl, hreported] at hun
    rcases hl.flag with hsame | ⟨-, hreq⟩
    · rw [hsame]
      exact h.unreported hun
    · exact absurd hun (hsp hreq)
  · rw [hl.ioctl] at hc
    exact hreported.mpr (h.clear hc)

theorem Inv.ioctlStep (h : Inv s) {copied : Bool} (hsp : Spaced cfg s (.ioctl copied)) :
    Inv (ioctlStep s copied) := by
  unfold Gadget.ioctlStep
  cases hio : s.ioctl with
  | idle | offsets | clear => exact ⟨fun hun => (by cases hun.1), fun hc => (by cases hc)⟩
  | copyToUser hreq =>
    by_cases hcop : copied
    · simp only [if_pos hcop]
      refine ⟨fun hun => hsp hreq hio hcop ?_, fun hc => (by cases hc)⟩
      by_contra htrue
      exact hun.2 ⟨_, List.getLast?_concat, by simpa using htrue⟩
    · simp only [if_neg hcop]
      exact ⟨fun hun => (by cases hun.1), fun hc => (by cases hc)⟩
  | test =>
    by_cases hflag : s.serverRequest
    · simp only [if_pos hflag]
      refine ⟨fun hun => (by cases hun.1), fun _ => ?_⟩
      by_contra hrep
      exact absurd (h.unreported ⟨hio, hrep⟩) (by simp [hflag])
    · simp only [if_neg hflag]
      exact ⟨fun hun => (by cases hun.1), fun hc => (by cases hc)⟩

theorem Inv.step {a : Action} (h : Inv s) (hsp : Spaced cfg s a) (hs : gadgetStep cfg s a = some s') :
    Inv s' := by
  rcases gadgetStep_leaves hs with hl | ⟨copied, rfl, rfl⟩
  · refine h.leaves hl fun hreq => ?_
    cases a with
    | ioctl => exact hreq.elim
    | _ => exact hsp hreq
  · exact h.ioctlStep hsp

theorem ioctlStep_serverRequest (h : s.ioctl ≠ .clear) (copied : Bool) :
    (Gadget.ioctlStep s copied).serverRequest = s.serverRequest := by
  unfold Gadget.ioctlStep
  cases hio : s.ioctl with
  | clear => exact absurd hio h
  | copyToUser | test => simp only [apply_ite GadgetState.serverRequest, ite_self]
  | _ => rfl

theorem Inv.losesNone (h : Inv s) : LosesNone cfg s := by
  intro a s' hs htrue hfalse
  rcases gadgetStep_leaves hs with hl | ⟨copied, rfl, rfl⟩
  · rcases hl.flag with hsame | ⟨hset, -⟩
    · rw [hsame, htrue] at hfalse
      cases hfalse
    · rw [hset] at hfalse
      cases hfalse
  · have hclear : s.ioctl = .clear := by
      by_contra hne
      rw [ioctlStep_serverRequest hne, htrue] at hfalse
      cases hfalse
    exact ⟨hclear, h.clear hclear⟩

/-- **Requests are reported**: in every state of every run in which no command comes between the
sampling of a cleared flag and the test of the same poll, whatever the order of the other steps and
whichever copies fail, a step that clears the flag ends a poll whose reply had it set. -/
theorem cleared_of_reach (garbage log : ℕ → UInt8) (lunFile : ℕ → ℕ → UInt8) (common : FsgCommon)
    (h : Reach (gadgetStep cfg) (Spaced cfg) (gadgetInit garbage log lunFile common) s) :
    LosesNone cfg s := by
  have h0 : Inv (gadgetInit garbage log lunFile common) :=
    ⟨fun hun => (by cases hun.1), fun hc => (by cases hc)⟩
  have hinv : Inv s := h.inv (fun _ _ _ hi hc hs => hi.step hc hs) h0
  exact hinv.losesNone

/-! ### Two polls -/

/-- A gadget with a LUN for every number. -/
def someLuns : Config where
  faststorage := true
  fsgNumBuffers := 2
  luns i := some ⟨"lun" ++ toString i, false, 8, 4096, 9⟩
  name_eq := by
    rintro i lun h
    obtain rfl := Option.some.inj h
    rfl

/-- A WRITE(10) of one sector to LUN 1. -/
def writeCommand : FsgCommon where
  cmnd i := if i = 0 then write10 else 0
  lun := 1
  buffhds _ := ⟨fun _ => 0, .empty, 0, 0, 0, Nat.zero_le _⟩
  nextBuffhdToFill := 0
  nextBuffhdToDrain := 0
  dataSizeFromCmnd := 512
  residue := 512
  usbAmountLeft := 512
  shortPacketReceived := false

/-- The device before the first command. -/
def fresh : GadgetState := gadgetInit (fun _ => 0) (fun _ => 0) (fun _ _ => 0) writeCommand

/-- The command arrives, and `do_write` runs to its end. -/
def commandSchedule : List Action :=
  [.command writeCommand 0, .main ⟨true, false, 0, fun _ => 0, true, true⟩]

/-- The place of the poll, the flag, and the flags reported. -/
def observed (s : GadgetState) : Bool × Bool × List Bool :=
  (match s.ioctl with | .clear => true | _ => false, s.serverRequest,
    s.reports.map fun r => r.hreq.serverRequest)

theorem observed_ioctl {s : GadgetState} (h : (observed s).1 = true) : s.ioctl = .clear := by
  unfold observed at h
  cases hio : s.ioctl with
  | clear => rfl
  | _ => simp [hio] at h

/-- A command comes during a poll that cannot copy its reply, and the next poll is about to clear the
flag. -/
def failedCopySchedule : List Action :=
  List.replicate 2 (.ioctl true) ++ commandSchedule ++ .ioctl false :: List.replicate 4 (.ioctl true)

/-- It is the next poll that reports the command. -/
theorem poll_after_failed_copy :
    ∃ s, Reach (gadgetStep someLuns) (Spaced someLuns) fresh s ∧ s.ioctl = .clear ∧
      s.serverRequest = true ∧ LosesNone someLuns s := by
  obtain ⟨s, hs, hobs⟩ : ∃ s, runFrom (gadgetStep someLuns) fresh failedCopySchedule = some s ∧
      observed s = (true, true, [true]) := ⟨_, rfl, rfl⟩
  have hspaced : EachStep (gadgetStep someLuns) (Spaced someLuns) fresh failedCopySchedule := by
    refine EachStep.cons (fun _ hio => ?_) rfl <| EachStep.cons (fun _ hio => ?_) rfl <|
      EachStep.cons False.elim rfl <| EachStep.cons (fun _ hun => ?_) rfl <|
      EachStep.cons (fun _ _ hcop => ?_) rfl <| EachStep.cons (fun _ hio => ?_) rfl <|
      EachStep.cons (fun _ hio => ?_) rfl <| EachStep.cons (fun _ hio _ hclear => ?_) rfl <|
      EachStep.cons (fun _ hio => ?_) rfl trivial
    · cases hio
    · cases hio
    · cases hun.1
    · cases hcop
    · cases hio
    · cases hio
    · cases hio
      cases hclear
    · cases hio
  have hreach := Reach.of_runFrom hs hspaced
  exact ⟨s, hreach, observed_ioctl (by rw [hobs]), congrArg (fun o => o.2.1) hobs,
    cleared_of_reach _ _ _ _ hreach⟩

/-- A command that comes when a poll has copied the cleared flag is cleared by that poll. -/
theorem command_during_poll_lost :
    ¬ ∀ s, Reach (gadgetStep someLuns) (fun _ _ => True) fresh s → LosesNone someLuns s := by
  intro h
  obtain ⟨s, hs, hobs⟩ : ∃ s, runFrom (gadgetStep someLuns) fresh
      (List.replicate 3 (.ioctl true) ++ commandSchedule ++ [.ioctl true]) = some s ∧
        observed s = (true, true, [false]) := ⟨_, rfl, rfl⟩
  have hreach := Reach.of_runFrom hs (EachStep.of_forall (fun _ _ => trivial) _ _)
  have hio := observed_ioctl (by rw [hobs])
  obtain ⟨-, r, hr, htrue⟩ := h s hreach (.ioctl true) (Gadget.ioctlStep s true) rfl
    (congrArg (fun o => o.2.1) hobs) (by unfold Gadget.ioctlStep; rw [hio])
  have hreports : s.reports.map (fun r => r.hreq.serverRequest) = [false] :=
    congrArg (fun o => o.2.2) hobs
  have hmem := List.mem_map_of_mem (f := fun r : Report => r.hreq.serverRequest)
    (List.mem_of_getLast? hr)
  rw [hreports, htrue] at hmem
  exact absurd hmem (by decide)

end HardLog.Device.ServerRequest
