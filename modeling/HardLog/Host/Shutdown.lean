import HardLog.Host.Priority

/-! # Removing the module

`hardlog_enable_exit` stops the flusher, which leaves its loop, writes what is left and returns;
then the device and the driver are closed, `hardlog_active` is cleared, the producer lock released
and the ring freed. Until the flag is cleared, threads go on to call `audit_log_end_hardlog`, and
nothing waits for those that are in it. The last write takes the head and the tail modulo the size
of the ring. `lossless_of_reach` says in which runs nothing is lost and nobody uses the ring when it
is freed: it is enough that those leave the ring that are using it when the flag is cleared. -/

namespace HardLog.Host.Shutdown

open HardLog.Lib.Runs HardLog.Host.Event HardLog.Host.Ring HardLog.Host.Threads

/-- Where `hardlog_auditd_thread` is: at `kthread_should_stop`, in the body of its loop, or behind
the loop, with the head `h` it has read there and the `start` of the last write. -/
inductive Stage where
  | test
  | loop
  | compare
  | readEnd
  | readStart (h : UInt64)
  | write (h start : UInt64)
  | setTail (h : UInt64)
  | done

/-- Where `hardlog_enable_exit` is. -/
inductive ExitPc where
  /-- The module is in use. -/
  | running
  /-- In `kthread_stop`, waiting for the thread. -/
  | stopping
  | usbClose
  | ioctlTeardown
  /-- In `hardlog_logger_teardown`. -/
  | clearActive
  | unlock
  | vfree
  | freed

/-- What `kthread_should_stop` returns. -/
def ExitPc.shouldStop : ExitPc → Bool
  | .running => false
  | _ => true

/-- `hardlog_active`. -/
def ExitPc.active : ExitPc → Bool
  | .unlock | .vfree | .freed => false
  | _ => true

/-- The last `usb_write`: the head it was computed from, the tail, and its `start`. -/
structure LastWrite where
  head : UInt64
  tail : UInt64
  start : UInt64

/-- The host with the module being removed. `inside` is no part of it: it notes which threads were using
the ring when `hardlog_active` was cleared. -/
structure ShutState (Tid : Type) where
  host : HostState Tid
  stage : Stage
  exit : ExitPc
  last : Option LastWrite
  inside : Tid → Bool

/-- A call of `audit_log_end`, a step of a thread in `audit_log_end_hardlog`, of
`hardlog_auditd_thread`, or of `hardlog_enable_exit`. -/
inductive ShutAction (Tid : Type) where
  | call (t : Tid) (ab : AuditBuffer)
  | thread (t : Tid)
  | flusher
  | exit

/-- Inside `audit_log_end_hardlog`, up to where the ring and its counters are no longer used. -/
def usesRing : Pc → Bool
  | .out | .free _ => false
  | _ => true

/-- A position modulo the size of the ring. -/
def ringIndex (x : UInt64) : UInt64 := x % UInt64.ofNat hardlogAuditCbuffsize

/-- `start`, after the comparison with `end`. -/
def lastStart (h tail : UInt64) : UInt64 :=
  if ringIndex h < ringIndex tail then 0 else ringIndex tail

variable {Tid : Type} [DecidableEq Tid]

omit [DecidableEq Tid] in
/-- A step of `hardlog_auditd_thread`, whatever `usb_write` returns. -/
def auditdThreadStep (s : ShutState Tid) : Option (ShutState Tid) :=
  match s.stage with
  | .test => some { s with stage := if s.exit.shouldStop then .compare else .loop }
  | .loop =>
    let host := flusherStep s.host true
    match host.flusher with
    | .top => some { s with host, stage := .test }
    | _ => some { s with host }
  | .compare => some { s with stage := if s.host.cb.head = s.host.cb.tail then .done else .readEnd }
  | .readEnd => some { s with stage := .readStart s.host.cb.head }
  | .readStart h =>
    let start := lastStart h s.host.cb.tail
    some { s with stage := if 0 < ringIndex h - start then .write h start else .done }
  | .write h start => some { s with stage := .setTail h, last := some ⟨h, s.host.cb.tail, start⟩ }
  | .setTail h =>
    some { s with
      host := { s.host with cb := { s.host.cb with tail := ringIndex h } }
      stage := .done }
  | .done => none

/-- A step of `hardlog_enable_exit`. -/
def exitStep (s : ShutState Tid) : Option (ShutState Tid) :=
  match s.exit with
  | .running => some { s with exit := .stopping }
  | .stopping =>
    match s.stage with
    | .done => some { s with exit := .usbClose }
    | _ => none
  | .usbClose => some { s with exit := .ioctlTeardown }
  | .ioctlTeardown => some { s with exit := .clearActive }
  | .clearActive => some { s with exit := .unlock, inside := fun t => usesRing (s.host.threads t) }
  | .unlock => some { s with host := { s.host with producer := none }, exit := .vfree }
  | .vfree => some { s with exit := .freed }
  | .freed => none

/-- A step. Only with `hardlog_active` set does a thread call `audit_log_end_hardlog`. -/
def shutStep (s : ShutState Tid) : ShutAction Tid → Option (ShutState Tid)
  | .call t ab =>
    if s.exit.active then (hostStep s.host (.call t ab)).map fun host => { s with host } else none
  | .thread t => (threadStep s.host t).map fun host => { s with host }
  | .flusher => auditdThreadStep s
  | .exit => exitStep s

/-- The module in use, nothing being logged yet. -/
def shutInit (Tid : Type) (garbage : ℕ → UInt8) : ShutState Tid :=
  ⟨hostInit Tid garbage, .test, .running, none, fun _ => false⟩

/-! ### What is lost, and who is inside -/

/-- The last write sends the byte at position `p`: it was in the ring, and its index is in the
range. -/
def LastWrite.Sends (w : LastWrite) (p : ℕ) : Prop :=
  w.tail.toNat ≤ p ∧ p < w.head.toNat ∧ w.start.toNat ≤ p % hardlogAuditCbuffsize ∧
    p % hardlogAuditCbuffsize < (ringIndex w.head).toNat

/-- Every byte of the records in the ring was in the range of a `usb_write`. -/
def AllCovered (s : ShutState Tid) : Prop :=
  ∀ p < s.host.cb.head.toNat,
    (∃ w ∈ s.host.hist.writes, w.1.toNat ≤ p ∧ p < w.2.toNat) ∨
      ∃ w, s.last = some w ∧ w.Sends p

/-- **Nothing is lost**: once the ring is freed, no thread uses it, so that every record copied is
complete, and every record is covered. -/
def Lossless (s : ShutState Tid) : Prop :=
  s.exit = .freed → AllCovered s ∧ ∀ t, usesRing (s.host.threads t) = false

/-- The head has been read for the last time. -/
def Stage.finalRead : Stage → Bool
  | .readStart _ | .write _ _ | .setTail _ | .done => true
  | _ => false

/-- This step of the flusher reads the head for the last time. -/
def ReadsLast (s : ShutState Tid) : Prop :=
  match s.stage with
  | .compare => s.host.cb.head = s.host.cb.tail
  | .readEnd => True
  | _ => False

/-- No record is copied after the last reading of the head. At that reading none is copied without
the head being past it, and the head and the tail are in one lap of the ring. The threads that use the
ring when `hardlog_active` is cleared have left it when it is freed. The head stays below `2 ^ 64`. -/
def Orderly (s : ShutState Tid) : ShutAction Tid → Prop
  | .call _ _ => True
  | .thread t => NoWrap s.host (.thread t) ∧
      (s.stage.finalRead = true → ∀ ab i, s.host.threads t ≠ .copy ab i)
  | .flusher => ReadsLast s → (∀ t ab, s.host.threads t ≠ .bump ab) ∧
      s.host.cb.head.toNat / hardlogAuditCbuffsize = s.host.cb.tail.toNat / hardlogAuditCbuffsize
  | .exit => s.exit = .vfree → ∀ t, s.inside t = true → usesRing (s.host.threads t) = false

/-! ### The invariant -/

/-- The thread of the flusher has been waited for. -/
def ExitPc.stopped : ExitPc → Bool
  | .running | .stopping => false
  | _ => true

/-- What is left after the last reading of the head lies in one lap, and what is below it is
covered. -/
structure Left (s : ShutState Tid) (h : UInt64) : Prop where
  head : h = s.host.cb.head
  lap : h.toNat / hardlogAuditCbuffsize = s.host.cb.tail.toNat / hardlogAuditCbuffsize
  tail_le : s.host.cb.tail.toNat ≤ h.toNat
  covered : Priority.Covered s.host s.host.cb.tail

/-- What is known behind the last reading. -/
def FinalInv (s : ShutState Tid) : Stage → Prop
  | .readStart h => Left s h
  | .write h start => Left s h ∧ start = ringIndex s.host.cb.tail
  | .setTail _ | .done => AllCovered s
  | _ => True

/-- The invariant of the orderly runs. -/
structure Inv (s : ShutState Tid) : Prop where
  before : s.stage.finalRead = false → Priority.Inv s.host
  no_bump : s.stage.finalRead = true → ∀ t ab, s.host.threads t ≠ .bump ab
  final : FinalInv s s.stage
  stopped : s.exit.stopped = true → s.stage = .done
  entered : s.exit.active = false → ∀ t, usesRing (s.host.threads t) = true → s.inside t = true
  freed : s.exit = .freed → ∀ t, usesRing (s.host.threads t) = false

omit [DecidableEq Tid] in
theorem shutInit_inv (garbage : ℕ → UInt8) : Inv (shutInit Tid garbage) where
  before _ := Priority.hostInit_inv garbage
  no_bump h := by cases h
  final := trivial
  stopped h := by cases h
  entered h := by cases h
  freed h := by cases h

/-! ### The last write -/

theorem toNat_ringIndex (x : UInt64) : (ringIndex x).toNat = x.toNat % hardlogAuditCbuffsize := by
  rw [ringIndex, UInt64.toNat_mod]
  rfl

theorem mod_le_mod {a b S : ℕ} (hlap : a / S = b / S) (h : a ≤ b) : a % S ≤ b % S := by
  have ha := Nat.div_add_mod a S
  have hb := Nat.div_add_mod b S
  rw [hlap] at ha
  omega

section Last

variable {s : ShutState Tid} {h : UInt64}

omit [DecidableEq Tid]

theorem AllCovered.of_tail (hcov : Priority.Covered s.host s.host.cb.tail)
    (hhead : s.host.cb.head.toNat ≤ s.host.cb.tail.toNat) : AllCovered s :=
  fun p hp => Or.inl (hcov p (by omega))

theorem Left.ringIndex_le (hl : Left s h) :
    (ringIndex s.host.cb.tail).toNat ≤ (ringIndex h).toNat := by
  rw [toNat_ringIndex, toNat_ringIndex]
  exact mod_le_mod hl.lap.symm hl.tail_le

theorem Left.lastStart_eq (hl : Left s h) : lastStart h s.host.cb.tail = ringIndex s.host.cb.tail := by
  unfold lastStart
  rw [if_neg]
  rw [UInt64.lt_iff_toNat_lt]
  exact Nat.not_lt.mpr hl.ringIndex_le

theorem Left.allCovered_of_empty (hl : Left s h)
    (hempty : ¬ 0 < ringIndex h - ringIndex s.host.cb.tail) : AllCovered s := by
  have hle := hl.ringIndex_le
  have hlap := hl.lap
  rw [UInt64.lt_iff_toNat_lt, UInt64.toNat_sub_of_le _ _ (UInt64.le_iff_toNat_le.mpr hle)] at hempty
  rw [toNat_ringIndex, toNat_ringIndex] at hempty hle
  have hzero := UInt64.toNat_zero
  have hh := Nat.div_add_mod h.toNat hardlogAuditCbuffsize
  have ht := Nat.div_add_mod s.host.cb.tail.toNat hardlogAuditCbuffsize
  refine AllCovered.of_tail hl.covered ?_
  rw [← hl.head]
  rw [hlap] at hh
  omega

theorem Left.allCovered_of_write (hl : Left s h) :
    AllCovered { s with
      stage := .setTail h
      last := some ⟨h, s.host.cb.tail, ringIndex s.host.cb.tail⟩ } := by
  intro p hp
  by_cases hlt : p < s.host.cb.tail.toNat
  · exact Or.inl (hl.covered p hlt)
  · have hph : p < h.toNat := by
      rw [hl.head]
      exact hp
    have hge : s.host.cb.tail.toNat / hardlogAuditCbuffsize ≤ p / hardlogAuditCbuffsize :=
      Nat.div_le_div_right (by omega)
    have hle : p / hardlogAuditCbuffsize ≤ h.toNat / hardlogAuditCbuffsize :=
      Nat.div_le_div_right (by omega)
    have hlap := hl.lap
    have hp' := Nat.div_add_mod p hardlogAuditCbuffsize
    have hh := Nat.div_add_mod h.toNat hardlogAuditCbuffsize
    have ht := Nat.div_add_mod s.host.cb.tail.toNat hardlogAuditCbuffsize
    rw [show p / hardlogAuditCbuffsize = s.host.cb.tail.toNat / hardlogAuditCbuffsize by omega]
      at hp'
    rw [hlap] at hh
    refine Or.inr ⟨_, rfl, by simp only; omega, hph, ?_, ?_⟩
    · rw [toNat_ringIndex]
      omega
    · change p % hardlogAuditCbuffsize < (ringIndex h).toNat
      rw [toNat_ringIndex]
      omega

end Last

/-! ### The steps -/

omit [DecidableEq Tid] in
theorem Quiet.ne_bump {s : HostState Tid} {pc pc' : Pc} (h : Quiet s pc pc') (ab : AuditBuffer) :
    pc' ≠ .bump ab := by
  rintro rfl
  cases h

omit [DecidableEq Tid] in
theorem Quiet.usesRing_eq {s : HostState Tid} {pc pc' : Pc} (h : Quiet s pc pc')
    (hout : usesRing pc = false) : usesRing pc' = false := by
  cases h with
  | free => rfl
  | _ => cases hout

/-- A thread that neither copies nor moves the head leaves the ring alone. -/
theorem threadStep_keeps {s s' : HostState Tid} {t : Tid} (hs : threadStep s t = some s')
    (hcopy : ∀ ab i, s.threads t ≠ .copy ab i) (hbump : ∀ ab, s.threads t ≠ .bump ab) :
    s'.cb = s.cb ∧ s'.hist = s.hist ∧ ∃ pc, s'.threads = (s.goto t pc).threads ∧
      (∀ ab, pc ≠ .bump ab) ∧ (usesRing (s.threads t) = false → usesRing pc = false) := by
  rcases threadStep_cases hs with ⟨pc, hq, rfl⟩ | ⟨ab, hpc, -, rfl⟩ | ⟨ab, i, hpc, rfl⟩ |
    ⟨ab, hpc, rfl⟩ | ⟨ab, p, hpc, rfl⟩
  · exact ⟨rfl, rfl, pc, rfl, Quiet.ne_bump hq, Quiet.usesRing_eq hq⟩
  · refine ⟨rfl, rfl, _, rfl, fun _ => Pc.noConfusion, fun h => ?_⟩
    rw [hpc] at h
    cases h
  · exact absurd hpc (hcopy ab i)
  · exact absurd hpc (hbump ab)
  · refine ⟨rfl, rfl, _, rfl, fun _ => Pc.noConfusion, fun h => ?_⟩
    rw [hpc] at h
    cases h

omit [DecidableEq Tid] in
theorem finalInv_congr {s s' : ShutState Tid} (hcb : s'.host.cb = s.host.cb)
    (hhist : s'.host.hist = s.host.hist) (hlast : s'.last = s.last) {stage : Stage}
    (h : FinalInv s stage) : FinalInv s' stage := by
  have hleft : ∀ {p}, Left s p → Left s' p := by
    rintro p ⟨h1, h2, h3, h4⟩
    rw [← hcb] at h1 h2 h3
    refine ⟨h1, h2, h3, ?_⟩
    unfold Priority.Covered at h4 ⊢
    rwa [hcb, hhist]
  have hall : AllCovered s → AllCovered s' := by
    unfold AllCovered
    rw [hcb, hhist, hlast]
    exact id
  cases stage with
  | readStart p => exact hleft h
  | write p start =>
    obtain ⟨hl, hstart⟩ := h
    rw [← hcb] at hstart
    exact ⟨hleft hl, hstart⟩
  | setTail p => exact hall h
  | done => exact hall h
  | _ => trivial

omit [DecidableEq Tid] in
theorem finalInv_of_not_read (s : ShutState Tid) {stage : Stage} (h : stage.finalRead = false) :
    FinalInv s stage := by
  cases stage with
  | test | loop | compare | readEnd => trivial
  | _ => cases h

section Step

variable {s s' : ShutState Tid}

theorem not_freed {e : ExitPc} (h : e.stopped = false) : e ≠ .freed := by
  rintro rfl
  cases h

theorem stopped_of_inactive {e : ExitPc} (h : e.active = false) : e.stopped = true := by
  cases e with
  | unlock | vfree | freed => rfl
  | _ => cases h

theorem active_of_stopped {e : ExitPc} (h : e.stopped = false) : e.active = true := by
  cases e with
  | running | stopping => rfl
  | _ => cases h

omit [DecidableEq Tid] in
theorem inv_early (hr : s.stage.finalRead = false) (hrun : s.exit.stopped = false)
    (hinv : Priority.Inv s.host) : Inv s where
  before _ := hinv
  no_bump h := by
    rw [hr] at h
    cases h
  final := finalInv_of_not_read s hr
  stopped h := by
    rw [hrun] at h
    cases h
  entered h := by
    rw [active_of_stopped hrun] at h
    cases h
  freed h := absurd h (not_freed hrun)

omit [DecidableEq Tid] in
theorem inv_late (hr : s.stage.finalRead = true) (hrun : s.exit.stopped = false)
    (hbump : ∀ t ab, s.host.threads t ≠ .bump ab) (hfinal : FinalInv s s.stage) : Inv s where
  before h := by
    rw [hr] at h
    cases h
  no_bump _ := hbump
  final := hfinal
  stopped h := by
    rw [hrun] at h
    cases h
  entered h := by
    rw [active_of_stopped hrun] at h
    cases h
  freed h := absurd h (not_freed hrun)

theorem call_step (h : Inv s) {t : Tid} {ab : AuditBuffer}
    (hs : shutStep s (.call t ab) = some s') : Inv s' := by
  simp only [shutStep, Option.ite_none_right_eq_some, Option.map_eq_some_iff] at hs
  obtain ⟨hactive, host, hcall, rfl⟩ := hs
  obtain ⟨-, hgoto⟩ := call_cases hcall
  have hcb : host.cb = s.host.cb := by rw [hgoto]; rfl
  have hhist : host.hist = s.host.hist := by rw [hgoto]; rfl
  refine ⟨fun hr => (h.before hr).step (a := .call t ab) trivial hcall, fun hr u ab' hu => ?_,
    ?_, h.stopped, fun he => ?_, fun he => ?_⟩
  · simp only [hgoto] at hu
    by_cases hut : u = t
    · subst hut
      rw [goto_self] at hu
      cases hu
    · rw [goto_other s.host (.enter ab) hut] at hu
      exact h.no_bump hr u ab' hu
  · refine finalInv_congr hcb hhist ?_ h.final
    rfl
  · rw [hactive] at he
    cases he
  · simp only at he
    rw [he] at hactive
    cases hactive

theorem thread_step (h : Inv s) {t : Tid} (ho : Orderly s (.thread t))
    (hs : shutStep s (.thread t) = some s') : Inv s' := by
  simp only [shutStep, Option.map_eq_some_iff] at hs
  obtain ⟨host, hthread, rfl⟩ := hs
  obtain ⟨hwrap, hcopy⟩ := ho
  have hkeeps : s.stage.finalRead = true → host.cb = s.host.cb ∧ host.hist = s.host.hist ∧
      ∃ pc, host.threads = (s.host.goto t pc).threads ∧ (∀ ab, pc ≠ .bump ab) ∧
        (usesRing (s.host.threads t) = false → usesRing pc = false) := fun hr =>
    threadStep_keeps hthread (hcopy hr) (h.no_bump hr t)
  -- nobody comes to the ring once the flag is cleared
  have huses : s.exit.stopped = true → ∀ u, usesRing (s.host.threads u) = false →
      usesRing (host.threads u) = false := by
    intro hst u hout
    obtain ⟨-, -, pc, hthreads, -, hpc⟩ := hkeeps (by rw [h.stopped hst]; rfl)
    rw [hthreads]
    by_cases hut : u = t
    · subst hut
      rw [goto_self]
      exact hpc hout
    · rwa [goto_other s.host pc hut]
  refine ⟨fun hr => (h.before hr).step (a := .thread t) hwrap hthread, fun hr u ab hu => ?_, ?_,
    h.stopped, fun he u hu => ?_, fun he u => ?_⟩
  · obtain ⟨-, -, pc, hthreads, hpc, -⟩ := hkeeps hr
    simp only [hthreads] at hu
    by_cases hut : u = t
    · subst hut
      rw [goto_self] at hu
      exact hpc ab hu
    · rw [goto_other s.host pc hut] at hu
      exact h.no_bump hr u ab hu
  · by_cases hr : s.stage.finalRead = true
    · obtain ⟨hcb, hhist, -⟩ := hkeeps hr
      refine finalInv_congr hcb hhist ?_ h.final
      rfl
    · exact finalInv_of_not_read _ (by simpa using hr)
  · refine h.entered he u ?_
    by_contra hout
    rw [Bool.not_eq_true] at hout
    rw [huses (stopped_of_inactive he) u hout] at hu
    cases hu
  · have hst : s.exit.stopped = true := by
      simp only at he
      rw [he]
      rfl
    exact huses hst u (h.freed he u)

theorem flusher_step (h : Inv s) (ho : Orderly s .flusher)
    (hs : shutStep s .flusher = some s') : Inv s' := by
  obtain ⟨host, stage, exit, last, inside⟩ := s
  have hrun : stage ≠ .done → exit.stopped = false := by
    intro hne
    by_contra hst
    exact hne (h.stopped (by simpa using hst))
  cases stage with
  | test =>
    obtain rfl := Option.some.inj hs
    refine inv_early ?_ (hrun Stage.noConfusion) (h.before rfl)
    cases exit.shouldStop <;> rfl
  | loop =>
    have hinv : Priority.Inv (flusherStep host true) :=
      (h.before rfl).step (a := .flusher true) (fun _ _ _ => rfl) rfl
    simp only [shutStep, auditdThreadStep] at hs
    split at hs
    · obtain rfl := Option.some.inj hs
      exact inv_early rfl (hrun Stage.noConfusion) hinv
    · obtain rfl := Option.some.inj hs
      exact inv_early rfl (hrun Stage.noConfusion) hinv
  | compare =>
    have hinv := h.before rfl
    simp only [shutStep, auditdThreadStep, Option.some.injEq] at hs
    by_cases heq : host.cb.head = host.cb.tail
    · obtain ⟨hbump, -⟩ := ho heq
      rw [if_pos heq] at hs
      subst hs
      refine inv_late rfl (hrun Stage.noConfusion) hbump ?_
      exact AllCovered.of_tail (s := ⟨host, .done, exit, last, inside⟩) hinv.tail_covered
        (by rw [heq])
    · rw [if_neg heq] at hs
      subst hs
      exact inv_early rfl (hrun Stage.noConfusion) hinv
  | readEnd =>
    have hinv := h.before rfl
    obtain ⟨hbump, hlap⟩ := ho trivial
    obtain rfl := Option.some.inj hs
    exact inv_late rfl (hrun Stage.noConfusion) hbump
      ⟨rfl, hlap, hinv.ordered.tail_le, hinv.tail_covered⟩
  | readStart p =>
    have hbump := h.no_bump rfl
    have hl : Left ⟨host, .readStart p, exit, last, inside⟩ p := h.final
    have hstart : lastStart p host.cb.tail = ringIndex host.cb.tail := hl.lastStart_eq
    simp only [shutStep, auditdThreadStep, hstart, Option.some.injEq] at hs
    by_cases hpos : 0 < ringIndex p - ringIndex host.cb.tail
    · rw [if_pos hpos] at hs
      subst hs
      exact inv_late rfl (hrun Stage.noConfusion) hbump
        ⟨⟨hl.head, hl.lap, hl.tail_le, hl.covered⟩, rfl⟩
    · rw [if_neg hpos] at hs
      subst hs
      exact inv_late rfl (hrun Stage.noConfusion) hbump (hl.allCovered_of_empty hpos)
  | write p start =>
    obtain ⟨hl, rfl⟩ : Left ⟨host, .write p start, exit, last, inside⟩ p ∧ start = ringIndex host.cb.tail :=
      h.final
    obtain rfl := Option.some.inj hs
    exact inv_late rfl (hrun Stage.noConfusion) (h.no_bump rfl) hl.allCovered_of_write
  | setTail p =>
    have hall : AllCovered ⟨host, .setTail p, exit, last, inside⟩ := h.final
    obtain rfl := Option.some.inj hs
    exact inv_late rfl (hrun Stage.noConfusion) (h.no_bump rfl) hall
  | done => cases hs

/-- What a step of `hardlog_enable_exit` leaves alone: at most the producer lock changes, and that only
behind the flusher's end. -/
structure ExitMove (s s' : ShutState Tid) : Prop where
  stage : s'.stage = s.stage
  last : s'.last = s.last
  cb : s'.host.cb = s.host.cb
  hist : s'.host.hist = s.host.hist
  threads : s'.host.threads = s.host.threads
  host : s.exit.stopped = false → s'.host = s.host
  stopped : s'.exit.stopped = true → s.exit.stopped = true ∨ s.stage = .done
  inside : s'.exit.active = false → s.exit.active = false ∧ s'.inside = s.inside ∨
    s'.inside = fun t => usesRing (s.host.threads t)
  freed : s'.exit = .freed → s.exit = .vfree

omit [DecidableEq Tid] in
theorem exitStep_moves (hs : exitStep s = some s') : ExitMove s s' := by
  obtain ⟨host, stage, exit, last, inside⟩ := s
  cases exit with
  | running =>
    obtain rfl := Option.some.inj hs
    exact ⟨rfl, rfl, rfl, rfl, rfl, fun _ => rfl, fun h => (by cases h), fun h => (by cases h),
      ExitPc.noConfusion⟩
  | stopping =>
    cases stage with
    | done =>
      obtain rfl := Option.some.inj hs
      exact ⟨rfl, rfl, rfl, rfl, rfl, fun _ => rfl, fun _ => Or.inr rfl, fun h => (by cases h),
        ExitPc.noConfusion⟩
    | _ => cases hs
  | usbClose | ioctlTeardown =>
    obtain rfl := Option.some.inj hs
    exact ⟨rfl, rfl, rfl, rfl, rfl, fun h => (by cases h), fun _ => Or.inl rfl, fun h => (by cases h),
      ExitPc.noConfusion⟩
  | clearActive =>
    obtain rfl := Option.some.inj hs
    exact ⟨rfl, rfl, rfl, rfl, rfl, fun h => (by cases h), fun _ => Or.inl rfl, fun _ => Or.inr rfl,
      ExitPc.noConfusion⟩
  | unlock =>
    obtain rfl := Option.some.inj hs
    exact ⟨rfl, rfl, rfl, rfl, rfl, fun h => (by cases h), fun _ => Or.inl rfl,
      fun _ => Or.inl ⟨rfl, rfl⟩, ExitPc.noConfusion⟩
  | vfree =>
    obtain rfl := Option.some.inj hs
    exact ⟨rfl, rfl, rfl, rfl, rfl, fun h => (by cases h), fun _ => Or.inl rfl,
      fun _ => Or.inl ⟨rfl, rfl⟩, fun _ => rfl⟩
  | freed => cases hs

theorem exit_step (h : Inv s) (ho : Orderly s .exit) (hs : shutStep s .exit = some s') : Inv s' := by
  have hm := exitStep_moves hs
  refine ⟨fun hr => ?_, fun hr => ?_, ?_, fun hst => ?_, fun he t hu => ?_, fun he t => ?_⟩
  · rw [hm.stage] at hr
    rw [hm.host]
    · exact h.before hr
    · by_contra hst
      rw [h.stopped (by simpa using hst)] at hr
      cases hr
  · rw [hm.stage] at hr
    rw [hm.threads]
    exact h.no_bump hr
  · rw [hm.stage]
    exact finalInv_congr hm.cb hm.hist hm.last h.final
  · rw [hm.stage]
    exact (hm.stopped hst).elim h.stopped id
  · rw [hm.threads] at hu
    rcases hm.inside he with ⟨hinactive, hsame⟩ | hnoted
    · rw [hsame]
      exact h.entered hinactive t hu
    · rw [hnoted]
      exact hu
  · rw [hm.threads]
    by_contra hu
    rw [Bool.not_eq_false] at hu
    have hvfree := hm.freed he
    have hleft := ho hvfree t (h.entered (by rw [hvfree]; rfl) t hu)
    rw [hu] at hleft
    cases hleft

theorem Inv.step (h : Inv s) {a : ShutAction Tid} (ho : Orderly s a)
    (hs : shutStep s a = some s') : Inv s' := by
  cases a with
  | call t ab => exact call_step h hs
  | thread t => exact thread_step h ho hs
  | flusher => exact flusher_step h ho hs
  | exit => exact exit_step h ho hs

end Step

/-- **Shutdown**: in every state of every orderly run, whatever the order of the steps, nothing is
lost. -/
theorem lossless_of_reach (garbage : ℕ → UInt8) {s : ShutState Tid}
    (h : Reach shutStep Orderly (shutInit Tid garbage) s) : Lossless s := by
  have hinv : Inv s := h.inv (fun _ _ _ hi ho hs => hi.step ho hs) (shutInit_inv garbage)
  intro hfreed
  have hdone : s.stage = .done := hinv.stopped (by rw [hfreed]; rfl)
  have hfinal := hinv.final
  rw [hdone] at hfinal
  exact ⟨hfinal, hinv.freed hfreed⟩

/-! ### A record before the end, and one too late -/

/-- A step of the host without the flusher, while the module is being removed. -/
def liftAction : Action Tid → ShutAction Tid
  | .call t ab => .call t ab
  | .thread t => .thread t
  | .flusher _ => .flusher

theorem shutStep_liftAction {s : ShutState Tid} (hactive : s.exit.active = true) {a : Action Tid}
    (ha : ∀ ok, a ≠ .flusher ok) :
    shutStep s (liftAction a) = (hostStep s.host a).map fun host => { s with host } := by
  cases a with
  | call t ab => simp [liftAction, shutStep, hactive]
  | thread t => rfl
  | flusher ok => exact absurd rfl (ha ok)

/-- What threads do while `hardlog_active` is set, they do as long as the module is in use. -/
theorem runFrom_liftAction {s : ShutState Tid} (hactive : s.exit.active = true)
    {as : List (Action Tid)} (has : ∀ a ∈ as, ∀ ok, a ≠ .flusher ok) {host : HostState Tid}
    (h : runFrom hostStep s.host as = some host) :
    runFrom shutStep s (as.map liftAction) = some { s with host } ∧
      (s.stage.finalRead = false → EachStep hostStep NoWrap s.host as →
        EachStep shutStep Orderly s (as.map liftAction)) := by
  induction as generalizing s with
  | nil =>
    obtain rfl := Option.some.inj h
    exact ⟨rfl, fun _ _ => trivial⟩
  | cons a as ih =>
    simp only [runFrom, Option.bind_eq_some_iff] at h
    obtain ⟨host1, h1, h⟩ := h
    have hstep := shutStep_liftAction hactive (has a (List.mem_cons_self ..))
    rw [h1, Option.map_some] at hstep
    obtain ⟨hrun, heach⟩ := ih (s := { s with host := host1 }) hactive
      (fun b hb => has b (List.mem_cons_of_mem _ hb)) h
    refine ⟨?_, fun hread hwrap s1 hs1 => ?_⟩
    · rw [List.map_cons, runFrom, hstep, Option.bind_some, hrun]
    · obtain ⟨hC, hrest⟩ := hwrap host1 h1
      obtain rfl := Option.some.inj (hstep.symm.trans hs1)
      refine ⟨?_, heach hread hrest⟩
      cases a with
      | call t ab => trivial
      | thread t => exact ⟨hC, fun h => by rw [hread] at h; cases h⟩
      | flusher ok => exact absurd rfl (has _ (List.mem_cons_self ..) ok)

/-- The host after one thread logged a record of 500 bytes, as far as the flusher sees it. -/
structure Logged (host : HostState Unit) : Prop where
  out : host.threads () = .out
  head : host.cb.head = 500
  tail : host.cb.tail = 0
  writes : host.hist.writes = []

/-- The steps of a thread that logs a record of 500 bytes. -/
def logRecord : List (ShutAction Unit) :=
  (recordSchedule () (letterEvent none 499)).map liftAction

theorem runFrom_logRecord {s : ShutState Unit} (hactive : s.exit.active = true)
    (hhost : s.host = hostInit Unit fun _ => 0) :
    ∃ host, Logged host ∧ runFrom shutStep s logRecord = some { s with host } ∧
      (s.stage.finalRead = false → EachStep shutStep Orderly s logRecord) := by
  have hdrop := letterEvent_drops none (n := 499) (by omega) (by omega)
  have hlen := letterEvent_recordLen none (n := 499) (by omega)
  have hprio : isPrio (auditLogEndNewline (letterEvent none 499)) = false := by
    rw [isPrio, letterEvent_ctx none (by omega)]
  have hout : s.host.threads () = .out := by rw [hhost]; rfl
  have hfree : s.host.producer = none := by rw [hhost]; rfl
  have hfill : s.host.cb.fill < hardlogAuditCbuffsize := by
    rw [hhost]
    decide
  have hrun := runFrom_recordSchedule hout hfree hfill hdrop hprio
  obtain ⟨hlift, heach⟩ := runFrom_liftAction hactive (fun a ha ok h => by
    subst h
    simp [recordSchedule, appendSchedule] at ha) hrun
  refine ⟨_, ⟨goto_self _ _ _, ?_, ?_, ?_⟩, hlift, fun hread => heach hread ?_⟩
  · simp only [HostState.goto, HostState.appended, AuditCircBuffer.append, AuditCircBuffer.addHead,
      AuditCircBuffer.copyIn, length_record_newline hdrop, hlen, hhost]
    rfl
  · rw [hhost]
    rfl
  · rw [hhost]
    rfl
  · refine eachStep_recordSchedule hout hfree hfill hdrop hprio trivial fun s' h ab hpc => ?_
    obtain ⟨hab, hhead, -⟩ := h.bump ab hpc
    rw [hhead, hab, hlen, hhost]
    decide

theorem runFrom_exit (host : HostState Tid) (last : Option LastWrite) (inside : Tid → Bool) :
    runFrom shutStep ⟨host, .done, .stopping, last, inside⟩ (List.replicate 6 .exit) =
      some ⟨{ host with producer := none }, .done, .freed, last, fun t => usesRing (host.threads t)⟩ :=
  rfl

theorem eachStep_exit {host : HostState Tid} (h : ∀ t, usesRing (host.threads t) = false)
    (last : Option LastWrite) (inside : Tid → Bool) :
    EachStep shutStep Orderly ⟨host, .done, .stopping, last, inside⟩ (List.replicate 6 .exit) := by
  have hlast : EachStep shutStep Orderly
      ⟨{ host with producer := none }, .done, .vfree, last, fun t => usesRing (host.threads t)⟩
      [.exit] := EachStep.cons (fun _ t _ => h t) rfl trivial
  have hno : ∀ {pc : ExitPc} {inside}, pc ≠ .vfree → Orderly ⟨host, .done, pc, last, inside⟩ .exit :=
    fun hpc heq => absurd heq hpc
  exact EachStep.cons (hno nofun) rfl (EachStep.cons (hno nofun) rfl (EachStep.cons (hno nofun) rfl
    (EachStep.cons (hno nofun) rfl (EachStep.cons (hno nofun) rfl hlast))))

theorem reach_lastWrite {host : HostState Unit} (h : Logged host) (inside : Unit → Bool) :
    Reach shutStep Orderly ⟨host, .test, .running, none, inside⟩
      ⟨{ host with cb := { host.cb with tail := 500 } }, .done, .stopping, some ⟨500, 0, 0⟩, inside⟩ := by
  have hne : host.cb.head ≠ host.cb.tail := by
    rw [h.head, h.tail]
    decide
  have hbump : ∀ t ab, host.threads t ≠ .bump ab := fun t ab hb => by
    rw [h.out] at hb
    cases hb
  have hlap : host.cb.head.toNat / hardlogAuditCbuffsize =
      host.cb.tail.toNat / hardlogAuditCbuffsize := by
    rw [h.head, h.tail]
    decide
  -- the flusher is asked to stop, and finds the ring not empty
  have hasked : Reach shutStep Orderly ⟨host, .test, .running, none, inside⟩
      ⟨host, .test, .stopping, none, inside⟩ := (Reach.refl _).snoc (a := .exit) nofun rfl
  have hstop : Reach shutStep Orderly ⟨host, .test, .running, none, inside⟩
      ⟨host, .compare, .stopping, none, inside⟩ := hasked.snoc (a := .flusher) (fun hr => hr.elim) rfl
  have hcompare : Reach shutStep Orderly ⟨host, .test, .running, none, inside⟩
      ⟨host, .readEnd, .stopping, none, inside⟩ :=
    hstop.snoc (a := .flusher) (fun hr => absurd hr hne) (by
      simp only [shutStep, auditdThreadStep, if_neg hne])
  -- it reads the head for the last time
  have hread : Reach shutStep Orderly ⟨host, .test, .running, none, inside⟩
      ⟨host, .readStart 500, .stopping, none, inside⟩ :=
    hcompare.snoc (a := .flusher) (fun _ => ⟨hbump, hlap⟩) (by
      simp only [shutStep, auditdThreadStep, h.head])
  have hstart : Reach shutStep Orderly ⟨host, .test, .running, none, inside⟩
      ⟨host, .write 500 0, .stopping, none, inside⟩ :=
    hread.snoc (a := .flusher) (fun hr => hr.elim) (by
      simp only [shutStep, auditdThreadStep, h.tail]
      rfl)
  have hwrite : Reach shutStep Orderly ⟨host, .test, .running, none, inside⟩
      ⟨host, .setTail 500, .stopping, some ⟨500, 0, 0⟩, inside⟩ :=
    hstart.snoc (a := .flusher) (fun hr => hr.elim) (by
      simp only [shutStep, auditdThreadStep, h.tail])
  exact hwrite.snoc (a := .flusher) (fun hr => hr.elim) rfl

/-- A record is logged, the module is removed, and the last write takes the record along. -/
theorem lossless_after_record :
    ∃ s, Reach shutStep Orderly (shutInit Unit fun _ => 0) s ∧ s.exit = .freed ∧
      s.host.cb.head = 500 ∧ Lossless s := by
  obtain ⟨host, hlog, hrun, heach⟩ := runFrom_logRecord (s := shutInit Unit fun _ => 0) rfl rfl
  have h1 : Reach shutStep Orderly (shutInit Unit fun _ => 0)
      ⟨host, .test, .running, none, fun _ => false⟩ :=
    Reach.of_runFrom hrun (heach rfl)
  obtain ⟨host2, hthreads, hhead, h2⟩ : ∃ host2 : HostState Unit,
      host2.threads = host.threads ∧ host2.cb.head = 500 ∧
        Reach shutStep Orderly (shutInit Unit fun _ => 0)
          ⟨host2, .done, .stopping, some ⟨500, 0, 0⟩, fun _ => false⟩ :=
    ⟨{ host with cb := { host.cb with tail := 500 } }, rfl, hlog.head,
      h1.trans (reach_lastWrite hlog _)⟩
  have hunused : ∀ t, usesRing (host2.threads t) = false := fun t => by
    rw [hthreads, hlog.out]
    rfl
  have h3 := h2.trans (Reach.of_runFrom (runFrom_exit host2 _ _) (eachStep_exit hunused _ _))
  exact ⟨_, h3, rfl, hhead, lossless_of_reach (fun _ => 0) h3⟩

/-- A record that is logged behind the last write, before `hardlog_active` is cleared, is in no
range. -/
theorem logged_after_last_write :
    ∃ s, runFrom shutStep (shutInit Unit fun _ => 0)
      ([.exit, .flusher, .flusher] ++ (logRecord ++ List.replicate 6 .exit)) = some s ∧
        ¬ Lossless s := by
  obtain ⟨host, hlog, hrun, -⟩ :=
    runFrom_logRecord (s := ⟨hostInit Unit fun _ => 0, .done, .stopping, none, fun _ => false⟩) rfl rfl
  have hstopped : runFrom shutStep (shutInit Unit fun _ => 0) [.exit, .flusher, .flusher] =
      some ⟨hostInit Unit fun _ => 0, .done, .stopping, none, fun _ => false⟩ := rfl
  have hfreed : runFrom shutStep (shutInit Unit fun _ => 0)
      ([.exit, .flusher, .flusher] ++ (logRecord ++ List.replicate 6 .exit)) =
        some ⟨{ host with producer := none }, .done, .freed, none, fun t => usesRing (host.threads t)⟩ := by
    rw [runFrom_append, hstopped, Option.bind_some, runFrom_append, hrun, Option.bind_some]
    exact runFrom_exit host none _
  refine ⟨_, hfreed, fun h => ?_⟩
  obtain ⟨hall, -⟩ := h rfl
  rcases hall 0 (by simp only [hlog.head]; decide) with ⟨w, hw, -⟩ | ⟨w, hw, -⟩
  · rw [hlog.writes] at hw
    cases hw
  · cases hw

end HardLog.Host.Shutdown
