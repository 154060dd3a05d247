import HardLog.Host.EventBounds
import HardLog.Host.Ring

/-! # Producers and flusher

Any number of threads run `audit_log_end_hardlog`, one runs the loop of `hardlog_auditd_thread`,
and their steps interleave. A step is one access to the shared state: taking or releasing
`hardlog_audit_producer`, the test of `make_space_in_cbuff`, the `memcpy`, the update of the head,
its reading back, the test of the wait loop; on the other side the readings of the head and the
tail, the `usb_write` and the update of the tail. `threadStep_cases` says once what a step of a
thread can do. -/

namespace HardLog.Host.Threads

open HardLog.Lib.CInt HardLog.Lib.Runs HardLog.Host.Event HardLog.Host.Ring

/-- `prio_syscalls`. -/
def prioSyscalls : List ℤ := [56, 322, 59, 57, 101, 90, 10000, 106, 113, 105]

/-- `is_prio_syscall`. -/
def isPrioSyscall (syscall : ℤ) : Bool := prioSyscalls.any (· == syscall)

/-- The test of `audit_log_end_hardlog`: a context with a critical system call. -/
def isPrio (ab : AuditBuffer) : Bool :=
  match ab.ctx with
  | none => false
  | some ctx => isPrioSyscall ctx.major

/-- Where a thread is in `audit_log_end_hardlog`, with the values it carries. -/
inductive Pc where
  /-- Outside the function. -/
  | out
  /-- At the checks and the newline. -/
  | enter (ab : AuditBuffer)
  /-- At `mutex_lock`. -/
  | lock (ab : AuditBuffer)
  /-- In the loop of `make_space_in_cbuff`. -/
  | space (ab : AuditBuffer)
  /-- At the `memcpy`, with `cbuff_head` reduced to an index. -/
  | copy (ab : AuditBuffer) (cbuffHead : ℕ)
  /-- At `audit_cbuff.head += …`. -/
  | bump (ab : AuditBuffer)
  /-- At `cbuff_head = audit_cbuff.head`. -/
  | mark (ab : AuditBuffer)
  /-- At `mutex_unlock`, with the position to wait for. -/
  | unlock (ab : AuditBuffer) (cbuffHead : UInt64)
  /-- At the test for a critical system call. -/
  | prio (ab : AuditBuffer) (cbuffHead : UInt64)
  /-- In the loop that waits for the tail. -/
  | wait (ab : AuditBuffer) (cbuffHead : UInt64)
  /-- Behind it, about to free the event buffer. -/
  | free (ab : AuditBuffer)

/-- Between `mutex_lock` and `mutex_unlock`. -/
def Pc.locked : Pc → Bool
  | .space _ | .copy _ _ | .bump _ | .mark _ | .unlock _ _ => true
  | _ => false

/-- Where the flusher is in its loop, with its snapshots `end` and `start`. -/
inductive FlusherPc where
  | top
  | readTail (fin : UInt64)
  | log (fin start : UInt64)
  | write (fin start : UInt64)
  | setTail (fin : UInt64)
  | clear

/-- What has happened so far: the bytes appended, the values the head had at record boundaries, the
head just after each thread's last append, and the ranges of the completed `usb_write` calls. -/
structure History (Tid : Type) where
  stream : List UInt8
  boundaries : List UInt64
  ends : Tid → UInt64
  writes : List (UInt64 × UInt64)

/-- The host. -/
structure HostState (Tid : Type) where
  cb : AuditCircBuffer
  producer : Option Tid
  hardlogLogging : Bool
  threads : Tid → Pc
  flusher : FlusherPc
  hist : History Tid

/-- A call of the function, a step of a thread in it, or a step of the flusher, whose `usb_write`
succeeds or not. -/
inductive Action (Tid : Type) where
  | call (t : Tid) (ab : AuditBuffer)
  | thread (t : Tid)
  | flusher (ok : Bool)

variable {Tid : Type} [DecidableEq Tid]

/-- The host with a thread moved on. -/
def HostState.goto (s : HostState Tid) (t : Tid) (pc : Pc) : HostState Tid :=
  { s with threads := Function.update s.threads t pc }

/-- The history after thread `t` moved the head over `rec` to `h`. -/
def History.appended (hist : History Tid) (t : Tid) (rec : List UInt8) (h : UInt64) : History Tid :=
  { hist with
    stream := hist.stream ++ rec
    boundaries := h :: hist.boundaries
    ends := Function.update hist.ends t h }

/-- A step of a thread in `audit_log_end_hardlog`. -/
def threadStep (s : HostState Tid) (t : Tid) : Option (HostState Tid) :=
  match s.threads t with
  | .out => none
  | .enter ab =>
    if auditLogEndDrops ab then some (s.goto t .out)
    else some (s.goto t (.lock (auditLogEndNewline ab)))
  | .lock ab =>
    if s.producer.isNone then some { s.goto t (.space ab) with producer := some t } else none
  | .space ab =>
    -- the length of the record plays no part here
    if hardlogAuditCbuffsize ≤ s.cb.fill then some (s.goto t (.space ab))
    else some (s.goto t (.copy ab s.cb.headIndex))
  | .copy ab i => some { s.goto t (.bump ab) with cb := s.cb.copyIn i ab.record }
  | .bump ab =>
    some
      { s.goto t (.mark ab) with
        cb := s.cb.addHead ab.recordLen
        hist := s.hist.appended t ab.record (s.cb.addHead ab.recordLen).head }
  | .mark ab => some (s.goto t (.unlock ab s.cb.head))
  | .unlock ab h => some { s.goto t (.prio ab h) with producer := none }
  | .prio ab h => if isPrio ab then some (s.goto t (.wait ab h)) else some (s.goto t (.free ab))
  | .wait ab h =>
    if s.cb.tail < h then some (s.goto t (.wait ab h)) else some (s.goto t (.free ab))
  | .free _ => some (s.goto t .out)

/-- A step of the flusher. The result of `usb_write` is not looked at. -/
def flusherStep (s : HostState Tid) (ok : Bool) : HostState Tid :=
  match s.flusher with
  | .top => { s with flusher := .readTail s.cb.head }
  | .readTail fin => { s with flusher := .log fin s.cb.tail }
  | .log fin start => { s with flusher := .write fin start, hardlogLogging := true }
  | .write fin start =>
    { s with
      flusher := .setTail fin
      hist := if ok then { s.hist with writes := (start, fin) :: s.hist.writes } else s.hist }
  | .setTail fin => { s with flusher := .clear, cb := { s.cb with tail := fin } }
  | .clear => { s with flusher := .top, hardlogLogging := false }

/-- A step of the host. -/
def hostStep (s : HostState Tid) : Action Tid → Option (HostState Tid)
  | .call t ab =>
    match s.threads t with
    | .out => some (s.goto t (.enter ab))
    | _ => none
  | .thread t => threadStep s t
  | .flusher ok => some (flusherStep s ok)

/-- The host after `hardlog_logger_setup`, with the flusher running. -/
def hostInit (Tid : Type) (garbage : ℕ → UInt8) : HostState Tid where
  cb := hardlogLoggerSetup garbage
  producer := none
  hardlogLogging := false
  threads _ := .out
  flusher := .top
  hist := ⟨[], [0], fun _ => 0, []⟩

/-! ### What a step can do -/

@[simp] theorem goto_self (s : HostState Tid) (t : Tid) (pc : Pc) : (s.goto t pc).threads t = pc := by
  simp [HostState.goto]

theorem goto_other (s : HostState Tid) {t u : Tid} (pc : Pc) (h : u ≠ t) :
    (s.goto t pc).threads u = s.threads u := by
  simp [HostState.goto, h]

/-- The moves of a thread that change nothing shared. -/
inductive Quiet (s : HostState Tid) : Pc → Pc → Prop
  | drop (ab : AuditBuffer) : Quiet s (.enter ab) .out
  | newline (ab : AuditBuffer) : Quiet s (.enter ab) (.lock (auditLogEndNewline ab))
  | full (ab : AuditBuffer) : Quiet s (.space ab) (.space ab)
  | room (ab : AuditBuffer) (h : s.cb.fill < hardlogAuditCbuffsize) :
    Quiet s (.space ab) (.copy ab s.cb.headIndex)
  | mark (ab : AuditBuffer) : Quiet s (.mark ab) (.unlock ab s.cb.head)
  | toWait (ab : AuditBuffer) (h : UInt64) : Quiet s (.prio ab h) (.wait ab h)
  | notPrio (ab : AuditBuffer) (h : UInt64) (hp : isPrio ab = false) : Quiet s (.prio ab h) (.free ab)
  | sleep (ab : AuditBuffer) (h : UInt64) : Quiet s (.wait ab h) (.wait ab h)
  | flushed (ab : AuditBuffer) (h : UInt64) (hh : h ≤ s.cb.tail) : Quiet s (.wait ab h) (.free ab)
  | free (ab : AuditBuffer) : Quiet s (.free ab) .out

/-- **A thread's step**: a quiet move, taking the lock, copying, moving the head, or releasing the
lock. -/
theorem threadStep_cases {s s' : HostState Tid} {t : Tid} (hs : threadStep s t = some s') :
    (∃ pc, Quiet s (s.threads t) pc ∧ s' = s.goto t pc) ∨
    (∃ ab, s.threads t = .lock ab ∧ s.producer = none ∧
      s' = { s.goto t (.space ab) with producer := some t }) ∨
    (∃ ab i, s.threads t = .copy ab i ∧
      s' = { s.goto t (.bump ab) with cb := s.cb.copyIn i ab.record }) ∨
    (∃ ab, s.threads t = .bump ab ∧
      s' = { s.goto t (.mark ab) with
        cb := s.cb.addHead ab.recordLen
        hist := s.hist.appended t ab.record (s.cb.addHead ab.recordLen).head }) ∨
    (∃ ab h, s.threads t = .unlock ab h ∧
      s' = { s.goto t (.prio ab h) with producer := none }) := by
  unfold threadStep at hs
  cases hpc : s.threads t with
  | out => simp [hpc] at hs
  | enter ab =>
    simp only [hpc] at hs
    left
    split_ifs at hs <;> obtain rfl := Option.some.inj hs
    · exact ⟨_, .drop ab, rfl⟩
    · exact ⟨_, .newline ab, rfl⟩
  | lock ab =>
    simp only [hpc, Option.ite_none_right_eq_some, Option.isNone_iff_eq_none] at hs
    exact Or.inr (Or.inl ⟨ab, rfl, hs.1, (Option.some.inj hs.2).symm⟩)
  | space ab =>
    simp only [hpc] at hs
    left
    split_ifs at hs with hf <;> obtain rfl := Option.some.inj hs
    · exact ⟨_, .full ab, rfl⟩
    · exact ⟨_, .room ab (by omega), rfl⟩
  | copy ab i =>
    simp only [hpc] at hs
    exact Or.inr (Or.inr (Or.inl ⟨ab, i, rfl, (Option.some.inj hs).symm⟩))
  | bump ab =>
    simp only [hpc] at hs
    exact Or.inr (Or.inr (Or.inr (Or.inl ⟨ab, rfl, (Option.some.inj hs).symm⟩)))
  | mark ab =>
    simp only [hpc] at hs
    exact Or.inl ⟨_, .mark ab, (Option.some.inj hs).symm⟩
  | unlock ab h =>
    simp only [hpc] at hs
    exact Or.inr (Or.inr (Or.inr (Or.inr ⟨ab, h, rfl, (Option.some.inj hs).symm⟩)))
  | prio ab h =>
    simp only [hpc] at hs
    left
    split_ifs at hs with hp <;> obtain rfl := Option.some.inj hs
    · exact ⟨_, .toWait ab h, rfl⟩
    · exact ⟨_, .notPrio ab h (by simpa using hp), rfl⟩
  | wait ab h =>
    simp only [hpc] at hs
    left
    split_ifs at hs with ht <;> obtain rfl := Option.some.inj hs
    · exact ⟨_, .sleep ab h, rfl⟩
    · exact ⟨_, .flushed ab h (UInt64.not_lt.mp ht), rfl⟩
  | free ab =>
    simp only [hpc] at hs
    exact Or.inl ⟨_, .free ab, (Option.some.inj hs).symm⟩

theorem call_cases {s s' : HostState Tid} {t : Tid} {ab : AuditBuffer}
    (hs : hostStep s (.call t ab) = some s') :
    s.threads t = .out ∧ s' = s.goto t (.enter ab) := by
  simp only [hostStep] at hs
  split at hs
  · next h => exact ⟨h, (Option.some.inj hs).symm⟩
  · cases hs

/-! ### The producer lock -/

/-- Only the holder of `hardlog_audit_producer` is inside the locked part. -/
def Mutex (s : HostState Tid) : Prop := ∀ t, (s.threads t).locked = true → s.producer = some t

omit [DecidableEq Tid] in
theorem hostInit_mutex (garbage : ℕ → UInt8) : Mutex (hostInit Tid garbage) :=
  fun _ h => by cases h

omit [DecidableEq Tid] in
theorem Mutex.eq {s : HostState Tid} (h : Mutex s) {t u : Tid} (ht : (s.threads t).locked = true)
    (hu : (s.threads u).locked = true) : u = t :=
  Option.some.inj ((h u hu).symm.trans (h t ht))

theorem Mutex.goto {s : HostState Tid} (h : Mutex s) {t : Tid} (pc : Pc)
    (hpc : pc.locked = true → (s.threads t).locked = true) : Mutex (s.goto t pc) := by
  intro u hu
  by_cases hut : u = t
  · subst hut
    rw [goto_self] at hu
    exact h u (hpc hu)
  · rw [goto_other s pc hut] at hu
    exact h u hu

omit [DecidableEq Tid] in
theorem Quiet.locked {s : HostState Tid} {pc pc' : Pc} (h : Quiet s pc pc')
    (hl : pc'.locked = true) : pc.locked = true := by
  cases h <;> first | rfl | cases hl

theorem Mutex.step {s s' : HostState Tid} {a : Action Tid} (h : Mutex s)
    (hs : hostStep s a = some s') : Mutex s' := by
  cases a with
  | call t ab =>
    obtain ⟨-, rfl⟩ := call_cases hs
    exact h.goto _ fun hl => by cases hl
  | thread t =>
    rcases threadStep_cases hs with ⟨pc, hq, rfl⟩ | ⟨ab, hpc, hnone, rfl⟩ | ⟨ab, i, hpc, rfl⟩ |
      ⟨ab, hpc, rfl⟩ | ⟨ab, p, hpc, rfl⟩
    · exact h.goto _ hq.locked
    · intro u hu
      by_cases hut : u = t
      · rw [hut]
      · have := h u (by rwa [← goto_other s (.space ab) hut])
        rw [hnone] at this
        cases this
    · exact h.goto (.bump ab) fun _ => by rw [hpc]; rfl
    · exact h.goto (.mark ab) fun _ => by rw [hpc]; rfl
    · intro u hu
      have hut : u ≠ t := by
        rintro rfl
        have : (s.goto u (.prio ab p)).threads u = .prio ab p := goto_self s u _
        simp only [this] at hu
        cases hu
      exact absurd (h.eq (by rw [hpc]; rfl) (by rwa [← goto_other s (.prio ab p) hut])) hut
  | flusher ok =>
    obtain rfl := Option.some.inj hs
    intro u hu
    unfold flusherStep at hu ⊢
    cases hf : s.flusher <;> simp only [hf] at hu ⊢ <;> exact h u hu

/-! ### The order of the counters -/

/-- The head the flusher has read, if it is past that reading and has not yet used it. -/
def FlusherPc.fin : FlusherPc → Option UInt64
  | .readTail fin | .log fin _ | .write fin _ | .setTail fin => some fin
  | .top | .clear => none

/-- The tail is not past the head the flusher has read, nor that past the head. -/
structure Ordered (s : HostState Tid) : Prop where
  tail_le : s.cb.tail.toNat ≤ s.cb.head.toNat
  fin_le : ∀ fin, s.flusher.fin = some fin →
    s.cb.tail.toNat ≤ fin.toNat ∧ fin.toNat ≤ s.cb.head.toNat

/-- The update of the head stays below `2 ^ 64`. -/
def NoWrap (s : HostState Tid) : Action Tid → Prop
  | .thread t => ∀ ab, s.threads t = .bump ab → s.cb.head.toNat + ab.recordLen < 2 ^ 64
  | _ => True

theorem head_addHead {cb : AuditCircBuffer} {n : ℕ} (h : cb.head.toNat + n < 2 ^ 64) :
    (cb.addHead n).head.toNat = cb.head.toNat + n := by
  simp only [AuditCircBuffer.addHead, UInt64.toNat_add, UInt64.toNat_ofNat']
  rw [Nat.mod_eq_of_lt (show n < 2 ^ 64 by omega), Nat.mod_eq_of_lt h]

theorem fill_eq {cb : AuditCircBuffer} (h : cb.tail.toNat ≤ cb.head.toNat) :
    cb.fill = cb.head.toNat - cb.tail.toNat :=
  UInt64.toNat_sub_of_le _ _ (UInt64.le_iff_toNat_le.mpr h)

omit [DecidableEq Tid] in
theorem hostInit_ordered (garbage : ℕ → UInt8) : Ordered (hostInit Tid garbage) :=
  ⟨Nat.le_refl _, fun _ h => by cases h⟩

theorem Ordered.step {s s' : HostState Tid} {a : Action Tid} (h : Ordered s) (hn : NoWrap s a)
    (hs : hostStep s a = some s') : Ordered s' := by
  cases a with
  | call t ab =>
    obtain ⟨-, rfl⟩ := call_cases hs
    exact ⟨h.tail_le, h.fin_le⟩
  | thread t =>
    rcases threadStep_cases hs with ⟨pc, -, rfl⟩ | ⟨ab, -, -, rfl⟩ | ⟨ab, i, -, rfl⟩ |
      ⟨ab, hpc, rfl⟩ | ⟨ab, p, -, rfl⟩
    · exact ⟨h.tail_le, h.fin_le⟩
    · exact ⟨h.tail_le, h.fin_le⟩
    · exact ⟨h.tail_le, h.fin_le⟩
    · have hhead := head_addHead (hn ab hpc)
      refine ⟨?_, fun fin hf => ?_⟩
      · simp only [hhead]
        exact h.tail_le.trans (Nat.le_add_right _ _)
      · simp only [hhead]
        obtain ⟨h1, h2⟩ := h.fin_le fin hf
        exact ⟨h1, h2.trans (Nat.le_add_right _ _)⟩
    · exact ⟨h.tail_le, h.fin_le⟩
  | flusher ok =>
    obtain rfl := Option.some.inj hs
    have h1 := h.tail_le
    have h2 := h.fin_le
    unfold flusherStep
    cases hf : s.flusher with
    | top => exact ⟨h1, fun fin he => by cases he; exact ⟨h1, Nat.le_refl _⟩⟩
    | readTail fin => exact ⟨h1, fun fin he => by cases he; exact h2 _ (by rw [hf]; rfl)⟩
    | log fin start => exact ⟨h1, fun fin he => by cases he; exact h2 _ (by rw [hf]; rfl)⟩
    | write fin start => exact ⟨h1, fun fin he => by cases he; exact h2 _ (by rw [hf]; rfl)⟩
    | setTail fin => exact ⟨(h2 fin (by rw [hf]; rfl)).2, fun fin he => by cases he⟩
    | clear => exact ⟨h1, fun fin he => by cases he⟩

/-! ### An append that nobody disturbs -/

/-- A call and the steps of the thread up to the release of the lock. -/
def appendSchedule (t : Tid) (ab : AuditBuffer) : List (Action Tid) :=
  .call t ab :: List.replicate 7 (.thread t)

/-- The host after thread `t` appended the finished record of `ab` and released the lock. -/
def HostState.appended (s : HostState Tid) (t : Tid) (ab : AuditBuffer) : HostState Tid :=
  { s.goto t (.prio ab (s.cb.append ab.record).head) with
    cb := s.cb.append ab.record
    producer := none
    hist := s.hist.appended t ab.record (s.cb.append ab.record).head }

@[simp] theorem appended_threads_self (s : HostState Tid) (t : Tid) (ab : AuditBuffer) :
    (s.appended t ab).threads t = .prio ab (s.cb.append ab.record).head := goto_self s t _

theorem length_record_newline {ab : AuditBuffer} (h : auditLogEndDrops ab = false) :
    (auditLogEndNewline ab).record.length = (auditLogEndNewline ab).recordLen := by
  cases hb : ab.hardlogEventBuffer with
  | none => simp [auditLogEndDrops, hb] at h
  | some b =>
    obtain ⟨b', hb'⟩ : ∃ b', (auditLogEndNewline ab).hardlogEventBuffer = some b' := by
      unfold auditLogEndNewline
      rw [hb]
      exact ⟨_, rfl⟩
    exact length_record hb'

/-- **An append on its own**: with the lock free and space in the ring, the schedule runs, and does
what the ring does in one step. -/
theorem runFrom_appendSchedule {s : HostState Tid} {t : Tid} {ab : AuditBuffer}
    (hout : s.threads t = .out) (hfree : s.producer = none)
    (hfill : s.cb.fill < hardlogAuditCbuffsize) (hdrop : auditLogEndDrops ab = false) :
    runFrom hostStep s (appendSchedule t ab) = some (s.appended t (auditLogEndNewline ab)) := by
  have hf : ¬ hardlogAuditCbuffsize ≤ s.cb.fill := by omega
  have hlen := length_record_newline hdrop
  simp [appendSchedule, List.replicate, runFrom, hostStep, threadStep, HostState.goto,
    HostState.appended, AuditCircBuffer.append, hlen, hout, hfree, hdrop, hf]

/-- What a condition on the steps of such an append has to deal with: where the record is copied or
the head is moved, the counters are those at the start. -/
structure Appending (s : HostState Tid) (t : Tid) (ab : AuditBuffer) (s' : HostState Tid) :
    Prop where
  copy : ∀ ab' i, s'.threads t = .copy ab' i →
    ab' = ab ∧ s'.cb.head = s.cb.head ∧ s'.cb.tail = s.cb.tail
  bump : ∀ ab', s'.threads t = .bump ab' →
    ab' = ab ∧ s'.cb.head = s.cb.head ∧ s'.cb.tail = s.cb.tail

theorem eachStep_appendSchedule {C : HostState Tid → Action Tid → Prop} {s : HostState Tid} {t : Tid}
    {ab : AuditBuffer} (hout : s.threads t = .out) (hfree : s.producer = none)
    (hfill : s.cb.fill < hardlogAuditCbuffsize) (hdrop : auditLogEndDrops ab = false)
    (hcall : C s (.call t ab))
    (hthread : ∀ s', Appending s t (auditLogEndNewline ab) s' → C s' (.thread t)) :
    EachStep hostStep C s (appendSchedule t ab) := by
  have hf : ¬ hardlogAuditCbuffsize ≤ s.cb.fill := by omega
  simp only [appendSchedule, List.replicate, EachStep, hostStep, threadStep, HostState.goto, hout,
    hdrop, Option.some.injEq, forall_eq', hfree, hf, Function.update_self, if_false, if_true,
    Option.isNone_none, Bool.false_eq_true, and_true]
  refine ⟨hcall, hthread _ ⟨?_, ?_⟩, hthread _ ⟨?_, ?_⟩, hthread _ ⟨?_, ?_⟩, hthread _ ⟨?_, ?_⟩,
    hthread _ ⟨?_, ?_⟩, hthread _ ⟨?_, ?_⟩, hthread _ ⟨?_, ?_⟩⟩
  all_goals simp [AuditCircBuffer.copyIn]

/-- An append of a record that is not critical, up to the return. -/
def recordSchedule (t : Tid) (ab : AuditBuffer) : List (Action Tid) :=
  appendSchedule t ab ++ [.thread t, .thread t]

section Record

variable {s : HostState Tid} {t : Tid} {ab : AuditBuffer} (hout : s.threads t = .out)
  (hfree : s.producer = none) (hfill : s.cb.fill < hardlogAuditCbuffsize)
  (hdrop : auditLogEndDrops ab = false) (hprio : isPrio (auditLogEndNewline ab) = false)
include hout hfree hfill hdrop hprio

theorem runFrom_recordSchedule :
    runFrom hostStep s (recordSchedule t ab) =
      some ((s.appended t (auditLogEndNewline ab)).goto t .out) := by
  rw [recordSchedule, runFrom_append, runFrom_appendSchedule hout hfree hfill hdrop]
  simp [runFrom, hostStep, threadStep, HostState.goto, hprio]

theorem eachStep_recordSchedule {C : HostState Tid → Action Tid → Prop} (hcall : C s (.call t ab))
    (hthread : ∀ s', Appending s t (auditLogEndNewline ab) s' → C s' (.thread t)) :
    EachStep hostStep C s (recordSchedule t ab) := by
  refine (eachStep_appendSchedule hout hfree hfill hdrop hcall hthread).append
    (runFrom_appendSchedule hout hfree hfill hdrop) ?_
  simp only [EachStep, hostStep, threadStep, appended_threads_self, hprio, Bool.false_eq_true,
    if_false, Option.some.injEq, forall_eq', goto_self, and_true]
  refine ⟨hthread _ ⟨?_, ?_⟩, hthread _ ⟨?_, ?_⟩⟩
  all_goals simp

end Record

/-- The event of one format call that was rendered to `n` letters. -/
def letterEvent (ctx : Option AuditContext) (n : ℕ) : AuditBuffer :=
  auditLogFormatHardlog (auditLogStartHardlog ⟨ctx, none, 0⟩ (some fun _ => 0))
    (List.replicate n 65)

theorem letterEvent_eq (ctx : Option AuditContext) {n : ℕ} (hn : n < 511) :
    letterEvent ctx n =
      ⟨ctx, some ((⟨fun _ => 0, fun _ => false, []⟩ : EventBuffer).store 0
        (List.replicate n 65 ++ [0])), n⟩ := by
  have hlen : (List.replicate n (65 : UInt8)).length = n := List.length_replicate
  have hs := (EventBounds.start_inv ⟨ctx, none, 0⟩ fun _ => 0).inRange.formatHardlog_spec
    (List.replicate n 65)
  unfold letterEvent
  rw [hs, if_neg (by simp [auditLogStartHardlog])]
  simp only [auditLogStartHardlog, EventBounds.stored, hlen]
  rw [int32_eq (by omega) (by omega), if_pos (by omega), int32_eq (by omega) (by omega),
    List.take_of_length_le (by rw [hlen]; omega), Int.zero_add]

theorem letterEvent_drops (ctx : Option AuditContext) {n : ℕ} (h35 : 35 ≤ n) (hn : n < 511) :
    auditLogEndDrops (letterEvent ctx n) = false := by
  rw [letterEvent_eq ctx hn]
  simp only [auditLogEndDrops, decide_eq_false_iff_not, Nat.not_lt]
  refine h35.trans (le_strlen (by omega) fun i hi => ?_)
  have h1 : (0 : ℤ) ≤ i ∧ (i : ℤ) < 0 + (List.replicate n (65 : UInt8) ++ [0]).length := by
    rw [List.length_append, List.length_replicate]; simp; omega
  simp only [EventBuffer.store, if_pos h1]
  simp [List.getElem?_append, hi]

theorem letterEvent_recordLen (ctx : Option AuditContext) {n : ℕ} (hn : n < 511) :
    (auditLogEndNewline (letterEvent ctx n)).recordLen = n + 1 := by
  obtain ⟨b, hI⟩ := (EventBounds.start_inv ⟨ctx, none, 0⟩ fun _ => 0).format_run
    (List.replicate n 65) fun _ => by
      rw [List.length_replicate, int32_eq (by omega) (by omega)]
      simp [auditLogStartHardlog, hardlogAuditBlocksize, hardlogAuditEventsize]; omega
  have hc : (letterEvent ctx n).hardlogEventConsumed = n := by rw [letterEvent_eq ctx hn]
  have hr := hI.recordLen_endNewline
  change _ = (letterEvent ctx n).hardlogEventConsumed + 1 at hr
  rw [hc] at hr
  exact_mod_cast hr

theorem letterEvent_ctx (ctx : Option AuditContext) {n : ℕ} (hn : n < 511) :
    (auditLogEndNewline (letterEvent ctx n)).ctx = ctx := by
  rw [letterEvent_eq ctx hn]
  rfl

end HardLog.Host.Threads
