import HardLog.Host.LiveFlush
import HardLog.Host.Priority

/-! # Critical events are on the device before their thread goes on

`covered_of_free` says of a critical event that a completed `usb_write` has had its positions in the
ring. Here the calls of `bio_write` take their pages round by round from a ring that is being written
to, and the result is about bytes: when a thread with a critical system call leaves its wait loop, its
own record, at its own place in the stream, and every record before it are among the bytes that were
submitted (`synchronous_of_reach`). -/

namespace HardLog.Host.Synchronous

open HardLog.Lib.CInt HardLog.Lib.Memory HardLog.Lib.Runs HardLog.Lib.Refine
open HardLog.Host.Event HardLog.Host.Ring HardLog.Host.Threads HardLog.Host.Priority
open HardLog.Host.BioFs HardLog.Host.Linear HardLog.Host.LiveFlush

variable {Tid : Type}

/-! ### The record of a thread -/

/-- What the thread has appended in the present call. -/
def appendedAt : Pc → Option AuditBuffer
  | .mark ab | .unlock ab _ | .prio ab _ | .wait ab _ | .free ab => some ab
  | _ => none

/-- The record ends where the head was just after the thread's last append. -/
def Own (s : HostState Tid) (t : Tid) (ab : AuditBuffer) : Prop :=
  ∃ before, before ++ ab.record <+: s.hist.stream ∧
    s.hist.ends t = UInt64.ofNat (before ++ ab.record).length

/-- Where the record of a thread is, and what the thread knows of it. -/
structure Noted (s : HostState Tid) (t : Tid) : Prop where
  own : ∀ ab, appendedAt (s.threads t) = some ab → Own s t ab
  marked : Marked s (s.hist.ends t) (s.threads t)

/-- What is kept, up to the wrap of the counters. -/
structure Inv (P : (ℕ → UInt8) → ℕ → List UInt8 → Prop) (s : HostState Tid) : Prop where
  follows : ∃ r, Follows P s r
  ordered : Ordered s
  short : s.hist.stream.length < 2 ^ 64
  noted : ∀ t, Noted s t

theorem hostInit_inv (P : (ℕ → UInt8) → ℕ → List UInt8 → Prop) (garbage : ℕ → UInt8) :
    Inv P (hostInit Tid garbage) where
  follows := ⟨_, hostInit_follows P garbage⟩
  ordered := hostInit_ordered garbage
  short := Nat.two_pow_pos 64
  noted := fun _ => ⟨fun _ h => (by cases h), trivial⟩

section Moves

variable {s s' : HostState Tid} {t u : Tid}

theorem Noted.keep (h : Noted s t) (hpc : s'.threads t = s.threads t)
    (hends : s'.hist.ends t = s.hist.ends t) (hstream : s.hist.stream <+: s'.hist.stream)
    (hhead : (∀ ab, s.threads t ≠ .mark ab) ∨ s'.cb.head = s.cb.head)
    (htail : s.cb.tail.toNat ≤ s'.cb.tail.toNat) : Noted s' t := by
  refine ⟨fun ab hab => ?_, ?_⟩
  · rw [hpc] at hab
    obtain ⟨before, hpre, hend⟩ := h.own ab hab
    exact ⟨before, hpre.trans hstream, hends.trans hend⟩
  · have hm := h.marked
    rw [hpc, hends]
    rcases hhead with hnot | hhead
    · cases hu : s.threads t with
      | mark ab => exact absurd hu (hnot ab)
      | _ =>
        rw [hu] at hm
        first
          | trivial
          | exact hm
          | exact fun hp => UInt64.le_trans (hm hp) (UInt64.le_iff_toNat_le.mpr htail)
    · exact hm.congr hhead htail

variable [DecidableEq Tid]

theorem Noted.quiet (h : Noted s t) {pc : Pc} (hq : Quiet s (s.threads t) pc) :
    Noted (s.goto t pc) t := by
  obtain ⟨hown, hm⟩ := h
  refine ⟨fun ab hab => ?_, ?_⟩
  · rw [goto_self] at hab
    refine hown ab ?_
    generalize s.threads t = pc₀ at hq
    cases hq <;> first | exact hab | cases hab
  · rw [goto_self]
    generalize s.threads t = pc₀ at hq hm
    cases hq with
    | mark | toWait | sleep => exact hm
    | notPrio ab p hp => exact fun hp' => absurd hp' (by rw [hp]; exact Bool.false_ne_true)
    | flushed ab p hp =>
      have hend : p = s.hist.ends t := hm
      exact fun _ => hend ▸ hp
    | _ => trivial

end Moves

section Steps

variable [DecidableEq Tid] {P : (ℕ → UInt8) → ℕ → List UInt8 → Prop} {s s' : HostState Tid} {t : Tid}

omit [DecidableEq Tid] in
theorem Inv.head (h : Inv P s) : s.cb.head = UInt64.ofNat s.hist.stream.length := by
  obtain ⟨r, hf⟩ := h.follows
  rw [hf.stream, hf.head, hf.counters.head]

theorem Inv.bump (h : Inv P s) {ab : AuditBuffer} (hpc : s.threads t = .bump ab)
    (hn : s.cb.head.toNat + ab.recordLen < 2 ^ 64)
    (hs' : s' = { s.goto t (.mark ab) with
        cb := s.cb.addHead ab.recordLen
        hist := s.hist.appended t ab.record (s.cb.addHead ab.recordLen).head })
    (hfollows : ∃ r, Follows P s' r) (hordered : Ordered s') : Inv P s' := by
  obtain ⟨r, hf⟩ := h.follows
  have hlen : ab.record.length = ab.recordLen := by
    have hp := hf.placed t
    rw [hpc] at hp
    exact hp.1
  have hshort : s'.hist.stream.length < 2 ^ 64 := by
    rw [h.head, UInt64.toNat_ofNat', Nat.mod_eq_of_lt h.short] at hn
    subst hs'
    simp only [History.appended, List.length_append, hlen]
    exact hn
  have hhead : s'.cb.head = UInt64.ofNat s'.hist.stream.length := by
    obtain ⟨r', hf'⟩ := hfollows
    rw [hf'.stream, hf'.head, hf'.counters.head]
  subst hs'
  refine ⟨hfollows, hordered, hshort, fun u => ?_⟩
  by_cases hut : u = t
  · subst hut
    have hends : (s.hist.appended u ab.record (s.cb.addHead ab.recordLen).head).ends u =
        (s.cb.addHead ab.recordLen).head := Function.update_self u _ s.hist.ends
    refine ⟨fun ab' hab => ?_, ?_⟩
    · simp only [goto_self, appendedAt, Option.some.injEq] at hab
      subst hab
      exact ⟨s.hist.stream, List.prefix_refl _, hends.trans hhead⟩
    · simp only [goto_self]
      exact hends.symm
  · refine (h.noted u).keep (goto_other s (.mark ab) hut) (Function.update_of_ne hut _ _)
      (List.prefix_append _ _) (Or.inl fun ab' hu => ?_) (Nat.le_refl _)
    exact hut (hf.mutex.eq (by rw [hpc]; rfl) (by rw [hu]; rfl))

theorem Inv.move (h : Inv P s) {q : Pc} (hfollows : ∃ r, Follows P s' r) (hordered : Ordered s')
    (hthreads : s'.threads = (s.goto t q).threads) (hhead : s'.cb.head = s.cb.head)
    (htail : s'.cb.tail = s.cb.tail) (hhist : s'.hist = s.hist)
    (hpc : Noted (s.goto t q) t) : Inv P s' := by
  refine ⟨hfollows, hordered, by rw [hhist]; exact h.short, fun u => ?_⟩
  by_cases hut : u = t
  · subst hut
    exact hpc.keep (congrFun hthreads u) (by rw [hhist]; rfl) (by rw [hhist]; exact List.prefix_refl _)
      (Or.inr hhead) (by rw [htail]; exact Nat.le_refl _)
  · exact (h.noted u).keep (by rw [hthreads, goto_other s q hut]) (by rw [hhist])
      (by simp only [hhist, List.prefix_refl]) (Or.inr hhead) (by rw [htail])

theorem noted_of_none {q : Pc} (hnone : appendedAt q = none) : Noted (s.goto t q) t := by
  refine ⟨fun ab hab => ?_, ?_⟩
  · rw [goto_self, hnone] at hab
    cases hab
  · rw [goto_self]
    cases q <;> trivial

theorem Inv.thread_step (h : Inv P s) (hn : NoWrap s (.thread t)) (hfollows : ∃ r, Follows P s' r)
    (hordered : Ordered s') (hs : threadStep s t = some s') : Inv P s' := by
  rcases threadStep_cases hs with ⟨pc, hq, rfl⟩ | ⟨ab, -, -, rfl⟩ | ⟨ab, i, -, rfl⟩ |
    ⟨ab, hpc, rfl⟩ | ⟨ab, p, hpc, rfl⟩
  · exact h.move hfollows hordered rfl rfl rfl rfl ((h.noted t).quiet hq)
  · exact h.move hfollows hordered rfl rfl rfl rfl (noted_of_none (q := .space ab) rfl)
  · exact h.move hfollows hordered rfl rfl rfl rfl (noted_of_none (q := .bump ab) rfl)
  · exact h.bump hpc (hn ab hpc) rfl hfollows hordered
  · refine h.move (q := .prio ab p) hfollows hordered rfl rfl rfl rfl ⟨fun ab' hab => ?_, ?_⟩
    · rw [goto_self] at hab
      exact (h.noted t).own ab' (by rw [hpc]; exact hab)
    · have hm := (h.noted t).marked
      rw [hpc] at hm
      rw [goto_self]
      exact hm

omit [DecidableEq Tid] in
theorem Inv.flusher_step (h : Inv P s) {ok : Bool} (hfollows : ∃ r, Follows P (flusherStep s ok) r)
    (hordered : Ordered (flusherStep s ok)) : Inv P (flusherStep s ok) := by
  have hframe : (flusherStep s ok).threads = s.threads ∧ (flusherStep s ok).cb.head = s.cb.head ∧
      (flusherStep s ok).hist.ends = s.hist.ends ∧
        (flusherStep s ok).hist.stream = s.hist.stream ∧
          s.cb.tail.toNat ≤ (flusherStep s ok).cb.tail.toNat := by
    unfold flusherStep
    cases hpc : s.flusher with
    | write fin start => cases ok <;> exact ⟨rfl, rfl, rfl, rfl, Nat.le_refl _⟩
    | setTail fin => exact ⟨rfl, rfl, rfl, rfl, (h.ordered.fin_le fin (by rw [hpc]; rfl)).1⟩
    | _ => exact ⟨rfl, rfl, rfl, rfl, Nat.le_refl _⟩
  obtain ⟨hthreads, hhead, hends, hstream, htail⟩ := hframe
  refine ⟨hfollows, hordered, by rw [hstream]; exact h.short, fun t => ?_⟩
  exact (h.noted t).keep (by rw [hthreads]) (by rw [hends])
    (by simp only [hstream, List.prefix_refl]) (Or.inr hhead) htail

theorem Inv.step {a : Threads.Action Tid} (h : Inv P s) (hok : Copies P s a ∧ NoWrap s a)
    (hs : hostStep s a = some s') : Inv P s' := by
  have hfollows : ∃ r, Follows P s' r := by
    obtain ⟨r, hf⟩ := h.follows
    obtain ⟨r', -, hf'⟩ := simulation P s a s' r hf hok.1 hs
    exact ⟨r', hf'⟩
  have hordered := h.ordered.step hok.2 hs
  cases a with
  | call t ab =>
    obtain ⟨-, rfl⟩ := call_cases hs
    exact h.move hfollows hordered rfl rfl rfl rfl (noted_of_none (q := .enter ab) rfl)
  | thread t => exact h.thread_step hok.2 hfollows hordered hs
  | flusher ok =>
    obtain rfl := Option.some.inj hs
    exact h.flusher_step hfollows hordered

omit [DecidableEq Tid] in
/-- Behind its wait loop a thread with a critical system call has its record in front of the tail. -/
theorem Inv.flushed (h : Inv P s) {flushed : ℕ} (hU : Unflushed s flushed) {ab : AuditBuffer}
    (hpc : s.threads t = .free ab) (hprio : isPrio ab = true) :
    ∃ before, before ++ ab.record <+: s.hist.stream.take flushed ∧
      (before ++ ab.record).length = (s.hist.ends t).toNat := by
  obtain ⟨hown, hm⟩ := h.noted t
  rw [hpc] at hown hm
  obtain ⟨before, hpre, hend⟩ := hown ab rfl
  have hle := hpre.length_le
  have hshort := h.short
  have hpos : (s.hist.ends t).toNat = (before ++ ab.record).length := by
    rw [hend, UInt64.toNat_ofNat', Nat.mod_eq_of_lt (by omega)]
  have htail : (before ++ ab.record).length ≤ flushed := by
    have hflushed := hU.le
    have := UInt64.le_iff_toNat_le.mp (hm hprio)
    rwa [hpos, hU.tail, UInt64.toNat_ofNat', Nat.mod_eq_of_lt (by omega)] at this
  exact ⟨before, List.prefix_take_iff.mpr ⟨hpre, htail⟩, hpos.symm⟩

end Steps

/-! ### Flushes while records are appended -/

variable [DecidableEq Tid]

/-- A sound step, in which the head does not wrap. -/
def Steady (s : LiveState Tid) (a : LiveAction Tid) : Prop :=
  Sound s a ∧ match a with
    | .thread t => NoWrap s.host (.thread t)
    | _ => True

theorem inv_of_steady (garbage : ℕ → UInt8) (d : Statics) {s : LiveState Tid}
    (h : Reach liveStep Steady (liveInit Tid garbage d) s) : Inv Inside s.host := by
  have hsim : Simulation (@liveStep Tid _) Steady hostStep
      (fun s a => Copies Inside s a ∧ NoWrap s a) (fun s host => s.host = host) :=
    projects (fun _ _ _ => ⟨trivial, trivial⟩) (fun _ _ hok => ⟨hok.1, hok.2⟩)
      (fun _ _ => ⟨trivial, trivial⟩)
  obtain ⟨host, rfl, hinv⟩ := hsim.inv (I := Inv Inside) (fun _ _ _ hi hok hs => hi.step hok hs)
    rfl (hostInit_inv Inside garbage) h
  exact hinv

omit [DecidableEq Tid] in
theorem Inv.delivered {P : (ℕ → UInt8) → ℕ → List UInt8 → Prop} {s : LiveState Tid} {flushed : ℕ}
    (h : Inv P s.host) (hU : Unflushed s.host flushed) (hup : DeliveredUpTo s flushed) {t : Tid}
    {ab : AuditBuffer} (hpc : s.host.threads t = .free ab) (hprio : isPrio ab = true) :
    ∃ before, before ++ ab.record <+: delivered s.flushes ∧
      (before ++ ab.record).length = (s.host.hist.ends t).toNat := by
  obtain ⟨e, hle, -, hup⟩ := hup.take hU.le
  obtain ⟨before, hpre, hlen⟩ := h.flushed hU hpc hprio
  refine ⟨before, ?_, hlen⟩
  rw [hup]
  exact hpre.trans (List.take_prefix_take_left hle)

/-- **Critical events**: take any run of any number of threads and of the flusher, whose copies are of
at most 512 bytes, have room and stay inside the ring, whose submits succeed, whose ranges are empty or
paged and whose head does not wrap. When a thread with a critical system call is behind its wait loop,
the record that it has appended, which ends where the head was then, and all that was appended in front
of it have been submitted. -/
theorem synchronous_of_reach (garbage : ℕ → UInt8) (d : Statics) {s : LiveState Tid}
    (h : Reach liveStep Steady (liveInit Tid garbage d) s) {t : Tid} {ab : AuditBuffer}
    (hpc : s.host.threads t = .free ab) (hprio : isPrio ab = true) :
    delivered s.flushes <+: s.host.hist.stream ∧
      ∃ before, before ++ ab.record <+: delivered s.flushes ∧
        (before ++ ab.record).length = (s.host.hist.ends t).toNat := by
  obtain ⟨r, hf, hr, hp⟩ := inv_of_reach garbage d (h.mono fun _ _ hok => hok.1)
  have hU := hf.unflushed hr
  obtain ⟨e, -, -, hup⟩ := hp.upTo.take hU.le
  exact ⟨hup ▸ List.take_prefix _ _, (inv_of_steady garbage d h).delivered hU hp.upTo hpc hprio⟩

/-- The host before the first record. -/
def beforeFirst : LiveState Unit := liveInit Unit (fun _ => 0) ⟨1, fun _ => 0⟩

/-- The end of a call for `execve` with 49 letters, a flush, and the end of the wait. -/
def execveSchedule : List (LiveAction Unit) :=
  .call () (letterEvent (some ⟨59⟩) 49) :: List.replicate 7 (.thread ()) ++
    (List.replicate 6 (.flusher fun _ => 0) ++ List.replicate 2 (.thread ()))

/-- Where the schedule ends. -/
def afterExecve : LiveState Unit := stateAfter liveStep beforeFirst execveSchedule

theorem reach_execve : ∃ ab, Reach liveStep Steady beforeFirst afterExecve ∧
    afterExecve.host.threads () = .free ab ∧ isPrio ab = true ∧
      afterExecve.host.hist.ends () = 50 := by
  obtain ⟨ab, host, hrun, hC, hhead, htail, hfl, hends, hctx, hpc⟩ :=
    run_letters (P := Inside) (some ⟨59⟩) fun _ rec hrec => Or.inl (by rw [hrec]; decide)
  have hprio : isPrio ab = true := by
    rw [isPrio, hctx]
    rfl
  obtain ⟨happend, hcopies⟩ := runFrom_append_threads (s := beforeFirst) (D := Steady)
    (fun _ _ _ => ⟨trivial, trivial⟩) (fun _ _ hok => ⟨hok.1, hok.2⟩) hrun hC
  obtain ⟨s, hs, hfree, hend⟩ : ∃ s, runFrom liveStep { beforeFirst with host }
      (List.replicate 6 (.flusher fun _ => 0) ++ List.replicate 2 (.thread ())) = some s ∧
        s.host.threads () = .free ab ∧ s.host.hist.ends () = 50 := by
    simp [beforeFirst, liveInit, List.replicate, runFrom, liveStep, hostStep, flusherStep, threadStep,
      HostState.goto, hfl, hhead, htail, hpc, hprio, hends, bioWriteStep, bioWriteRound, addPage,
      bioWriteRest, Vars.submit, LiveState.finishWith, LiveState.finish, pageSize]
  have hsteady : EachStep liveStep Steady { beforeFirst with host }
      (List.replicate 6 (.flusher fun _ => 0) ++ List.replicate 2 (.thread ())) := by
    simp [beforeFirst, liveInit, List.replicate, EachStep, liveStep, hostStep, flusherStep, threadStep,
      HostState.goto, hfl, hhead, htail, hpc, hprio, bioWriteStep, bioWriteRound, addPage,
      bioWriteRest, Vars.submit, LiveState.finishWith, LiveState.finish, pageSize, Steady, Sound,
      Paged, Copies, NoWrap]
  have hall : runFrom liveStep beforeFirst execveSchedule = some s := by
    rw [execveSchedule, runFrom_append, happend]
    exact hs
  rw [afterExecve, stateAfter_eq hall]
  exact ⟨ab, (Reach.of_runFrom happend hcopies).trans (Reach.of_runFrom hs hsteady), hfree, hprio, hend⟩

/-- The record is delivered. -/
theorem synchronous_execve : ∃ ab, Reach liveStep Steady beforeFirst afterExecve ∧
    afterExecve.host.threads () = .free ab ∧
      ∃ before, before ++ ab.record <+: delivered afterExecve.flushes ∧
        (before ++ ab.record).length = 50 := by
  obtain ⟨ab, hreach, hpc, hprio, hend⟩ := reach_execve
  obtain ⟨-, before, hpre, hlen⟩ := synchronous_of_reach (fun _ => 0) ⟨1, fun _ => 0⟩ hreach hpc hprio
  exact ⟨ab, hreach, hpc, before, hpre, by rw [hlen, hend]; rfl⟩

end HardLog.Host.Synchronous
