import HardLog.Host.Linear

/-! # How long the threads wait

`audit_log_end_hardlog` spins in two places: in `make_space_in_cbuff`, with the producer lock held,
until the flusher has made room, and behind a critical event until the flusher has passed it. The
flusher takes its snapshot of the head once in six steps and the tail follows four steps later, so
whatever the head is, ten steps of the flusher take the tail there (`stepsLeft`), however the other
threads' steps lie between them and however much they append meanwhile. -/

namespace HardLog.Host.Waiting

open HardLog.Lib.CInt HardLog.Lib.Runs HardLog.Host.Event HardLog.Host.Ring HardLog.Host.Threads
open HardLog.Host.Linear

variable {Tid : Type}

/-- The steps that the flusher needs before the tail is at `n` or past it. -/
def stepsLeft (n : ℕ) (s : HostState Tid) : ℕ :=
  if n ≤ s.cb.tail.toNat then 0
  else
    match s.flusher with
    | .top => 5
    | .readTail fin => if n ≤ fin.toNat then 4 else 10
    | .log fin _ => if n ≤ fin.toNat then 3 else 9
    | .write fin _ => if n ≤ fin.toNat then 2 else 8
    | .setTail fin => if n ≤ fin.toNat then 1 else 7
    | .clear => 6

/-- A step of the flusher. -/
def isFlusher : Threads.Action Tid → Bool
  | .flusher _ => true
  | _ => false

/-- The counters are in order, and the head has been at the position a thread waits for. -/
structure Behind (n : ℕ) (s : HostState Tid) : Prop where
  ordered : Ordered s
  le_head : n ≤ s.cb.head.toNat

theorem stepsLeft_le (n : ℕ) (s : HostState Tid) : stepsLeft n s ≤ 10 := by
  unfold stepsLeft
  split_ifs
  · exact Nat.zero_le _
  · cases s.flusher with
    | top | clear => simp
    | _ =>
      simp only
      split_ifs <;> omega

theorem le_tail_of_stepsLeft {n : ℕ} {s : HostState Tid} (h : stepsLeft n s = 0) :
    n ≤ s.cb.tail.toNat := by
  by_contra hn
  unfold stepsLeft at h
  rw [if_neg hn] at h
  cases hf : s.flusher with
  | top | clear => simp [hf] at h
  | _ =>
    simp only [hf] at h
    split_ifs at h

/-! ### One step -/

theorem Behind.flusher_step {n : ℕ} {s : HostState Tid} (h : Behind n s) (ok : Bool) :
    stepsLeft n (flusherStep s ok) ≤ stepsLeft n s - 1 := by
  have hhead := h.le_head
  by_cases hle : n ≤ s.cb.tail.toNat
  · have hset : ∀ fin, s.flusher = .setTail fin → n ≤ fin.toNat :=
      fun fin hf => hle.trans (h.ordered.fin_le fin (by rw [hf]; rfl)).1
    have hzero : stepsLeft n (flusherStep s ok) = 0 := by
      unfold stepsLeft flusherStep
      cases hf : s.flusher with
      | setTail fin => simp [hset fin hf]
      | _ => simp [hle]
    omega
  · unfold stepsLeft flusherStep
    cases hf : s.flusher with
    | clear => simp only [if_neg hle, Nat.le_refl]
    | _ =>
      simp only [if_neg hle]
      split_ifs <;> omega

theorem flusherStep_threads (s : HostState Tid) (ok : Bool) :
    (flusherStep s ok).threads = s.threads := by
  unfold flusherStep
  cases s.flusher <;> rfl

variable [DecidableEq Tid]

theorem head_mono {s s' : HostState Tid} {a : Threads.Action Tid} (hn : NoWrap s a)
    (hs : hostStep s a = some s') : s.cb.head.toNat ≤ s'.cb.head.toNat := by
  cases a with
  | call t ab =>
    obtain ⟨-, rfl⟩ := call_cases hs
    exact Nat.le_refl _
  | thread t =>
    rcases threadStep_cases hs with ⟨pc, -, rfl⟩ | ⟨ab, -, -, rfl⟩ | ⟨ab, i, -, rfl⟩ |
      ⟨ab, hpc, rfl⟩ | ⟨ab, p, -, rfl⟩
    · exact Nat.le_refl _
    · exact Nat.le_refl _
    · exact Nat.le_refl _
    · simp only [head_addHead (hn ab hpc)]
      exact Nat.le_add_right _ _
    · exact Nat.le_refl _
  | flusher ok =>
    obtain rfl := Option.some.inj hs
    unfold flusherStep
    cases s.flusher <;> exact Nat.le_refl _

theorem Behind.step {n : ℕ} {s s' : HostState Tid} {a : Threads.Action Tid} (h : Behind n s)
    (hn : NoWrap s a) (hs : hostStep s a = some s') : Behind n s' :=
  ⟨h.ordered.step hn hs, h.le_head.trans (head_mono hn hs)⟩

/-- **One step** of the flusher lowers the number of its steps, one of a thread leaves it as it is. -/
theorem Behind.stepsLeft_step {n : ℕ} {s s' : HostState Tid} {a : Threads.Action Tid}
    (h : Behind n s) (hs : hostStep s a = some s') :
    stepsLeft n s' ≤ stepsLeft n s - if isFlusher a then 1 else 0 := by
  cases a with
  | flusher ok =>
    obtain rfl := Option.some.inj hs
    exact h.flusher_step ok
  | call | thread =>
    obtain ⟨hflusher, htail⟩ := thread_frame hs (fun _ h => by cases h)
    unfold stepsLeft
    rw [hflusher, htail]
    exact Nat.le_refl _

/-- **Ten steps of the flusher** take the tail to where the head was, whatever lies between them. -/
theorem Behind.le_tail {n : ℕ} {s s' : HostState Tid} {as : List (Threads.Action Tid)}
    (h : Behind n s) (hrun : runFrom hostStep s as = some s') (hn : EachStep hostStep NoWrap s as)
    (hcount : 10 ≤ as.countP isFlusher) : n ≤ s'.cb.tail.toNat := by
  have hle := rank_le_of_run (I := Behind n) (b := isFlusher) (φ := stepsLeft n)
    (fun _ _ _ h hn hs => h.step hn hs) (fun _ _ _ h _ hs => h.stepsLeft_step hs) h hrun hn
  have := stepsLeft_le n s
  exact le_tail_of_stepsLeft (by omega)

/-! ### The position that a thread waits for -/

omit [DecidableEq Tid] in
/-- A place behind the append knows a position that the head has been at. -/
def Seen (s : HostState Tid) : Pc → Prop
  | .unlock _ h | .prio _ h | .wait _ h => h.toNat ≤ s.cb.head.toNat
  | _ => True

/-- The invariant of the runs in which the head stays below `2 ^ 64`. -/
structure Inv (s : HostState Tid) : Prop where
  mutex : Mutex s
  ordered : Ordered s
  seen : ∀ t, Seen s (s.threads t)

omit [DecidableEq Tid] in
theorem Seen.mono {s s' : HostState Tid} {pc : Pc} (h : Seen s pc)
    (hle : s.cb.head.toNat ≤ s'.cb.head.toNat) : Seen s' pc := by
  cases pc with
  | unlock | prio | wait => exact Nat.le_trans h hle
  | _ => trivial

omit [DecidableEq Tid] in
theorem Quiet.seen {s : HostState Tid} {pc pc' : Pc} (hq : Quiet s pc pc') (h : Seen s pc) :
    Seen s pc' := by
  cases hq with
  | mark => exact Nat.le_refl _
  | toWait | sleep => exact h
  | _ => trivial

theorem Inv.seen_step {s s' : HostState Tid} {a : Threads.Action Tid} (h : Inv s)
    (hn : NoWrap s a) (hs : hostStep s a = some s') (u : Tid) : Seen s' (s'.threads u) := by
  have hmono := head_mono hn hs
  have hgoto : ∀ t pc, s'.threads = (s.goto t pc).threads → Seen s' pc →
      Seen s' (s'.threads u) := by
    intro t pc hthreads hpc
    rw [hthreads]
    by_cases hut : u = t
    · rw [hut, goto_self]
      exact hpc
    · rw [goto_other s pc hut]
      exact (h.seen u).mono hmono
  cases a with
  | call t ab =>
    obtain ⟨-, rfl⟩ := call_cases hs
    exact hgoto t _ rfl trivial
  | thread t =>
    have ht := h.seen t
    rcases threadStep_cases hs with ⟨pc, hq, rfl⟩ | ⟨ab, -, -, rfl⟩ | ⟨ab, i, -, rfl⟩ |
      ⟨ab, -, rfl⟩ | ⟨ab, p, hpc, rfl⟩
    · exact hgoto t pc rfl ((Quiet.seen hq ht).mono hmono)
    · exact hgoto t (.space ab) rfl trivial
    · exact hgoto t (.bump ab) rfl trivial
    · exact hgoto t (.mark ab) rfl trivial
    · rw [hpc] at ht
      exact hgoto t (.prio ab p) rfl ht
  | flusher ok =>
    obtain rfl := Option.some.inj hs
    rw [flusherStep_threads]
    exact (h.seen u).mono hmono

theorem Inv.step {s s' : HostState Tid} {a : Threads.Action Tid} (h : Inv s) (hn : NoWrap s a)
    (hs : hostStep s a = some s') : Inv s' :=
  ⟨h.mutex.step hs, h.ordered.step hn hs, h.seen_step hn hs⟩

theorem inv_of_reach {garbage : ℕ → UInt8} {s : HostState Tid}
    (h : Reach hostStep NoWrap (hostInit Tid garbage) s) : Inv s :=
  h.inv (fun _ _ _ hi hn hs => hi.step hn hs)
    ⟨hostInit_mutex garbage, hostInit_ordered garbage, fun _ => trivial⟩

/-- While a thread is in `make_space_in_cbuff`, nobody moves the head. -/
theorem head_of_space {s s' : HostState Tid} {t : Tid} {ab : AuditBuffer} (h : Mutex s)
    (hpc : s.threads t = .space ab) {a : Threads.Action Tid} (hs : hostStep s a = some s') :
    s'.cb.head = s.cb.head := by
  cases a with
  | call u ab' =>
    obtain ⟨-, rfl⟩ := call_cases hs
    rfl
  | thread u =>
    rcases threadStep_cases hs with ⟨pc, -, rfl⟩ | ⟨ab', -, -, rfl⟩ | ⟨ab', i, -, rfl⟩ |
      ⟨ab', hu, rfl⟩ | ⟨ab', p, -, rfl⟩
    · rfl
    · rfl
    · rfl
    · obtain rfl := h.eq (t := t) (u := u) (by rw [hpc]; rfl) (by rw [hu]; rfl)
      rw [hpc] at hu
      cases hu
    · rfl
  | flusher ok =>
    obtain rfl := Option.some.inj hs
    unfold flusherStep
    cases s.flusher <;> rfl

/-! ### The two loops -/

section Loops

variable (garbage : ℕ → UInt8) {s s' : HostState Tid} {t : Tid} {ab : AuditBuffer}
  {as : List (Threads.Action Tid)} (hreach : Reach hostStep NoWrap (hostInit Tid garbage) s)
  (hrun : runFrom hostStep s as = some s') (hn : EachStep hostStep NoWrap s as)
  (hcount : 10 ≤ as.countP isFlusher)
include hreach hrun hn hcount

/-- **A critical event** does not wait for ever: in whatever order the steps come, once the flusher has
made ten of them the tail has reached the position its thread waits for, and the thread's next test
ends the loop. -/
theorem wait_ends {h : UInt64} (hpc : s.threads t = .wait ab h) :
    h ≤ s'.cb.tail ∧ ∀ ab', s'.threads t = .wait ab' h →
      hostStep s' (.thread t) = some (s'.goto t (.free ab')) := by
  have hinv := inv_of_reach hreach
  have hseen := hinv.seen t
  rw [hpc] at hseen
  have hle : h ≤ s'.cb.tail :=
    UInt64.le_iff_toNat_le.mpr (Behind.le_tail ⟨hinv.ordered, hseen⟩ hrun hn hcount)
  refine ⟨hle, fun ab' hpc' => ?_⟩
  simp only [hostStep, threadStep, hpc', if_neg (UInt64.not_lt.mpr hle)]

/-- **A full ring** does not stay full: while a thread is in `make_space_in_cbuff` the head stands
still, and once the flusher has made ten steps the ring is empty, and the thread's next test ends the
loop. -/
theorem make_space_ends (hpc : Always hostStep (fun s => s.threads t = .space ab) s as) :
    s'.cb.tail = s'.cb.head ∧
      hostStep s' (.thread t) = some (s'.goto t (.copy ab s'.cb.headIndex)) := by
  have hinv := inv_of_reach hreach
  have hR := Reach.of_runFrom hrun (hn.and hpc.eachStep)
  have hinv' : Inv s' := hR.inv (fun _ _ _ hi hC hs => hi.step hC.1 hs) hinv
  have hhead : s'.cb.head = s.cb.head :=
    hR.rel (I := Inv) (R := fun a b => b.cb.head = a.cb.head) (fun _ => rfl)
      (fun _ _ _ h h' => h'.trans h) (fun _ _ _ hi hC hs => hi.step hC.1 hs)
      (fun _ _ _ hi hC hs => head_of_space hi.mutex hC.2 hs) hinv
  have hle := Behind.le_tail ⟨hinv.ordered, Nat.le_refl _⟩ hrun hn hcount
  rw [← hhead] at hle
  have heq : s'.cb.tail = s'.cb.head :=
    UInt64.toNat_inj.mp (Nat.le_antisymm hinv'.ordered.tail_le hle)
  have hspace : s'.threads t = .space ab := by
    rw [← List.append_nil as] at hpc
    exact hpc.append hrun
  have hfill : s'.cb.fill = 0 := by
    rw [AuditCircBuffer.fill, heq, UInt64.sub_self]
    rfl
  refine ⟨heq, ?_⟩
  simp only [hostStep, threadStep, hspace, hfill,
    if_neg (Nat.not_le.mpr hardlogAuditCbuffsize_pos)]

end Loops

theorem reach_wait_space :
    ∃ s ab ab', Reach hostStep NoWrap (hostInit Bool fun _ => 0) s ∧
      s.threads true = .wait ab 500 ∧ s.threads false = .space ab' ∧ s.flusher = .top := by
  obtain ⟨e, he⟩ : ∃ e, e = letterEvent (some ⟨59⟩) 499 := ⟨_, rfl⟩
  have hdrop : auditLogEndDrops e = false := he ▸ letterEvent_drops _ (by omega) (by omega)
  have hlen : (auditLogEndNewline e).recordLen = 500 := he ▸ letterEvent_recordLen _ (by omega)
  have hprio : isPrio (auditLogEndNewline e) = true := by
    rw [isPrio, he, letterEvent_ctx _ (by omega)]
    rfl
  have h1 := Reach.of_runFrom (C := NoWrap)
    (runFrom_appendSchedule (s := hostInit Bool fun _ => 0) (t := true) rfl rfl (by decide) hdrop)
    (eachStep_appendSchedule rfl rfl (by decide) hdrop trivial fun s' h ab hpc => by
      obtain ⟨rfl, hhead, -⟩ := h.bump ab hpc
      rw [hhead, hlen]
      decide)
  generalize hs1 : (hostInit Bool fun _ => 0).appended true (auditLogEndNewline e) = s1 at h1
  have hpc : s1.threads true = .prio (auditLogEndNewline e) 500 := by
    rw [← hs1, appended_threads_self]
    simp only [AuditCircBuffer.append, AuditCircBuffer.addHead, length_record_newline hdrop, hlen]
    rfl
  have hout : s1.threads false = .out := by
    rw [← hs1]
    have hne : false ≠ true := by decide
    simp only [HostState.appended, goto_other _ _ hne]
    rfl
  have hfree : s1.producer = none := hs1 ▸ rfl
  have htop : s1.flusher = .top := hs1 ▸ rfl
  obtain ⟨s2, hs2, hw, hsp, ht⟩ : ∃ s2,
      runFrom hostStep s1 [.thread true, .call false e, .thread false, .thread false] = some s2 ∧
        s2.threads true = .wait (auditLogEndNewline e) 500 ∧
        s2.threads false = .space (auditLogEndNewline e) ∧ s2.flusher = .top := by
    simp [runFrom, hostStep, threadStep, HostState.goto, hpc, hout, hfree, htop, hprio, hdrop]
  refine ⟨s2, _, _, h1.trans (Reach.of_runFrom hs2 ?_), hw, hsp, ht⟩
  simp [EachStep, NoWrap, hostStep, threadStep, HostState.goto, hpc, hout, hfree, hprio, hdrop]

/-- The waiting thread goes on after ten steps of the flusher. -/
theorem wait_ends_execve :
    ∃ s s' ab, Reach hostStep NoWrap (hostInit Bool fun _ => 0) s ∧
      s.threads true = .wait ab 500 ∧
      runFrom hostStep s (List.replicate 10 (.flusher true)) = some s' ∧
      (500 : UInt64) ≤ s'.cb.tail ∧ ∀ ab', s'.threads true = .wait ab' 500 →
        hostStep s' (.thread true) = some (s'.goto true (.free ab')) := by
  obtain ⟨s, ab, ab', hs, hw, -, -⟩ := reach_wait_space
  obtain ⟨s', hs'⟩ : ∃ s', runFrom hostStep s (List.replicate 10 (.flusher true)) = some s' := by
    simp [List.replicate, runFrom, hostStep]
  refine ⟨s, s', ab, hs, hw, hs', ?_⟩
  exact wait_ends (fun _ => 0) hs hs'
    (EachStep.of_forall_mem (fun _ a ha => by rw [List.eq_of_mem_replicate ha]; trivial) s)
    (by decide) hw

/-- The thread in `make_space_in_cbuff` finds the ring empty after ten steps of the flusher. -/
theorem make_space_ends_second :
    ∃ s s' ab, Reach hostStep NoWrap (hostInit Bool fun _ => 0) s ∧
      s.threads false = .space ab ∧
      runFrom hostStep s (List.replicate 10 (.flusher true)) = some s' ∧
      s'.cb.tail = s'.cb.head ∧
        hostStep s' (.thread false) = some (s'.goto false (.copy ab s'.cb.headIndex)) := by
  obtain ⟨s, -, ab, hs, -, hsp, -⟩ := reach_wait_space
  obtain ⟨s', hs'⟩ : ∃ s', runFrom hostStep s (List.replicate 10 (.flusher true)) = some s' := by
    simp [List.replicate, runFrom, hostStep]
  have hstay : ∀ (s : HostState Bool) k, s.threads false = .space ab →
      Always hostStep (fun s => s.threads false = .space ab) s (List.replicate k (.flusher true)) := by
    intro s k
    induction k generalizing s with
    | zero => exact id
    | succ k ih =>
      intro h
      exact Always.cons h rfl (ih _ (by rw [flusherStep_threads, h]))
  refine ⟨s, s', ab, hs, hsp, hs', ?_⟩
  exact make_space_ends (fun _ => 0) hs hs'
    (EachStep.of_forall_mem (fun _ a ha => by rw [List.eq_of_mem_replicate ha]; trivial) s)
    (by decide) (hstay s 10 hsp)

end HardLog.Host.Waiting
