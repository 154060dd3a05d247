import HardLog.Host.Threads

/-! # Critical events wait for their flush

A thread with a critical system call leaves its wait loop when the tail has reached the head it read
after its own append. The tail is set to the flusher's snapshot of the head, after the `usb_write`
of everything from the tail up to that snapshot. So whatever is below the tail is covered by
completed writes (`Inv.tail_covered`), however many records were appended between the snapshot, the
write and the update of the tail. -/

namespace HardLog.Host.Priority

open HardLog.Lib.Runs HardLog.Host.Event HardLog.Host.Ring HardLog.Host.Threads

variable {Tid : Type} [DecidableEq Tid]

/-- Every position below `n` lies in the range of a completed `usb_write`. -/
def Covered (s : HostState Tid) (n : UInt64) : Prop :=
  ∀ p < n.toNat, ∃ w ∈ s.hist.writes, w.1.toNat ≤ p ∧ p < w.2.toNat

/-- The `usb_write` of a step succeeds, and an update of the head stays below `2 ^ 64`. -/
def Healthy (s : HostState Tid) : Action Tid → Prop
  | .flusher ok => ∀ fin start, s.flusher = .write fin start → ok = true
  | a => NoWrap s a

/-! ### The invariant -/

/-- What a place in `audit_log_end_hardlog` behind the append knows of it: `h` is the head just
after the thread's last append. -/
def Marked (s : HostState Tid) (h : UInt64) : Pc → Prop
  | .mark _ => s.cb.head = h
  | .unlock _ h' | .prio _ h' | .wait _ h' => h' = h
  | .free ab => isPrio ab = true → h ≤ s.cb.tail
  | _ => True

/-- The place of the flusher: `start` is the tail, and what is to become the tail is covered. -/
def FlusherInv (s : HostState Tid) : FlusherPc → Prop
  | .readTail fin => fin ∈ s.hist.boundaries
  | .log fin start | .write fin start => fin ∈ s.hist.boundaries ∧ start = s.cb.tail
  | .setTail fin => fin ∈ s.hist.boundaries ∧ Covered s fin
  | .top | .clear => True

/-- The invariant of the runs whose writes succeed. -/
structure Inv (s : HostState Tid) : Prop where
  mutex : Mutex s
  ordered : Ordered s
  head_boundary : s.cb.head ∈ s.hist.boundaries
  tail_boundary : s.cb.tail ∈ s.hist.boundaries
  tail_covered : Covered s s.cb.tail
  flusher : FlusherInv s s.flusher
  marked : ∀ t, Marked s (s.hist.ends t) (s.threads t)

omit [DecidableEq Tid] in
theorem hostInit_inv (garbage : ℕ → UInt8) : Inv (hostInit Tid garbage) where
  mutex := hostInit_mutex garbage
  ordered := hostInit_ordered garbage
  head_boundary := List.mem_singleton_self _
  tail_boundary := List.mem_singleton_self _
  tail_covered := fun p hp => absurd hp (Nat.not_lt_zero p)
  flusher := trivial
  marked := fun _ => trivial

/-! ### The steps of a thread -/

omit [DecidableEq Tid] in
theorem Marked.congr {s s' : HostState Tid} {h : UInt64} {pc : Pc} (hm : Marked s h pc)
    (hcb : s'.cb.head = s.cb.head) (htail : s.cb.tail.toNat ≤ s'.cb.tail.toNat) :
    Marked s' h pc := by
  cases pc with
  | mark ab => exact hcb.trans hm
  | free ab => exact fun hp => UInt64.le_trans (hm hp) (UInt64.le_iff_toNat_le.mpr htail)
  | unlock | prio | wait => exact hm
  | _ => trivial

theorem Inv.goto {s s' : HostState Tid} (h : Inv s) {t : Tid} (pc : Pc) (hm : Mutex s')
    (ho : Ordered s') (hthreads : s'.threads = (s.goto t pc).threads)
    (hhead : s'.cb.head = s.cb.head) (htail : s'.cb.tail = s.cb.tail) (hhist : s'.hist = s.hist)
    (hfl : s'.flusher = s.flusher) (hpc : Marked s' (s.hist.ends t) pc) : Inv s' where
  mutex := hm
  ordered := ho
  head_boundary := by rw [hhead, hhist]; exact h.head_boundary
  tail_boundary := by rw [htail, hhist]; exact h.tail_boundary
  tail_covered := by
    have := h.tail_covered
    unfold Covered at this ⊢
    rwa [htail, hhist]
  flusher := by
    have hf := h.flusher
    rw [hfl]
    cases hpcf : s.flusher <;> rw [hpcf] at hf <;>
      simp only [FlusherInv, Covered, hhist, htail] at hf ⊢ <;> exact hf
  marked := fun u => by
    rw [hthreads, hhist]
    by_cases hut : u = t
    · rw [hut, goto_self]
      exact hpc
    · rw [goto_other s pc hut]
      exact (h.marked u).congr hhead (by rw [htail])

/-- **Moving the head**: the new head is the thread's own, and no other thread is where the head
matters. -/
theorem Inv.bump {s : HostState Tid} (h : Inv s) {t : Tid} {ab : AuditBuffer} {s' : HostState Tid}
    (hpc : s.threads t = .bump ab) (hm : Mutex s') (ho : Ordered s')
    (hs' : s' = { s.goto t (.mark ab) with
        cb := s.cb.addHead ab.recordLen
        hist := s.hist.appended t ab.record (s.cb.addHead ab.recordLen).head }) : Inv s' := by
  subst hs'
  refine ⟨hm, ho, List.mem_cons_self, List.mem_cons_of_mem _ h.tail_boundary, h.tail_covered, ?_,
    fun u => ?_⟩
  · have hf := h.flusher
    change FlusherInv _ s.flusher
    cases hfl : s.flusher <;> rw [hfl] at hf
    · trivial
    · exact List.mem_cons_of_mem _ hf
    · exact ⟨List.mem_cons_of_mem _ hf.1, hf.2⟩
    · exact ⟨List.mem_cons_of_mem _ hf.1, hf.2⟩
    · exact ⟨List.mem_cons_of_mem _ hf.1, hf.2⟩
    · trivial
  · by_cases hut : u = t
    · subst hut
      simp only [goto_self]
      exact (Function.update_self u _ s.hist.ends).symm
    · have hne := goto_other s (.mark ab) hut
      have hends : (s.hist.appended t ab.record (s.cb.addHead ab.recordLen).head).ends u =
          s.hist.ends u := Function.update_of_ne hut _ _
      have hmu := h.marked u
      simp only [hne, hends]
      cases hu : s.threads u with
      | mark ab' => exact absurd (h.mutex.eq (by rw [hpc]; rfl) (by rw [hu]; rfl)) hut
      | unlock | prio | wait | free =>
        rw [hu] at hmu
        exact hmu
      | _ => trivial

theorem Inv.thread_step {s s' : HostState Tid} {t : Tid} (h : Inv s) (hm : Mutex s')
    (ho : Ordered s') (hs : threadStep s t = some s') : Inv s' := by
  rcases threadStep_cases hs with ⟨pc, hq, rfl⟩ | ⟨ab, -, -, rfl⟩ | ⟨ab, i, -, rfl⟩ |
    ⟨ab, hpc, rfl⟩ | ⟨ab, p, hpc, rfl⟩
  · refine h.goto _ hm ho rfl rfl rfl rfl rfl ?_
    have hmt := h.marked t
    generalize s.threads t = pc0 at hq hmt
    cases hq with
    | mark ab => exact hmt
    | toWait ab p => exact hmt
    | notPrio ab p hp => exact fun hp' => absurd hp' (by rw [hp]; exact Bool.false_ne_true)
    | sleep ab p => exact hmt
    | flushed ab p hp =>
      have : p = s.hist.ends t := hmt
      exact fun _ => this ▸ hp
    | _ => trivial
  · exact h.goto (.space ab) hm ho rfl rfl rfl rfl rfl trivial
  · exact h.goto (.bump ab) hm ho rfl rfl rfl rfl rfl trivial
  · exact h.bump hpc hm ho rfl
  · refine h.goto (.prio ab p) hm ho rfl rfl rfl rfl rfl ?_
    have hmt := h.marked t
    rw [hpc] at hmt
    exact hmt

/-! ### The steps of the flusher -/

omit [DecidableEq Tid] in
theorem Covered.write {s : HostState Tid} {start fin : UInt64} (h : Covered s start)
    {s' : HostState Tid} (hs' : s'.hist.writes = (start, fin) :: s.hist.writes) :
    Covered s' fin := by
  intro p hp
  rw [hs']
  by_cases hlt : p < start.toNat
  · obtain ⟨w, hw, hcov⟩ := h p hlt
    exact ⟨w, List.mem_cons_of_mem _ hw, hcov⟩
  · exact ⟨(start, fin), List.mem_cons_self, by simp only; omega, hp⟩

omit [DecidableEq Tid] in
theorem Covered.mono {s s' : HostState Tid} {n : UInt64} (h : Covered s n)
    (hw : ∀ w ∈ s.hist.writes, w ∈ s'.hist.writes) : Covered s' n := by
  intro p hp
  obtain ⟨w, hmem, hcov⟩ := h p hp
  exact ⟨w, hw w hmem, hcov⟩

omit [DecidableEq Tid] in
theorem Inv.flusher_step {s : HostState Tid} (h : Inv s) {ok : Bool}
    (hok : Healthy s (.flusher ok)) (hm : Mutex (flusherStep s ok))
    (ho : Ordered (flusherStep s ok)) : Inv (flusherStep s ok) := by
  have hf := h.flusher
  unfold flusherStep at hm ho ⊢
  cases hpc : s.flusher with
  | top =>
    simp only [hpc] at hm ho ⊢
    exact ⟨hm, ho, h.head_boundary, h.tail_boundary, h.tail_covered, h.head_boundary, h.marked⟩
  | readTail fin =>
    simp only [hpc] at hm ho ⊢
    rw [hpc] at hf
    exact ⟨hm, ho, h.head_boundary, h.tail_boundary, h.tail_covered, ⟨hf, rfl⟩, h.marked⟩
  | log fin start =>
    simp only [hpc] at hm ho ⊢
    rw [hpc] at hf
    exact ⟨hm, ho, h.head_boundary, h.tail_boundary, h.tail_covered, hf, h.marked⟩
  | write fin start =>
    simp only [hpc] at hm ho ⊢
    rw [hpc] at hf
    obtain rfl := hok fin start hpc
    obtain ⟨hfin, rfl⟩ := hf
    exact ⟨hm, ho, h.head_boundary, h.tail_boundary,
      h.tail_covered.mono fun w hw => List.mem_cons_of_mem _ hw,
      ⟨hfin, h.tail_covered.write rfl⟩, h.marked⟩
  | setTail fin =>
    simp only [hpc] at hm ho ⊢
    rw [hpc] at hf
    have hle := (h.ordered.fin_le fin (by rw [hpc]; rfl)).1
    exact ⟨hm, ho, h.head_boundary, hf.1, hf.2, trivial, fun t => (h.marked t).congr rfl hle⟩
  | clear =>
    simp only [hpc] at hm ho ⊢
    exact ⟨hm, ho, h.head_boundary, h.tail_boundary, h.tail_covered, trivial, h.marked⟩

/-! ### Every run -/

theorem Inv.step {s s' : HostState Tid} {a : Action Tid} (h : Inv s) (hh : Healthy s a)
    (hs : hostStep s a = some s') : Inv s' := by
  have hn : NoWrap s a := by
    cases a with
    | thread t => exact hh
    | _ => trivial
  have hm := h.mutex.step hs
  have ho := h.ordered.step hn hs
  cases a with
  | call t ab =>
    obtain ⟨-, rfl⟩ := call_cases hs
    exact h.goto (.enter ab) hm ho rfl rfl rfl rfl rfl trivial
  | thread t => exact h.thread_step hm ho hs
  | flusher ok =>
    obtain rfl := Option.some.inj hs
    exact h.flusher_step hh hm ho

/-- **Critical events**: in every state of every run whose `usb_write` calls succeed, the tail is
not past the head and is a value the head had at a record boundary; and a thread with a critical
system call that is behind its wait loop finds every position up to the end of its own record
covered by completed writes. -/
theorem covered_of_free (garbage : ℕ → UInt8) {s : HostState Tid}
    (h : Reach hostStep Healthy (hostInit Tid garbage) s) :
    s.cb.tail ≤ s.cb.head ∧ s.cb.tail ∈ s.hist.boundaries ∧
      ∀ t ab, s.threads t = .free ab → isPrio ab = true → Covered s (s.hist.ends t) := by
  have hinv : Inv s := h.inv (fun _ _ _ hi hc hs => hi.step hc hs) (hostInit_inv garbage)
  refine ⟨UInt64.le_iff_toNat_le.mpr hinv.ordered.tail_le, hinv.tail_boundary,
    fun t ab hpc hprio p hp => ?_⟩
  have hm := hinv.marked t
  rw [hpc] at hm
  exact hinv.tail_covered p (Nat.lt_of_lt_of_le hp (UInt64.le_iff_toNat_le.mp (hm hprio)))

/-- A record of `execve` is appended and flushed before its thread goes on. -/
theorem covered_after_execve :
    ∃ s ab, Reach hostStep Healthy (hostInit Unit fun _ => 0) s ∧ s.threads () = .free ab ∧
      isPrio ab = true ∧ s.hist.ends () = 500 ∧ Covered s (s.hist.ends ()) := by
  obtain ⟨e, he⟩ : ∃ e, e = letterEvent (some ⟨59⟩) 499 := ⟨_, rfl⟩
  have hdrop : auditLogEndDrops e = false := he ▸ letterEvent_drops _ (by omega) (by omega)
  have hlen : (auditLogEndNewline e).recordLen = 500 := he ▸ letterEvent_recordLen _ (by omega)
  have hprio : isPrio (auditLogEndNewline e) = true := by
    rw [isPrio, he, letterEvent_ctx _ (by omega)]
    rfl
  have h1 := Reach.of_runFrom (C := Healthy)
    (runFrom_appendSchedule (s := hostInit Unit fun _ => 0) (t := ()) rfl rfl (by decide) hdrop)
    (eachStep_appendSchedule rfl rfl (by decide) hdrop trivial fun s' h ab hpc => by
      obtain ⟨rfl, hhead, -⟩ := h.bump ab hpc
      rw [hhead, hlen]
      decide)
  generalize hs1 : (hostInit Unit fun _ => 0).appended () (auditLogEndNewline e) = s1 at h1
  have hpc : s1.threads () = .prio (auditLogEndNewline e) s1.cb.head :=
    hs1 ▸ appended_threads_self _ () _
  have htop : s1.flusher = .top := hs1 ▸ rfl
  have hend : s1.hist.ends () = 500 := by
    rw [← hs1]
    simp only [HostState.appended, History.appended, AuditCircBuffer.append,
      AuditCircBuffer.addHead, length_record_newline hdrop, hlen]
    rfl
  obtain ⟨s2, hs2, hpc2, hend2⟩ : ∃ s2,
      runFrom hostStep s1 (List.replicate 5 (.flusher true) ++ List.replicate 2 (.thread ())) =
        some s2 ∧ s2.threads () = .free (auditLogEndNewline e) ∧ s2.hist.ends () = 500 := by
    simp [List.replicate, runFrom, hostStep, flusherStep, threadStep, HostState.goto, hpc, htop,
      hprio, hend]
  have h2 := h1.trans (Reach.of_runFrom hs2 (by
    simp [List.replicate, EachStep, Healthy, NoWrap, hostStep, flusherStep, threadStep,
      HostState.goto, hpc, htop, hprio]))
  exact ⟨s2, _, h2, hpc2, hprio, hend2, (covered_of_free (fun _ => 0) h2).2.2 () _ hpc2 hprio⟩

end HardLog.Host.Priority
