import HardLog.Host.Threads
import HardLog.Lib.Refine

/-! # Producers one at a time

The threads of `audit_log_end_hardlog` and the flusher interleave step by step, and a record is in the
ring before the head says so. `simulation`: all the same, every run is a run of whole appends and tail
updates (`ringStep`), an append taking place when its thread moves the head. So what holds of whole
appends holds of any interleaving: while the copies stay inside the ring, the flusher finds the
appended bytes between the tail and the head in every state, also in the middle of a copy
(`unflushed_of_reach`). -/

namespace HardLog.Host.Linear

open HardLog.Lib.CInt HardLog.Lib.Memory HardLog.Lib.Ring HardLog.Lib.Runs HardLog.Lib.Refine
open HardLog.Host.Event HardLog.Host.Ring HardLog.Host.Threads

variable {Tid : Type} [DecidableEq Tid]

/-- A copy is of at most the 512 bytes of an event's buffer, the ring has room for it, and `P` holds of
the bytes of the ring, the index and the record. -/
def Copies (P : (ℕ → UInt8) → ℕ → List UInt8 → Prop) (s : HostState Tid) : Action Tid → Prop
  | .thread t => ∀ ab i, s.threads t = .copy ab i →
      ab.recordLen ≤ 512 ∧ s.cb.fill + ab.recordLen ≤ hardlogAuditCbuffsize ∧
        P s.cb.buffer i ab.record
  | _ => True

/-- The same of a whole append. -/
def Appends (P : (ℕ → UInt8) → ℕ → List UInt8 → Prop) (r : RingState) : RingAction → Prop
  | .append rec => P r.cb.buffer r.cb.headIndex rec
  | .setTail _ => True

/-! ### The relation -/

section Relation

variable (P : (ℕ → UInt8) → ℕ → List UInt8 → Prop)

/-- What a place in `audit_log_end_hardlog` knows: at the update of the head, the copy that the ring
has ahead of the append. -/
def Placed (s : HostState Tid) (r : RingState) : Pc → Prop
  | .lock ab | .space ab => ab.record.length = ab.recordLen
  | .copy ab i => ab.record.length = ab.recordLen ∧ i = r.cb.headIndex
  | .bump ab =>
    ab.record.length = ab.recordLen ∧ ab.record.length ≤ 512 ∧
      r.stream.length - r.flushed + ab.record.length ≤ hardlogAuditCbuffsize ∧
      P r.cb.buffer r.cb.headIndex ab.record ∧
      s.cb.buffer = memcpy r.cb.buffer r.cb.headIndex ab.record
  | _ => True

/-- The host `s` is where whole appends and tail updates have led to `r`. -/
structure Follows (s : HostState Tid) (r : RingState) : Prop where
  mutex : Mutex s
  counters : Counters r
  head : s.cb.head = r.cb.head
  tail : s.cb.tail = r.cb.tail
  stream : s.hist.stream = r.stream
  snapshot : ∀ fin, s.flusher.fin = some fin →
    ∃ e, fin = UInt64.ofNat e ∧ r.flushed ≤ e ∧ e ≤ r.stream.length
  buffer : (∀ t ab, s.threads t ≠ .bump ab) → s.cb.buffer = r.cb.buffer
  placed : ∀ t, Placed P s r (s.threads t)

omit [DecidableEq Tid] in
theorem hostInit_follows (garbage : ℕ → UInt8) :
    Follows P (hostInit Tid garbage) (ringInit garbage) where
  mutex := hostInit_mutex garbage
  counters := ringInit_counters garbage
  head := rfl
  tail := rfl
  stream := rfl
  snapshot := fun _ h => by cases h
  buffer := fun _ => rfl
  placed := fun _ => trivial

end Relation

variable {P : (ℕ → UInt8) → ℕ → List UInt8 → Prop} {s s' : HostState Tid} {r : RingState}

omit [DecidableEq Tid] in
/-- Outside of the locked part, a place knows nothing of the ring. -/
theorem Placed.of_not_locked {pc : Pc} {r' : RingState} (h : Placed P s r pc)
    (hl : pc.locked = false) : Placed P s' r' pc := by
  cases pc with
  | copy | bump | space => cases hl
  | lock ab => exact h
  | _ => trivial

/-! ### The steps of a thread -/

section Steps

variable (h : Follows P s r)
include h

omit [DecidableEq Tid] in
/-- While a thread is in the locked part in front of the update of the head, the ring is that of the
appends. -/
theorem Follows.buffer_eq {t : Tid} (hl : (s.threads t).locked = true)
    (hb : ∀ ab, s.threads t ≠ .bump ab) : s.cb.buffer = r.cb.buffer := by
  refine h.buffer fun u ab hu => ?_
  obtain rfl := h.mutex.eq hl (by rw [hu]; rfl)
  exact hb ab hu

theorem Follows.goto {t : Tid} (pc : Pc) (hm : Mutex s') (hthreads : s'.threads = (s.goto t pc).threads)
    (hcb : s'.cb = s.cb) (hhist : s'.hist = s.hist) (hfl : s'.flusher = s.flusher)
    (hnot : ∀ ab, s.threads t ≠ .bump ab) (hpc : Placed P s' r pc) : Follows P s' r where
  mutex := hm
  counters := h.counters
  head := by rw [hcb]; exact h.head
  tail := by rw [hcb]; exact h.tail
  stream := by rw [hhist]; exact h.stream
  snapshot := by rw [hfl]; exact h.snapshot
  buffer := fun hb => by
    rw [hcb]
    refine h.buffer fun u ab hu => ?_
    by_cases hut : u = t
    · exact hnot ab (hut ▸ hu)
    · refine hb u ab ?_
      rw [hthreads, goto_other s pc hut]
      exact hu
  placed := fun u => by
    rw [hthreads]
    by_cases hut : u = t
    · rw [hut, goto_self]
      exact hpc
    · rw [goto_other s pc hut]
      have hu := h.placed u
      cases hp : s.threads u with
      | bump ab =>
        rw [hp] at hu
        simpa only [Placed, hcb] using hu
      | lock | space | copy =>
        rw [hp] at hu
        exact hu
      | _ => trivial

theorem Follows.quiet {t : Tid} {pc : Pc} (hq : Quiet s (s.threads t) pc)
    (hs : threadStep s t = some (s.goto t pc)) (hm : Mutex (s.goto t pc)) :
    Follows P (s.goto t pc) r := by
  have hp := h.placed t
  have hidx : s.cb.headIndex = r.cb.headIndex := by
    unfold AuditCircBuffer.headIndex
    rw [h.head]
  cases hpc : s.threads t with
  | enter ab =>
    rw [hpc] at hq
    refine h.goto pc hm rfl rfl rfl rfl (by simp [hpc]) ?_
    cases hq with
    | drop => trivial
    | newline =>
      refine length_record_newline ?_
      by_contra hdrop
      rw [Bool.not_eq_false] at hdrop
      have hout := congrArg (Option.map fun s' => s'.threads t) hs
      simp [threadStep, hpc, hdrop] at hout
  | space ab =>
    rw [hpc] at hq hp
    refine h.goto pc hm rfl rfl rfl rfl (by simp [hpc]) ?_
    cases hq with
    | full => exact hp
    | room => exact ⟨hp, hidx⟩
  | bump ab =>
    rw [hpc] at hq
    cases hq
  | _ =>
    rw [hpc] at hq
    refine h.goto pc hm rfl rfl rfl rfl (by simp [hpc]) ?_
    cases hq <;> trivial

theorem Follows.copy {t : Tid} {ab : AuditBuffer} {i : ℕ} (hpc : s.threads t = .copy ab i)
    (hcopy : Copies P s (.thread t))
    (hm : Mutex { s.goto t (.bump ab) with cb := s.cb.copyIn i ab.record }) :
    Follows P { s.goto t (.bump ab) with cb := s.cb.copyIn i ab.record } r := by
  have hp := h.placed t
  rw [hpc] at hp
  obtain ⟨hlen, rfl⟩ := hp
  obtain ⟨hsize, hroom, hP⟩ := hcopy ab _ hpc
  have hbuf := h.buffer_eq (t := t) (by rw [hpc]; rfl) (by simp [hpc])
  have hfill : s.cb.fill = r.stream.length - r.flushed := by
    rw [← h.counters.fill]
    unfold AuditCircBuffer.fill
    rw [h.head, h.tail]
  rw [hfill] at hroom
  rw [hbuf] at hP
  refine ⟨hm, h.counters, h.head, h.tail, h.stream, h.snapshot, fun hb => ?_, fun u => ?_⟩
  · exact absurd (goto_self s t (.bump ab)) (hb t ab)
  · by_cases hut : u = t
    · subst hut
      simp only [goto_self]
      exact ⟨hlen, by omega, by omega, hP, by simp only [AuditCircBuffer.copyIn, hbuf]⟩
    · have hne := goto_other s (.bump ab) hut
      simp only [hne]
      refine (h.placed u).of_not_locked ?_
      by_contra hu
      exact hut (h.mutex.eq (by rw [hpc]; rfl) (by simpa using hu))

/-- **The update of the head** is the append. -/
theorem Follows.bump {t : Tid} {ab : AuditBuffer} (hpc : s.threads t = .bump ab)
    (hs' : s' = { s.goto t (.mark ab) with
        cb := s.cb.addHead ab.recordLen
        hist := s.hist.appended t ab.record (s.cb.addHead ab.recordLen).head })
    (hm : Mutex s') :
    ∃ r', Reach ringStep (Appends P) r r' ∧ Follows P s' r' := by
  have hp := h.placed t
  rw [hpc] at hp
  obtain ⟨hlen, hsize, hroom, hP, hbuf⟩ := hp
  have hstep := ringStep_append h.counters ab.record hsize hroom
  have hc := h.counters.step hstep
  refine steps (b := .append ab.record) hP hstep ?_
  subst hs'
  refine ⟨hm, hc, ?_, h.tail, ?_, fun fin hf => ?_, fun _ => hbuf, fun u => ?_⟩
  · simp only [AuditCircBuffer.append, AuditCircBuffer.addHead, AuditCircBuffer.copyIn, h.head, hlen]
  · simp only [History.appended, h.stream]
  · obtain ⟨e, he, h1, h2⟩ := h.snapshot fin hf
    exact ⟨e, he, h1, by simp only [List.length_append]; omega⟩
  · by_cases hut : u = t
    · simp only [hut, goto_self]
      trivial
    · have hne := goto_other s (.mark ab) hut
      simp only [hne]
      refine (h.placed u).of_not_locked ?_
      by_contra hu
      exact hut (h.mutex.eq (by rw [hpc]; rfl) (by simpa using hu))

theorem Follows.thread_step {t : Tid} (hcopy : Copies P s (.thread t)) (hm : Mutex s')
    (hs : threadStep s t = some s') : ∃ r', Reach ringStep (Appends P) r r' ∧ Follows P s' r' := by
  rcases threadStep_cases hs with ⟨pc, hq, rfl⟩ | ⟨ab, hpc, -, rfl⟩ | ⟨ab, i, hpc, rfl⟩ |
    ⟨ab, hpc, rfl⟩ | ⟨ab, p, hpc, rfl⟩
  · exact stays (h.quiet hq hs hm)
  · have hp := h.placed t
    rw [hpc] at hp
    exact stays (h.goto (.space ab) hm rfl rfl rfl rfl (by simp [hpc]) hp)
  · exact stays (h.copy hpc hcopy hm)
  · exact h.bump hpc rfl hm
  · exact stays (h.goto (.prio ab p) hm rfl rfl rfl rfl (by simp [hpc]) trivial)

/-! ### The steps of the flusher -/

omit [DecidableEq Tid] in
theorem Follows.flusher_move (hthreads : s'.threads = s.threads) (hcb : s'.cb = s.cb)
    (hstream : s'.hist.stream = s.hist.stream) (hm : Mutex s')
    (hsnap : ∀ fin, s'.flusher.fin = some fin →
      s.flusher.fin = some fin ∨ fin = s.cb.head) : Follows P s' r where
  mutex := hm
  counters := h.counters
  head := by rw [hcb]; exact h.head
  tail := by rw [hcb]; exact h.tail
  stream := by rw [hstream]; exact h.stream
  snapshot := fun fin hf => by
    rcases hsnap fin hf with hold | rfl
    · exact h.snapshot fin hold
    · exact ⟨_, h.head.trans h.counters.head, h.counters.flushed_le, Nat.le_refl _⟩
  buffer := fun hb => by
    rw [hcb]
    exact h.buffer (by rwa [hthreads] at hb)
  placed := fun u => by
    have hu := h.placed u
    rw [hthreads]
    cases hp : s.threads u <;> rw [hp] at hu <;> simp only [Placed, hcb] at hu ⊢ <;> exact hu

omit [DecidableEq Tid] in
theorem Follows.setTail {fin : UInt64} (hpc : s.flusher = .setTail fin)
    (hs' : s' = { s with flusher := .clear, cb := { s.cb with tail := fin } }) (hm : Mutex s') :
    ∃ r', Reach ringStep (Appends P) r r' ∧ Follows P s' r' := by
  obtain ⟨e, rfl, h1, h2⟩ := h.snapshot fin (by rw [hpc]; rfl)
  have hstep : ringStep r (.setTail e) =
      some { r with cb := { r.cb with tail := UInt64.ofNat e }, flushed := e } :=
    if_pos ⟨h1, h2⟩
  have hc := h.counters.step hstep
  refine steps (b := .setTail e) trivial hstep ?_
  subst hs'
  refine ⟨hm, hc, h.head, rfl, h.stream, fun _ hf => (by cases hf), h.buffer, fun u => ?_⟩
  have hu := h.placed u
  cases hp : s.threads u with
  | bump ab =>
    rw [hp] at hu
    obtain ⟨hlen, hsize, hroom, hP, hbuf⟩ := hu
    exact ⟨hlen, hsize, by simp only; omega, hP, hbuf⟩
  | lock | space | copy =>
    rw [hp] at hu
    exact hu
  | _ => trivial

omit [DecidableEq Tid] in
theorem Follows.flusher_step {ok : Bool} (hm : Mutex (flusherStep s ok)) :
    ∃ r', Reach ringStep (Appends P) r r' ∧ Follows P (flusherStep s ok) r' := by
  unfold flusherStep at hm ⊢
  cases hpc : s.flusher with
  | setTail fin =>
    simp only [hpc] at hm ⊢
    exact h.setTail hpc rfl hm
  | write fin start =>
    simp only [hpc] at hm ⊢
    refine stays (h.flusher_move rfl rfl ?_ hm fun fin' hf => Or.inl ?_)
    · cases ok <;> rfl
    · rw [hpc]
      exact hf
  | top =>
    simp only [hpc] at hm ⊢
    exact stays (h.flusher_move rfl rfl rfl hm fun _ hf => Or.inr (Option.some.inj hf).symm)
  | clear =>
    simp only [hpc] at hm ⊢
    exact stays (h.flusher_move rfl rfl rfl hm fun _ hf => by cases hf)
  | readTail fin | log fin start =>
    simp only [hpc] at hm ⊢
    refine stays (h.flusher_move rfl rfl rfl hm fun _ hf => Or.inl ?_)
    rw [hpc]
    exact hf

end Steps

/-- **Simulation**: each step of the host is an append, a tail update, or neither. -/
theorem simulation (P : (ℕ → UInt8) → ℕ → List UInt8 → Prop) :
    Simulation (@hostStep Tid _) (Copies P) ringStep (Appends P) (Follows P) := by
  intro s a s' r h hcopy hs
  have hm := h.mutex.step hs
  cases a with
  | call t ab =>
    obtain ⟨hpc, rfl⟩ := call_cases hs
    exact stays (h.goto (.enter ab) hm rfl rfl rfl rfl (by simp [hpc]) trivial)
  | thread t => exact h.thread_step hcopy hm hs
  | flusher ok =>
    obtain rfl := Option.some.inj hs
    exact h.flusher_step hm

/-- **Producers one at a time**: as long as the copied records have at most 512 bytes and the ring has
room for them, the host is, whatever the order of the steps of any number of threads and of the flusher,
where some sequence of whole appends and tail updates leads. What holds of each copy when it is made
holds of its append, and unless a copy is ahead of its head the ring is the same byte for byte. -/
theorem refines_ring (garbage : ℕ → UInt8) (P : (ℕ → UInt8) → ℕ → List UInt8 → Prop)
    {s : HostState Tid} (h : Reach hostStep (Copies P) (hostInit Tid garbage) s) :
    ∃ r, Reach ringStep (Appends P) (ringInit garbage) r ∧
      s.cb.head = r.cb.head ∧ s.cb.tail = r.cb.tail ∧ s.hist.stream = r.stream ∧
      ((∀ t ab, s.threads t ≠ .bump ab) → s.cb = r.cb) := by
  obtain ⟨r, hr, hf⟩ := (simulation P).reach (hostInit_follows P garbage) h
  refine ⟨r, hr, hf.head, hf.tail, hf.stream, fun hb => ?_⟩
  obtain ⟨hbuf, hhead, htail⟩ := And.intro (hf.buffer hb) (And.intro hf.head hf.tail)
  cases hs : s.cb
  cases hr : r.cb
  simp_all

theorem run_letters {P : (ℕ → UInt8) → ℕ → List UInt8 → Prop} (ctx : Option AuditContext)
    (hP : ∀ buffer rec, rec.length = 50 → P buffer 0 rec) :
    ∃ ab s, runFrom hostStep (hostInit Unit fun _ => 0) (appendSchedule () (letterEvent ctx 49)) =
        some s ∧
      EachStep hostStep (fun s a => Copies P s a ∧ NoWrap s a) (hostInit Unit fun _ => 0)
        (appendSchedule () (letterEvent ctx 49)) ∧
      s.cb.head = 50 ∧ s.cb.tail = 0 ∧ s.flusher = .top ∧ s.hist.ends () = 50 ∧ ab.ctx = ctx ∧
      ∀ t, s.threads t = .prio ab 50 := by
  have hdrop : auditLogEndDrops (letterEvent ctx 49) = false :=
    letterEvent_drops ctx (by omega) (by omega)
  have hlen : (auditLogEndNewline (letterEvent ctx 49)).recordLen = 50 :=
    letterEvent_recordLen ctx (by omega)
  have hctx : (auditLogEndNewline (letterEvent ctx 49)).ctx = ctx := letterEvent_ctx ctx (by omega)
  generalize letterEvent ctx 49 = e at hdrop hlen hctx ⊢
  have hrec : (auditLogEndNewline e).record.length = 50 := (length_record_newline hdrop).trans hlen
  have hrun := runFrom_appendSchedule (s := hostInit Unit fun _ => 0) (t := ()) rfl rfl
    (by decide) hdrop
  have hfill : (hostInit Unit fun _ => 0).cb.fill = 0 := rfl
  have hidx : (hostInit Unit fun _ => 0).cb.headIndex = 0 := rfl
  have hzero : (hostInit Unit fun _ => 0).cb.head = 0 := rfl
  have hok : EachStep hostStep (fun s a => Copies P s a ∧ NoWrap s a) (hostInit Unit fun _ => 0)
      (appendSchedule () e) := by
    have hout : (hostInit Unit fun _ => 0).threads () = .out := rfl
    have hfree : (hostInit Unit fun _ => 0).producer = none := rfl
    generalize (hostInit Unit fun _ => 0) = s at hfill hidx hzero hout hfree ⊢
    have hroom : 50 ≤ hardlogAuditCbuffsize ∧ ¬ hardlogAuditCbuffsize = 0 := by decide
    simp [appendSchedule, List.replicate, EachStep, hostStep, threadStep, HostState.goto, Copies,
      NoWrap, hout, hfree, hfill, hidx, hzero, hdrop, hlen, hP _ _ hrec, hroom]
  have hhead : ((hostInit Unit fun _ => 0).cb.append (auditLogEndNewline e).record).head = 50 := by
    simp only [AuditCircBuffer.append, AuditCircBuffer.addHead, hrec]
    rfl
  refine ⟨_, _, hrun, hok, hhead, rfl, rfl, ?_, hctx, fun t => ?_⟩
  · have hself := Function.update_self () ((hostInit Unit fun _ => 0).cb.append
      (auditLogEndNewline e).record).head (hostInit Unit fun _ => 0).hist.ends
    exact hself.trans hhead
  · rw [← hhead]
    exact appended_threads_self (hostInit Unit fun _ => 0) t (auditLogEndNewline e)

/-- The ring behind one record is that of one append. -/
theorem refines_ring_record :
    ∃ s r, Reach hostStep (Copies fun _ _ _ => True) (hostInit Unit fun _ => 0) s ∧
      s.cb.head = 50 ∧ Reach ringStep (Appends fun _ _ _ => True) (ringInit fun _ => 0) r ∧
      s.cb = r.cb := by
  obtain ⟨ab, s, hrun, hC, hhead, -, -, -, -, hpc⟩ :=
    run_letters (P := fun _ _ _ => True) none fun _ _ _ => trivial
  have hs := (Reach.of_runFrom hrun hC).mono fun _ _ hok => hok.1
  obtain ⟨r, hr, -, -, -, hcb⟩ := refines_ring (fun _ => 0) _ hs
  exact ⟨s, r, hs, hhead, hr, hcb fun t ab ht => by cases (hpc t).symm.trans ht⟩

/-! ### Reading the ring at any time -/

/-- The record ends before the end of the ring, or has behind it what is at the start of the ring. -/
def Inside (buffer : ℕ → UInt8) (i : ℕ) (rec : List UInt8) : Prop :=
  i + rec.length ≤ hardlogAuditCbuffsize ∨
    rec.drop (hardlogAuditCbuffsize - i) = slice buffer 0 (i + rec.length - hardlogAuditCbuffsize)

theorem staysInside_of_appends {r : RingState} {a : RingAction} (h : Appends Inside r a) :
    StaysInside r a := by
  cases a with
  | append rec => exact h
  | setTail n => trivial

theorem Follows.reach {s s' : HostState Tid} {r : RingState} (h : Follows Inside s r)
    (hr : ReadBack r) (hreach : Reach hostStep (Copies Inside) s s') :
    ∃ r', Follows Inside s' r' ∧ ReadBack r' := by
  obtain ⟨r', hf, -, hrb⟩ := (simulation Inside).inv (I := fun r => Counters r ∧ ReadBack r)
    (fun r a r' hr ha hs =>
      ⟨hr.1.step hs, (readBack_step_iff hr.1 hr.2 hs).mpr (staysInside_of_appends ha)⟩)
    h ⟨h.counters, hr⟩ hreach
  exact ⟨r', hf, hrb⟩

omit [DecidableEq Tid] in
/-- A copy that is ahead of its head touches no byte that is still to be flushed. -/
theorem Follows.holds {s : HostState Tid} {r : RingState} (h : Follows P s r) (hr : ReadBack r) :
    Holds hardlogAuditCbuffsize s.cb.buffer r.stream r.flushed := by
  by_cases hb : ∀ t ab, s.threads t ≠ .bump ab
  · rw [h.buffer hb]
    exact hr
  · push Not at hb
    obtain ⟨t, ab, hpc⟩ := hb
    have hp := h.placed t
    rw [hpc] at hp
    obtain ⟨-, -, hroom, -, hbuf⟩ := hp
    intro p hp hlt
    rw [hbuf, h.counters.headIndex, memcpy_old hroom hp hlt]
    exact hr p hp hlt

/-- With the tail behind `flushed` bytes, each of the positions from there up to the head has its byte
of the appended stream at its index. -/
structure Unflushed (s : HostState Tid) (flushed : ℕ) : Prop where
  tail : s.cb.tail = UInt64.ofNat flushed
  head : s.cb.head = UInt64.ofNat s.hist.stream.length
  le : flushed ≤ s.hist.stream.length
  fill_le : s.hist.stream.length - flushed ≤ hardlogAuditCbuffsize
  holds : Holds hardlogAuditCbuffsize s.cb.buffer s.hist.stream flushed

omit [DecidableEq Tid] in
theorem Follows.unflushed {s : HostState Tid} {r : RingState} (h : Follows P s r)
    (hr : ReadBack r) : Unflushed s r.flushed := by
  refine ⟨h.tail.trans h.counters.tail, ?_, ?_, ?_, ?_⟩
  · rw [h.stream]
    exact h.head.trans h.counters.head
  · rw [h.stream]
    exact h.counters.flushed_le
  · rw [h.stream]
    exact h.counters.fill_le
  · rw [h.stream]
    exact h.holds hr

/-- **The unflushed bytes** are in the ring in every state of every run whose copies are of at most 512
bytes, have room and stay inside it, whatever the threads are doing. -/
theorem unflushed_of_reach (garbage : ℕ → UInt8) {s : HostState Tid}
    (h : Reach hostStep (Copies Inside) (hostInit Tid garbage) s) : ∃ flushed, Unflushed s flushed := by
  obtain ⟨r, hf, hr⟩ := (hostInit_follows Inside garbage).reach (ringInit_readBack garbage) h
  exact ⟨r.flushed, hf.unflushed hr⟩

/-- A record of 50 bytes can be read. -/
theorem unflushed_record :
    ∃ s, Reach hostStep (Copies Inside) (hostInit Unit fun _ => 0) s ∧ s.cb.head = 50 ∧
      ∃ flushed, Unflushed s flushed := by
  obtain ⟨ab, s, hrun, hC, hhead, -⟩ := run_letters (P := Inside) none fun _ rec hrec =>
    Or.inl (by rw [hrec]; decide)
  have hs := (Reach.of_runFrom hrun hC).mono fun _ _ hok => hok.1
  exact ⟨s, hs, hhead, unflushed_of_reach (fun _ => 0) hs⟩

/-! ### From one state to the next -/

theorem thread_frame {s s' : HostState Tid} {a : Threads.Action Tid} (hs : hostStep s a = some s')
    (ha : ∀ ok, a ≠ .flusher ok) : s'.flusher = s.flusher ∧ s'.cb.tail = s.cb.tail := by
  cases a with
  | call t ab =>
    obtain ⟨-, rfl⟩ := call_cases hs
    exact ⟨rfl, rfl⟩
  | thread t =>
    rcases threadStep_cases hs with ⟨pc, -, rfl⟩ | ⟨ab, -, -, rfl⟩ | ⟨ab, i, -, rfl⟩ |
      ⟨ab, -, rfl⟩ | ⟨ab, p, -, rfl⟩
    all_goals exact ⟨rfl, rfl⟩
  | flusher ok => exact absurd rfl (ha ok)

omit [DecidableEq Tid] in
/-- The number of flushed bytes can be read off the tail. -/
theorem Unflushed.eq_of_tail {s : HostState Tid} {n m : ℕ} (h : Unflushed s m)
    (htail : s.cb.tail = UInt64.ofNat n) (hle : n ≤ s.hist.stream.length)
    (hfill : s.hist.stream.length - n ≤ hardlogAuditCbuffsize + 512) : m = n := by
  have heq : UInt64.ofNat m = UInt64.ofNat n := by rw [← h.tail, htail]
  have h1 := h.le
  have h2 := h.fill_le
  unfold hardlogAuditCbuffsize at *
  rcases Nat.le_total n m with hnm | hmn
  · exact eq_of_ofNat_eq hnm (by omega) heq
  · exact (eq_of_ofNat_eq hmn (by omega) heq.symm).symm

/-- The stream grows by the record of a thread that moves the head, and by nothing else. -/
theorem Follows.stream_step {s : HostState Tid} {r : RingState} (h : Follows P s r)
    {a : Threads.Action Tid} (hs : hostStep s a = some s') :
    ∃ rec : List UInt8, rec.length ≤ 512 ∧ s'.hist.stream = s.hist.stream ++ rec := by
  have hsame : s'.hist.stream = s.hist.stream → ∃ rec : List UInt8, rec.length ≤ 512 ∧
      s'.hist.stream = s.hist.stream ++ rec :=
    fun heq => ⟨[], Nat.zero_le _, by rw [heq, List.append_nil]⟩
  cases a with
  | call t ab =>
    obtain ⟨-, rfl⟩ := call_cases hs
    exact hsame rfl
  | thread t =>
    rcases threadStep_cases hs with ⟨pc, -, rfl⟩ | ⟨ab, -, -, rfl⟩ | ⟨ab, i, -, rfl⟩ |
      ⟨ab, hpc, rfl⟩ | ⟨ab, p, -, rfl⟩
    · exact hsame rfl
    · exact hsame rfl
    · exact hsame rfl
    · have hp := h.placed t
      rw [hpc] at hp
      exact ⟨ab.record, hp.2.1, rfl⟩
    · exact hsame rfl
  | flusher ok =>
    obtain rfl := Option.some.inj hs
    refine hsame ?_
    unfold flusherStep
    cases s.flusher with
    | write fin start => cases ok <;> rfl
    | _ => rfl

end HardLog.Host.Linear
