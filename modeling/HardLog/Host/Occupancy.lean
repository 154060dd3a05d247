import HardLog.Host.Threads

/-! # How full the host's ring gets

`make_space_in_cbuff` waits while a whole ring is unflushed, whatever the length of the record that
is about to be copied. `occupied_of_reach` says what holds as long as each copy finds room for its
record: the ring is never overfull and no copy touches an index of an unflushed byte. Without that
condition the ring gets overfull (`append_overfull`): records of 500 bytes, the flusher being late,
leave 76 free bytes, and one more is let in. -/

namespace HardLog.Host.Occupancy

open HardLog.Lib.CInt HardLog.Lib.Ring HardLog.Lib.Runs
open HardLog.Host.Event HardLog.Host.Ring HardLog.Host.Threads

variable {Tid : Type} [DecidableEq Tid]

/-- The tail is not past the head, and no more than a ring is unflushed. -/
def Occupied (s : HostState Tid) : Prop :=
  s.cb.tail ≤ s.cb.head ∧ (s.cb.head - s.cb.tail).toNat ≤ hardlogAuditCbuffsize

/-- The indices a step copies to. -/
def copiedTo (s : HostState Tid) : Action Tid → Set ℕ
  | .thread t =>
    match s.threads t with
    | .copy ab i => {x | i ≤ x ∧ x < i + ab.recordLen}
    | _ => ∅
  | _ => ∅

/-- A step copies to no index of a byte between the tail and the head. -/
def SparesUnflushed (s : HostState Tid) (a : Action Tid) : Prop :=
  ∀ p, s.cb.tail.toNat ≤ p → p < s.cb.head.toNat → p % hardlogAuditCbuffsize ∉ copiedTo s a

/-- A copy finds room for its record, and the head stays below `2 ^ 64`. -/
def Roomy (s : HostState Tid) : Action Tid → Prop
  | .thread t => ∀ ab i, s.threads t = .copy ab i →
      s.cb.fill + ab.recordLen ≤ hardlogAuditCbuffsize ∧
        s.cb.head.toNat + ab.recordLen < 2 ^ 64
  | _ => True

/-! ### The invariant -/

/-- What each place between the test for space and the update of the head guarantees. -/
def Placed (s : HostState Tid) : Pc → Prop
  | .copy _ i => i = s.cb.headIndex
  | .bump ab =>
    s.cb.head.toNat - s.cb.tail.toNat + ab.recordLen ≤ hardlogAuditCbuffsize ∧
      s.cb.head.toNat + ab.recordLen < 2 ^ 64
  | _ => True

/-- The invariant of the runs whose copies find room. -/
structure Inv (s : HostState Tid) : Prop where
  mutex : Mutex s
  ordered : Ordered s
  fill_le : s.cb.head.toNat - s.cb.tail.toNat ≤ hardlogAuditCbuffsize
  placed : ∀ t, Placed s (s.threads t)

omit [DecidableEq Tid] in
theorem placed_of_not_locked {s : HostState Tid} {pc : Pc} (h : pc.locked = false) : Placed s pc := by
  cases pc with
  | copy | bump => cases h
  | _ => trivial

omit [DecidableEq Tid] in
theorem Placed.mono {s s' : HostState Tid} {pc : Pc} (h : Placed s pc)
    (hhead : s'.cb.head = s.cb.head) (htail : s.cb.tail.toNat ≤ s'.cb.tail.toNat) :
    Placed s' pc := by
  cases pc with
  | copy ab i =>
    simp only [Placed, AuditCircBuffer.headIndex, hhead] at h ⊢
    exact h
  | bump ab =>
    simp only [Placed, hhead] at h ⊢
    omega
  | _ => trivial

omit [DecidableEq Tid] in
/-- The other threads after thread `t` moved the head: none of them is inside the locked part. -/
theorem placed_other {s s' : HostState Tid} (h : Mutex s) {t u : Tid} (hut : u ≠ t)
    (ht : (s.threads t).locked = true) : Placed s' (s.threads u) := by
  refine placed_of_not_locked ?_
  by_contra hu
  exact hut (h.eq ht (by simpa using hu))

omit [DecidableEq Tid] in
theorem hostInit_inv (garbage : ℕ → UInt8) : Inv (hostInit Tid garbage) :=
  ⟨hostInit_mutex garbage, hostInit_ordered garbage, Nat.zero_le _, fun _ => trivial⟩

omit [DecidableEq Tid] in
theorem Inv.noWrap {s : HostState Tid} (h : Inv s) (a : Action Tid) : NoWrap s a := by
  cases a with
  | thread t =>
    intro ab hpc
    have := h.placed t
    rw [hpc] at this
    exact this.2
  | _ => trivial

theorem placed_goto {s s' : HostState Tid} (h : Inv s) {t : Tid} (pc : Pc)
    (hthreads : s'.threads = (s.goto t pc).threads) (hhead : s'.cb.head = s.cb.head)
    (htail : s'.cb.tail = s.cb.tail) (hpc : Placed s' pc) (u : Tid) : Placed s' (s'.threads u) := by
  rw [hthreads]
  by_cases hut : u = t
  · rw [hut, goto_self]
    exact hpc
  · rw [goto_other s pc hut]
    exact (h.placed u).mono hhead (by rw [htail])

theorem Inv.placed_step {s s' : HostState Tid} {a : Action Tid} (h : Inv s) (hr : Roomy s a)
    (hs : hostStep s a = some s') (u : Tid) : Placed s' (s'.threads u) := by
  cases a with
  | call t ab =>
    obtain ⟨-, rfl⟩ := call_cases hs
    exact placed_goto h (.enter ab) rfl rfl rfl trivial u
  | thread t =>
    rcases threadStep_cases hs with ⟨pc, hq, rfl⟩ | ⟨ab, -, -, rfl⟩ | ⟨ab, i, hpc, rfl⟩ |
      ⟨ab, hpc, rfl⟩ | ⟨ab, p, -, rfl⟩
    · refine placed_goto h _ rfl rfl rfl ?_ u
      generalize s.threads t = pc0 at hq
      cases hq with
      | room ab => exact rfl
      | _ => trivial
    · exact placed_goto h (.space ab) rfl rfl rfl trivial u
    · obtain ⟨h1, h2⟩ := hr ab i hpc
      rw [fill_eq h.ordered.tail_le] at h1
      exact placed_goto h (.bump ab) rfl rfl rfl ⟨h1, h2⟩ u
    · by_cases hut : u = t
      · simp only [hut, goto_self]
        trivial
      · have hne := goto_other s (.mark ab) hut
        simp only [hne]
        exact placed_other h.mutex hut (by rw [hpc]; rfl)
    · exact placed_goto h (.prio ab p) rfl rfl rfl trivial u
  | flusher ok =>
    obtain rfl := Option.some.inj hs
    have h2 := h.ordered.fin_le
    unfold flusherStep
    cases hf : s.flusher with
    | setTail fin => exact (h.placed u).mono rfl (h2 fin (by rw [hf]; rfl)).1
    | _ => exact (h.placed u).mono rfl (Nat.le_refl _)

theorem Inv.fill_step {s s' : HostState Tid} {a : Action Tid} (h : Inv s)
    (hs : hostStep s a = some s') :
    s'.cb.head.toNat - s'.cb.tail.toNat ≤ hardlogAuditCbuffsize := by
  have hfill := h.fill_le
  cases a with
  | call t ab =>
    obtain ⟨-, rfl⟩ := call_cases hs
    exact hfill
  | thread t =>
    rcases threadStep_cases hs with ⟨pc, -, rfl⟩ | ⟨ab, -, -, rfl⟩ | ⟨ab, i, -, rfl⟩ |
      ⟨ab, hpc, rfl⟩ | ⟨ab, p, -, rfl⟩
    · exact hfill
    · exact hfill
    · exact hfill
    · have hb := h.placed t
      rw [hpc] at hb
      have hhead := head_addHead hb.2
      simp only [hhead, addHead_tail]
      have := hb.1
      have := h.ordered.tail_le
      omega
    · exact hfill
  | flusher ok =>
    obtain rfl := Option.some.inj hs
    have h2 := h.ordered.fin_le
    unfold flusherStep
    cases hf : s.flusher with
    | setTail fin =>
      have := (h2 fin (by rw [hf]; rfl)).1
      exact (Nat.sub_le_sub_left this _).trans hfill
    | _ => exact hfill

theorem Inv.step {s s' : HostState Tid} {a : Action Tid} (h : Inv s) (hr : Roomy s a)
    (hs : hostStep s a = some s') : Inv s' :=
  ⟨h.mutex.step hs, h.ordered.step (h.noWrap a) hs, h.fill_step hs, h.placed_step hr hs⟩

/-! ### Occupancy -/

omit [DecidableEq Tid] in
theorem Inv.occupied {s : HostState Tid} (h : Inv s) : Occupied s := by
  refine ⟨UInt64.le_iff_toNat_le.mpr h.ordered.tail_le, ?_⟩
  have := fill_eq h.ordered.tail_le
  unfold AuditCircBuffer.fill at this
  rw [this]
  exact h.fill_le

omit [DecidableEq Tid] in
/-- A copy with room stays between the head and the tail of the next lap. -/
theorem Inv.sparesUnflushed {s : HostState Tid} {a : Action Tid} (h : Inv s) (hr : Roomy s a) :
    SparesUnflushed s a := by
  intro p hp hlt hmem
  cases a with
  | thread t =>
    cases hpc : s.threads t with
    | copy ab i =>
      simp only [copiedTo, hpc] at hmem
      obtain ⟨h1, h2⟩ := hmem
      obtain ⟨hroom, -⟩ := hr ab i hpc
      have hi : i = s.cb.headIndex := by
        have := h.placed t
        rwa [hpc] at this
      have hS := Nat.mod_lt p hardlogAuditCbuffsize_pos
      rw [fill_eq h.ordered.tail_le] at hroom
      unfold AuditCircBuffer.headIndex at hi
      obtain ⟨k, hk⟩ := Nat.exists_eq_add_of_le h1
      have hmod := add_mod_of_lt (S := hardlogAuditCbuffsize) (a := s.cb.head.toNat) (k := k)
        (by omega)
      exact mod_ne (S := hardlogAuditCbuffsize) (a := p) (b := s.cb.head.toNat + k) (by omega)
        (by omega) (by omega)
    | _ => simp [copiedTo, hpc] at hmem
  | _ => exact hmem

/-- **Occupancy**: in every state of every run whose copies find room, whatever the order of the
steps, the tail is not past the head, no more than a ring is unflushed, and a further copy that
finds room spares the unflushed bytes. -/
theorem occupied_of_reach (garbage : ℕ → UInt8) {s : HostState Tid}
    (h : Reach hostStep Roomy (hostInit Tid garbage) s) :
    Occupied s ∧ ∀ a, Roomy s a → SparesUnflushed s a := by
  have hinv : Inv s := h.inv (fun _ _ _ hi hr hs => hi.step hr hs) (hostInit_inv garbage)
  exact ⟨hinv.occupied, fun _ hr => hinv.sparesUnflushed hr⟩

/-- One record of 500 bytes appended to the empty ring. -/
theorem occupied_after_append :
    ∃ s, Reach hostStep Roomy (hostInit Unit fun _ => 0) s ∧ s.cb.head = 500 ∧
      Occupied s ∧ ∀ a, Roomy s a → SparesUnflushed s a := by
  have hdrop := letterEvent_drops none (n := 499) (by omega) (by omega)
  have hlen := letterEvent_recordLen none (n := 499) (by omega)
  have hrun := runFrom_appendSchedule (s := hostInit Unit fun _ => 0) (t := ()) rfl rfl
    (by decide) hdrop
  have hroom : EachStep hostStep Roomy (hostInit Unit fun _ => 0)
      (appendSchedule () (letterEvent none 499)) := by
    refine eachStep_appendSchedule rfl rfl (by decide) hdrop trivial fun s' h ab i hpc => ?_
    obtain ⟨hab, hhead, htail⟩ := h.copy ab i hpc
    unfold AuditCircBuffer.fill
    rw [hhead, htail, hab, hlen]
    decide
  have hreach := Reach.of_runFrom hrun hroom
  refine ⟨_, hreach, ?_, occupied_of_reach (fun _ => 0) hreach⟩
  simp only [HostState.appended, AuditCircBuffer.append, AuditCircBuffer.addHead,
    length_record_newline hdrop, hlen]
  rfl

/-! ### A ring that gets overfull -/

/-- The record of a copy has at most `HARDLOG_AUDIT_EVENTSIZE` bytes. -/
def EventSized (s : HostState Tid) : Action Tid → Prop
  | .thread t => ∀ ab i, s.threads t = .copy ab i → ab.recordLen ≤ hardlogAuditEventsize
  | _ => True

theorem reach_append {s : HostState Tid} {t : Tid} {ab : AuditBuffer} (hout : s.threads t = .out)
    (hfree : s.producer = none) (hfill : s.cb.fill < hardlogAuditCbuffsize)
    (hdrop : auditLogEndDrops ab = false) (hprio : isPrio (auditLogEndNewline ab) = false)
    (hsize : (auditLogEndNewline ab).recordLen ≤ hardlogAuditEventsize) :
    ∃ s', Reach hostStep EventSized s s' ∧ s'.threads t = .out ∧ s'.producer = none ∧
      s'.cb = s.cb.append (auditLogEndNewline ab).record := by
  have hsched : EachStep hostStep EventSized s (recordSchedule t ab) := by
    refine eachStep_recordSchedule hout hfree hfill hdrop hprio trivial fun s' h ab' i hpc => ?_
    obtain ⟨rfl, -⟩ := h.copy ab' i hpc
    exact hsize
  exact ⟨_, Reach.of_runFrom (runFrom_recordSchedule hout hfree hfill hdrop hprio) hsched,
    goto_self _ t _, rfl, rfl⟩

theorem reach_fill (k : ℕ) (hk : 500 * k < hardlogAuditCbuffsize + 500) :
    ∃ s, Reach hostStep EventSized (hostInit Unit fun _ => 0) s ∧ s.threads () = .out ∧
      s.producer = none ∧ s.cb.tail = 0 ∧ s.cb.head = UInt64.ofNat (500 * k) := by
  unfold hardlogAuditCbuffsize at hk
  induction k with
  | zero => exact ⟨_, Reach.refl _, rfl, rfl, rfl, rfl⟩
  | succ k ih =>
    obtain ⟨s, hs, hout, hfree, htail, hhead⟩ := ih (by omega)
    have hdrop := letterEvent_drops none (n := 499) (by omega) (by omega)
    have hlen := letterEvent_recordLen none (n := 499) (by omega)
    have hprio : isPrio (auditLogEndNewline (letterEvent none 499)) = false := by
      rw [isPrio, letterEvent_ctx none (by omega)]
    have hfill : s.cb.fill < hardlogAuditCbuffsize := by
      unfold AuditCircBuffer.fill hardlogAuditCbuffsize
      rw [htail, hhead, UInt64.sub_zero, UInt64.toNat_ofNat', Nat.mod_eq_of_lt (by omega)]
      omega
    obtain ⟨s', hs', hout', hfree', hcb⟩ :=
      reach_append hout hfree hfill hdrop hprio (by rw [hlen]; decide)
    refine ⟨s', hs.trans hs', hout', hfree', ?_, ?_⟩
    · rw [hcb]
      exact htail
    · rw [hcb]
      simp only [AuditCircBuffer.append, AuditCircBuffer.addHead, AuditCircBuffer.copyIn,
        length_record_newline hdrop, hlen, hhead]
      rw [← UInt64.ofNat_add]
      congr 1

/-- 2098 records of 500 bytes from one thread, the flusher not running: 1049000 bytes are
unflushed. -/
theorem append_overfull :
    ¬ ∀ s, Reach hostStep EventSized (hostInit Unit fun _ => 0) s → Occupied s := by
  intro h
  obtain ⟨s, hs, -, -, htail, hhead⟩ := reach_fill 2098 (by decide)
  have := (h s hs).2
  rw [htail, hhead] at this
  exact absurd this (by decide)

end HardLog.Host.Occupancy
