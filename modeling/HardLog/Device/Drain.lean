import HardLog.Device.Stream

/-! # An iteration of the device's flusher

`hardlog_flushd_thread` reduces the head and the tail modulo the size of the ring before it compares
them. `iterate_file` and `iterate_cb` say what an iteration does to the log file and to the ring,
for any ring and any results of `vfs_write`. A ring that holds exactly as much as it has place for
looks like an empty one: an iteration leaves it alone, and a writer that waits for space then waits
for ever (`Stuck.forever`). -/

namespace HardLog.Device.Drain

open HardLog.Lib.CInt HardLog.Lib.Memory HardLog.Lib.Files HardLog.Lib.Ring HardLog.Lib.Runs
open HardLog.Device.Cbuff HardLog.Device.Stream

/-- What `vfs_write` returns in an iteration: to its one call or the one for the first half, and to
the one for the second half. -/
structure Outcome where
  first : ℤ
  second : ℤ

/-- An iteration of the loop of `hardlog_flushd_thread`, with the flag `special` that it keeps
between iterations. -/
def hardlogFlushdIteration (o : Outcome) (special : Bool) (s : Store) : Bool × Store :=
  let realEnd := s.cb.head
  let fin := realEnd.toNat % hardlogDataCbuffsize
  let start := s.cb.tail.toNat % hardlogDataCbuffsize
  let special := if fin < start then true else special
  if fin ≠ start ∧ special = false then
    let s' := fsWrite o.first s fin start
    (special, { s' with cb := { s'.cb with tail := realEnd } })
  else if special then
    let s' := fsWrite o.second (fsWrite o.first s hardlogDataCbuffsize start) fin 0
    (false, { s' with cb := { s'.cb with tail := realEnd } })
  else (special, s)

/-- The store behind an iteration; the flag is false whenever one begins. -/
def iterate (o : Outcome) (s : Store) : Store := (hardlogFlushdIteration o false s).2

/-- The tail modulo the size. -/
def tailIndex (cb : CircBuffer) : ℕ := cb.tail.toNat % hardlogDataCbuffsize

/-- The backlog: the bytes of the ring from the tail up to the head. -/
def backlog (cb : CircBuffer) : List UInt8 :=
  read hardlogDataCbuffsize cb.buffer cb.tail.toNat cb.fill

/-- What an iteration gets into the file. -/
def sent (o : Outcome) (cb : CircBuffer) : List UInt8 :=
  if cb.headIndex < tailIndex cb then
    slice cb.buffer (tailIndex cb) (fsWritten o.first hardlogDataCbuffsize (tailIndex cb)) ++
      slice cb.buffer 0 (fsWritten o.second cb.headIndex 0)
  else slice cb.buffer (tailIndex cb) (fsWritten o.first cb.headIndex (tailIndex cb))

/-- Every `vfs_write` of the iteration writes all it is given. -/
def Full (o : Outcome) (cb : CircBuffer) : Prop :=
  if cb.headIndex < tailIndex cb then
    hardlogDataCbuffsize - tailIndex cb ≤ o.first.toNat ∧ cb.headIndex ≤ o.second.toNat
  else cb.headIndex - tailIndex cb ≤ o.first.toNat

/-! ### What an iteration does -/

theorem hardlogFlushdIteration_special (o : Outcome) (s : Store) :
    (hardlogFlushdIteration o false s).1 = false := by
  unfold hardlogFlushdIteration
  simp only
  split_ifs with h1 h2 <;> simp_all

theorem iterate_cases (o : Outcome) (s : Store) :
    (s.cb.headIndex < tailIndex s.cb ∧ iterate o s =
      { fsWrite o.second (fsWrite o.first s hardlogDataCbuffsize (tailIndex s.cb)) s.cb.headIndex 0
        with cb := { s.cb with tail := s.cb.head } }) ∨
    (tailIndex s.cb < s.cb.headIndex ∧ iterate o s =
      { fsWrite o.first s s.cb.headIndex (tailIndex s.cb)
        with cb := { s.cb with tail := s.cb.head } }) ∨
    (s.cb.headIndex = tailIndex s.cb ∧ iterate o s = s) := by
  unfold iterate hardlogFlushdIteration CircBuffer.headIndex tailIndex
  rcases Nat.lt_trichotomy (s.cb.head.toNat % hardlogDataCbuffsize)
    (s.cb.tail.toNat % hardlogDataCbuffsize) with hlt | heq | hgt
  · refine Or.inl ⟨hlt, ?_⟩
    simp [hlt, fsWrite_frame]
  · refine Or.inr (Or.inr ⟨heq, ?_⟩)
    simp [heq]
  · refine Or.inr (Or.inl ⟨hgt, ?_⟩)
    simp [Nat.lt_asymm hgt, Nat.ne_of_gt hgt, fsWrite_frame]

theorem iterate_file (o : Outcome) (s : Store) :
    (iterate o s).file = s.file.write (sent o s.cb) := by
  unfold sent
  rcases iterate_cases o s with ⟨h, heq⟩ | ⟨h, heq⟩ | ⟨h, heq⟩
  · simp only [heq, if_pos h, fsWrite_file, fsWrite_frame, write_write]
  · simp only [heq, if_neg (Nat.lt_asymm h), fsWrite_file]
  · rw [heq, if_neg (by omega), h]
    simp [fsWritten]

/-- **The tail**: at the head, unless the two indices are equal. -/
theorem iterate_cb (o : Outcome) (s : Store) :
    (iterate o s).cb =
      { s.cb with tail := if s.cb.headIndex = tailIndex s.cb then s.cb.tail else s.cb.head } := by
  rcases iterate_cases o s with ⟨h, heq⟩ | ⟨h, heq⟩ | ⟨h, heq⟩
  · rw [heq, if_neg (by omega)]
  · rw [heq, if_neg (by omega)]
  · rw [heq, if_pos h]

theorem fsWrite_goto (len : ℤ) (s : Store) (fin start : ℕ) (pc : FlusherPc) :
    fsWrite len { s with flusher := pc } fin start =
      { fsWrite len s fin start with flusher := pc } := by
  unfold fsWrite
  split_ifs <;> rfl

/-- An iteration is the flusher's steps from the top of the loop back to it, if nothing comes between,
and leaves the flag as it has found it. -/
theorem runFrom_iterate (o : Outcome) {s : Store} (h : s.flusher = .top) :
    hardlogFlushdIteration o false s = (false, iterate o s) ∧
      ∃ lens : List ℤ, runFrom storeStep s (lens.map .flusher) = some (iterate o s) := by
  refine ⟨Prod.ext (hardlogFlushdIteration_special o s) rfl, ?_⟩
  rcases iterate_cases o s with ⟨hi, heq⟩ | ⟨hi, heq⟩ | ⟨hi, heq⟩
  · refine ⟨[0, 0, o.first, o.second, 0], ?_⟩
    unfold CircBuffer.headIndex tailIndex at *
    simp only [heq, List.map_cons, List.map_nil, runFrom, storeStep, flusherStep, h, if_pos hi,
      Option.bind_some, fsWrite_goto]
    simp [fsWrite_frame, h]
  · refine ⟨[0, 0, o.first, 0], ?_⟩
    unfold CircBuffer.headIndex tailIndex at *
    simp only [heq, List.map_cons, List.map_nil, runFrom, storeStep, flusherStep, h,
      if_neg (Nat.lt_asymm hi), if_neg (Nat.ne_of_gt hi), Option.bind_some, fsWrite_goto]
    simp [fsWrite_frame, h]
  · refine ⟨[0, 0], ?_⟩
    unfold CircBuffer.headIndex tailIndex at *
    simp only [heq, List.map_cons, List.map_nil, runFrom, storeStep, flusherStep, h,
      if_neg (Nat.lt_irrefl _), hi, if_true, Option.bind_some]
    rw [← h]

/-! ### The backlog -/

section Backlog

variable {cb : CircBuffer}

theorem headIndex_eq (cb : CircBuffer) :
    cb.headIndex = (cb.tail.toNat + cb.fill) % hardlogDataCbuffsize := by
  have hadd : (cb.tail + (cb.head - cb.tail)).toNat = cb.head.toNat := by
    rw [UInt64.add_comm, UInt64.sub_add_cancel]
  rw [UInt64.toNat_add] at hadd
  rw [CircBuffer.headIndex, ← hadd, Nat.mod_mod_of_dvd _ cbuffsize_dvd]
  rfl

theorem index_cases (h : cb.fill ≤ hardlogDataCbuffsize) :
    cb.headIndex = tailIndex cb + cb.fill ∨
      hardlogDataCbuffsize + cb.headIndex = tailIndex cb + cb.fill := by
  have hcases := mod_cases hardlogDataCbuffsize_pos
    (Nat.le_add_right cb.tail.toNat cb.fill) (by omega)
  rw [← headIndex_eq, Nat.add_sub_cancel_left] at hcases
  exact hcases

theorem index_lt (cb : CircBuffer) :
    cb.headIndex < hardlogDataCbuffsize ∧ tailIndex cb < hardlogDataCbuffsize :=
  ⟨Nat.mod_lt _ (by decide), Nat.mod_lt _ (by decide)⟩

/-- The indices are equal exactly if the backlog is a number of whole rings. -/
theorem headIndex_eq_tailIndex_iff (cb : CircBuffer) :
    cb.headIndex = tailIndex cb ↔ hardlogDataCbuffsize ∣ cb.fill := by
  rw [headIndex_eq, tailIndex, Nat.dvd_iff_mod_eq_zero]
  have h := Nat.add_mod cb.tail.toNat cb.fill hardlogDataCbuffsize
  have h1 := Nat.mod_lt cb.tail.toNat hardlogDataCbuffsize_pos
  have h2 := Nat.mod_lt cb.fill hardlogDataCbuffsize_pos
  unfold hardlogDataCbuffsize at *
  omega

theorem sent_eq_backlog {o : Outcome} (h : cb.fill < hardlogDataCbuffsize) (hfull : Full o cb) :
    sent o cb = backlog cb := by
  obtain ⟨h1, h2⟩ := index_lt cb
  unfold sent backlog
  unfold Full at hfull
  by_cases hlt : cb.headIndex < tailIndex cb
  · rw [if_pos hlt] at hfull ⊢
    have hcases := index_cases h.le
    have hf : cb.fill = hardlogDataCbuffsize + cb.headIndex - tailIndex cb := by omega
    have h1 : fsWritten o.first hardlogDataCbuffsize (tailIndex cb) =
        hardlogDataCbuffsize - tailIndex cb := by
      unfold fsWritten
      omega
    have h2 : fsWritten o.second cb.headIndex 0 = cb.headIndex := by
      unfold fsWritten
      omega
    rw [h1, h2, hf]
    exact (read_of_wrap (t := cb.tail.toNat) (by decide) hlt.le).symm
  · rw [if_neg hlt] at hfull ⊢
    have hcases := index_cases h.le
    have hf : cb.headIndex - tailIndex cb = cb.fill := by omega
    have h1 : fsWritten o.first cb.headIndex (tailIndex cb) = cb.fill := by
      unfold fsWritten
      omega
    rw [h1]
    exact (read_of_le (t := cb.tail.toNat) (by unfold tailIndex at *; omega)).symm

/-- **A full iteration** with less than a ring of backlog empties the ring into the file. -/
theorem iterate_of_full {o : Outcome} {s : Store} (h0 : 0 < s.cb.fill)
    (h : s.cb.fill < hardlogDataCbuffsize) (hfull : Full o s.cb) :
    (iterate o s).file = s.file.write (backlog s.cb) ∧ (iterate o s).cb.tail = s.cb.head := by
  have hne : ¬ s.cb.headIndex = tailIndex s.cb := by
    rw [headIndex_eq_tailIndex_iff]
    exact Nat.not_dvd_of_pos_of_lt h0 h
  rw [iterate_file, iterate_cb, sent_eq_backlog h hfull, if_neg hne]
  exact ⟨rfl, rfl⟩

end Backlog

/-! ### A writer that waits -/

/-- **Draining**: an iteration whose writes are full appends the backlog to the file, and sets the
tail to the head. -/
def Drains (s : Store) : Prop :=
  ∀ o, Full o s.cb →
    (iterate o s).file = s.file.write (backlog s.cb) ∧ (iterate o s).cb.tail = s.cb.head

/-- The writer is in the loop of `make_space_in_cbuff`, and its test holds. -/
def Waits (s : Store) : Prop :=
  (∃ chunk, s.writer = .space chunk) ∧ hardlogDataCbuffsize ≤ s.cb.fill

/-- The writer waits, and iterations leave the tail where it is. -/
def Stuck (s : Store) : Prop :=
  Waits s ∧ s.flusher = .top ∧ ∀ o, (iterate o s).cb.tail = s.cb.tail

/-- The ring holds exactly as much as it has place for, or that a number of times over. -/
def Brimful (cb : CircBuffer) : Prop := 0 < cb.fill ∧ hardlogDataCbuffsize ∣ cb.fill

/-- The ring is not brimful when the flusher is about to read the head and the tail. -/
def NotBrimful (s : Store) : Prop := s.flusher = .top → ¬ Brimful s.cb

/-- The flusher does not come to its readings, or wait there, with the ring brimful: neither by a new
head or a new tail, nor because it has read a head that was at the tail. -/
def AvoidsBrim (s : Store) : Action → Prop
  | .chunk _ => True
  | .writer => ∀ chunk, s.writer = .bump chunk → s.flusher = .top →
      ¬ Brimful { s.cb with head := s.cb.head + UInt64.ofNat chunk.length }
  | .flusher _ =>
    match s.flusher with
    | .readTail r => r.toNat % hardlogDataCbuffsize = tailIndex s.cb → ¬ Brimful s.cb
    | .setTail r => ¬ Brimful { s.cb with tail := r }
    | _ => True

theorem fill_eq_zero_iff (cb : CircBuffer) : cb.fill = 0 ↔ cb.head = cb.tail := by
  unfold CircBuffer.fill
  constructor
  · intro h
    have hsub : cb.head - cb.tail = 0 := UInt64.toNat_inj.mp h
    rw [← UInt64.sub_add_cancel cb.head cb.tail, hsub, UInt64.zero_add]
  · intro h
    rw [h, UInt64.sub_self]
    rfl

/-- An iteration leaves the tail where it is exactly if there is no backlog, or the ring is brimful. -/
theorem tail_unchanged_iff (o : Outcome) (s : Store) :
    (iterate o s).cb.tail = s.cb.tail ↔ s.cb.fill = 0 ∨ Brimful s.cb := by
  rw [iterate_cb, Brimful, ← headIndex_eq_tailIndex_iff]
  by_cases h : s.cb.headIndex = tailIndex s.cb
  · rw [if_pos h]
    refine iff_of_true rfl ?_
    rcases Nat.eq_zero_or_pos s.cb.fill with h0 | hpos
    · exact Or.inl h0
    · exact Or.inr ⟨hpos, h⟩
  · rw [if_neg h, fill_eq_zero_iff]
    exact ⟨Or.inl, fun hor => hor.resolve_right fun hb => h hb.2⟩

/-- **The drain**, of a backlog of at most a ring: it works unless the ring is full. -/
theorem iterate_drains_iff {s : Store} (h0 : 0 < s.cb.fill) (hle : s.cb.fill ≤ hardlogDataCbuffsize) :
    Drains s ↔ s.cb.fill ≠ hardlogDataCbuffsize := by
  constructor
  · intro hd hfill
    -- nothing is to be written, so any outcome is full
    have heq : s.cb.headIndex = tailIndex s.cb :=
      (headIndex_eq_tailIndex_iff s.cb).mpr (by rw [hfill])
    obtain ⟨-, htail⟩ := hd ⟨0, 0⟩ (by simp [Full, heq])
    rw [iterate_cb, if_pos heq] at htail
    simp only at htail
    rw [CircBuffer.fill, htail, UInt64.sub_self] at h0
    exact absurd h0 (by decide)
  · intro hne o hfull
    exact iterate_of_full h0 (by omega) hfull

/-- A writer is stuck exactly if it waits at a brimful ring. -/
theorem stuck_iff (s : Store) : Stuck s ↔ Waits s ∧ s.flusher = .top ∧ Brimful s.cb := by
  unfold Stuck
  constructor
  · rintro ⟨hw, htop, htail⟩
    refine ⟨hw, htop, ((tail_unchanged_iff ⟨0, 0⟩ s).mp (htail ⟨0, 0⟩)).resolve_left fun h0 => ?_⟩
    have := hw.2
    rw [h0] at this
    exact absurd this (by decide)
  · rintro ⟨hw, htop, hb⟩
    exact ⟨hw, htop, fun o => (tail_unchanged_iff o s).mpr (Or.inr hb)⟩

/-! ### Runs -/

theorem NotBrimful.step {s s' : Store} {a : Action} (h : NotBrimful s) (ha : AvoidsBrim s a)
    (hs : storeStep s a = some s') : NotBrimful s' := by
  unfold NotBrimful at *
  cases a with
  | chunk data =>
    obtain ⟨-, rfl⟩ := chunk_cases hs
    exact h
  | writer =>
    rcases writerStep_cases hs with ⟨_, -, rfl⟩ | ⟨_, -, -, rfl⟩ | ⟨_, _, -, rfl⟩ | ⟨chunk, hpc, rfl⟩
    · exact h
    · exact h
    · exact h
    · exact ha chunk hpc
  | flusher len =>
    obtain rfl := Option.some.inj hs
    unfold AvoidsBrim at ha
    unfold flusherStep
    cases hf : s.flusher with
    | readTail r =>
      rw [hf] at ha
      simp only
      split_ifs with hlt heq
      · exact fun htop => by cases htop
      · exact fun _ => ha heq
      · exact fun htop => by cases htop
    | setTail r =>
      rw [hf] at ha
      exact fun _ => ha
    | _ => exact fun htop => by cases htop

theorem not_stuck_of_reach (garbage log : ℕ → UInt8) {s : Store}
    (hr : Reach storeStep AvoidsBrim (storeInit garbage log) s) : ¬ Stuck s := by
  intro hstuck
  have hempty : (storeInit garbage log).cb.fill = 0 := (fill_eq_zero_iff _).mpr rfl
  have hinit : NotBrimful (storeInit garbage log) := fun _ hb => Nat.ne_of_gt hb.1 hempty
  have hnot : NotBrimful s := hr.inv (fun _ _ _ h ha hs => NotBrimful.step h ha hs) hinit
  obtain ⟨-, htop, hb⟩ := (stuck_iff s).mp hstuck
  exact hnot htop hb

/-- **The device's flusher**: an iteration drains any backlog of at most a ring that is not all of it,
and in every run in which the ring is not brimful when the flusher comes to read it no writer is
stuck. -/
theorem drains_unless_brimful (s : Store) :
    (0 < s.cb.fill → s.cb.fill ≤ hardlogDataCbuffsize →
      (Drains s ↔ s.cb.fill ≠ hardlogDataCbuffsize)) ∧
    ∀ garbage log, Reach storeStep AvoidsBrim (storeInit garbage log) s → ¬ Stuck s :=
  ⟨iterate_drains_iff, fun garbage log hr => not_stuck_of_reach garbage log hr⟩

theorem eachStep_chunk {s : Store} (hw : s.writer = .idle) (hf : s.cb.fill < hardlogDataCbuffsize)
    {data : List UInt8} (hb : ¬ Brimful (copied s data).cb) :
    EachStep storeStep AvoidsBrim s (.chunk data :: List.replicate 3 .writer) := by
  have hroom : ¬ hardlogDataCbuffsize ≤ s.cb.fill := Nat.not_le.mpr hf
  simp only [List.replicate, EachStep, storeStep, writerStep, hw, if_neg hroom, AvoidsBrim,
    Option.some.injEq, forall_eq', true_and, and_true, reduceCtorEq, false_implies, implies_true,
    WriterPc.bump.injEq]
  exact fun _ => hb

/-- A chunk of 512 bytes is copied: an iteration drains it, and nothing is stuck. -/
theorem drains_512 :
    ∃ s, s.cb.fill = 512 ∧ Drains s ∧ ¬ Stuck s := by
  have hdata : (List.replicate 512 (65 : UInt8)).length = 512 := List.length_replicate
  let s := copied (storeInit (fun _ => 0) fun _ => 0) (List.replicate 512 65)
  have hfill : s.cb.fill = 512 := by
    simp only [s, copied, CircBuffer.fill, hdata]
    rfl
  have hreach : Reach storeStep AvoidsBrim (storeInit (fun _ => 0) fun _ => 0) s := by
    refine Reach.of_runFrom (runFrom_chunk rfl (by decide) (List.replicate 512 65))
      (eachStep_chunk rfl (by decide) fun hb => ?_)
    have hdvd : hardlogDataCbuffsize ∣ s.cb.fill := hb.2
    rw [hfill] at hdvd
    exact absurd hdvd (by decide)
  obtain ⟨h1, h2⟩ := drains_unless_brimful s
  exact ⟨s, hfill, (h1 (by omega) (by rw [hfill]; decide)).mpr (by rw [hfill]; decide),
    h2 _ _ hreach⟩

/-- **For ever**: from a state in which a writer is stuck, nothing moves the head or the tail. -/
theorem Stuck.forever {s s' : Store} (h : Stuck s)
    (hr : Reach storeStep (fun _ _ => True) s s') : s'.cb = s.cb ∧ Waits s' := by
  obtain ⟨⟨⟨chunk, hpc⟩, hfull⟩, htop, hb⟩ := (stuck_iff s).mp h
  have hidx := (headIndex_eq_tailIndex_iff s.cb).mpr hb.2
  unfold CircBuffer.headIndex tailIndex at hidx
  suffices hI : s'.cb = s.cb ∧ s'.writer = .space chunk ∧
      (s'.flusher = .top ∨ s'.flusher = .readTail s.cb.head) by
    exact ⟨hI.1, ⟨chunk, hI.2.1⟩, hI.1 ▸ hfull⟩
  refine hr.inv (I := fun s' => s'.cb = s.cb ∧ s'.writer = .space chunk ∧
    (s'.flusher = .top ∨ s'.flusher = .readTail s.cb.head)) ?_ ⟨rfl, hpc, Or.inl htop⟩
  rintro t a t' ⟨hcb, hw, hf⟩ - hs
  cases a with
  | chunk data =>
    obtain ⟨hidle, -⟩ := chunk_cases hs
    rw [hw] at hidle
    cases hidle
  | writer =>
    simp only [storeStep, writerStep, hw, hcb, if_pos hfull, Option.some.injEq] at hs
    subst hs
    exact ⟨hcb, hw, hf⟩
  | flusher len =>
    obtain rfl := Option.some.inj hs
    rcases hf with hf | hf
    · simp only [flusherStep, hf, hcb]
      exact ⟨trivial, hw, Or.inr trivial⟩
    · simp only [flusherStep, hf, hcb, hidx, Nat.lt_irrefl, if_false, if_true]
      exact ⟨trivial, hw, Or.inl trivial⟩

theorem reach_filled {data : List UInt8} (hlen : data.length = 16384) {k : ℕ} (hk : k ≤ 32768) :
    ∃ s, Reach storeStep Accepted (storeInit (fun _ => 0) fun _ => 0) s ∧ s.writer = .idle ∧
      s.flusher = .top ∧ s.cb.head = UInt64.ofNat (16384 * k) ∧ s.cb.tail = 0 := by
  induction k with
  | zero => exact ⟨_, Reach.refl _, rfl, rfl, rfl, rfl⟩
  | succ k ih =>
    obtain ⟨s, hr, hw, hf, hhead, htail⟩ := ih (by omega)
    have hfill : s.cb.fill = 16384 * k := by
      unfold CircBuffer.fill
      rw [hhead, htail, UInt64.sub_zero, UInt64.toNat_ofNat', Nat.mod_eq_of_lt (by omega)]
    have hroom : s.cb.fill < hardlogDataCbuffsize := by
      unfold hardlogDataCbuffsize
      omega
    have hacc : EachStep storeStep Accepted s (.chunk data :: List.replicate 3 .writer) := by
      simp [List.replicate, EachStep, storeStep, writerStep, hw, Accepted, hlen]
    refine ⟨copied s data, hr.trans (Reach.of_runFrom (runFrom_chunk hw hroom data) hacc), hw, hf,
      ?_, htail⟩
    simp only [copied]
    rw [hhead, hlen, ← UInt64.ofNat_add]
    congr 1

/-- 32768 chunks of 16384 bytes arrive while the flusher sleeps, and then one more: the ring is full,
and the writer waits for ever. -/
theorem full_ring_stuck :
    ∃ s, Reach storeStep Accepted (storeInit (fun _ => 0) fun _ => 0) s ∧ Stuck s ∧
      s.cb.fill = hardlogDataCbuffsize ∧ ¬ Drains s := by
  have hlen : (List.replicate 16384 (65 : UInt8)).length = 16384 := List.length_replicate
  obtain ⟨s, hr, hw, hf, hhead, htail⟩ := reach_filled hlen (Nat.le_refl 32768)
  have hfill : s.cb.fill = hardlogDataCbuffsize := by
    unfold CircBuffer.fill
    rw [hhead, htail]
    rfl
  obtain ⟨s', hs'⟩ : ∃ s', s' = { s with writer := .space (List.replicate 16384 65) } := ⟨_, rfl⟩
  have hnext : storeStep s (.chunk (List.replicate 16384 65)) = some s' := by
    simp only [storeStep, hw, hs']
  have hacc : Accepted s (.chunk (List.replicate 16384 65)) :=
    ⟨by rw [hlen]; exact ⟨32, rfl⟩, by omega⟩
  have hfill' : s'.cb.fill = hardlogDataCbuffsize := by rw [hs', ← hfill]
  have hbrim : Brimful s'.cb := ⟨by rw [hfill']; decide, by rw [hfill']⟩
  have hwaits : Waits s' := ⟨⟨_, by rw [hs']⟩, hfill'.ge⟩
  refine ⟨s', hr.snoc hacc hnext, (stuck_iff s').mpr ⟨hwaits, by rw [hs']; exact hf, hbrim⟩, hfill',
    fun hd => ?_⟩
  exact (iterate_drains_iff hbrim.1 hfill'.le).mp hd hfill'

end HardLog.Device.Drain
