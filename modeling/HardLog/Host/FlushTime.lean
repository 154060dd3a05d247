import HardLog.Lib.Ring
import HardLog.Lib.Runs

/-! # The window of the flush latency

`mark_log_appended` writes the time of a record to the next of `MAXLOGS` slots. The index of that slot
is `MAXLOGS` when the last one has been written, and goes back to 0 only at the next mark.
`save_log_appended` moves the two bounds between which `update_flush_time_measurement` looks at the
times. The slots between two saves are those of a ring (`Inv`), and `scanned_window` says that they
are the ones looked at, wherever the bounds lie. -/

namespace HardLog.Host.FlushTime

open HardLog.Lib.Ring HardLog.Lib.Runs

/-- `MAXLOGS`. -/
def maxlogs : ℕ := 500000

/-- The variables of `hl-measure.c` about flushes. -/
structure FlushMeasurement where
  flushTimeHighestUs : UInt64
  logsAppended : ℕ
  logsAppendedStart : ℕ
  logsAppendedEnd : ℕ
  logsAppendTimes : ℕ → UInt64

/-- The slot that `mark_log_appended` writes. -/
def FlushMeasurement.slot (m : FlushMeasurement) : ℕ :=
  if maxlogs ≤ m.logsAppended then 0 else m.logsAppended

/-- `mark_log_appended`, at the time `now`. -/
def markLogAppended (now : UInt64) (m : FlushMeasurement) : FlushMeasurement :=
  { m with
    logsAppendTimes := Function.update m.logsAppendTimes m.slot now
    logsAppended := m.slot + 1 }

/-- `save_log_appended`. -/
def saveLogAppended (m : FlushMeasurement) : FlushMeasurement :=
  { m with
    logsAppendedStart := m.logsAppendedEnd
    logsAppendedEnd := m.logsAppended }

/-- `ktime_us_delta`: the difference of two signed times, divided towards zero. -/
def ktimeUsDelta (later earlier : UInt64) : UInt64 :=
  ((later.toInt64 - earlier.toInt64) / 1000).toUInt64

/-- The indices that the loops of `update_flush_time_measurement` go through. -/
def FlushMeasurement.scanned (m : FlushMeasurement) : List ℕ :=
  if m.logsAppendedStart ≤ m.logsAppendedEnd then
    List.range' m.logsAppendedStart (m.logsAppendedEnd - m.logsAppendedStart)
  else
    List.range' m.logsAppendedStart (maxlogs - m.logsAppendedStart) ++
      List.range m.logsAppendedEnd

/-- A round of these loops, for a slot with the time `time`. -/
def scanTime (curtime highest time : UInt64) : UInt64 :=
  if time = 0 then highest
  else if highest < ktimeUsDelta curtime time then ktimeUsDelta curtime time
  else highest

/-- `update_flush_time_measurement`, at the time `curtime`. -/
def updateFlushTimeMeasurement (curtime : UInt64) (m : FlushMeasurement) : FlushMeasurement :=
  { m with
    flushTimeHighestUs :=
      (m.scanned.map m.logsAppendTimes).foldl (scanTime curtime) m.flushTimeHighestUs }

/-! ### Runs -/

/-- A call of one of the three. -/
inductive FlushAction where
  | mark (now : UInt64)
  | save
  | update (curtime : UInt64)

/-- The measurement with the slots written since the last save and those written between the last two
saves, if there were so many. -/
structure Marked where
  m : FlushMeasurement
  since : Option (List ℕ)
  window : Option (List ℕ)

/-- A step. -/
def flushStep (s : Marked) : FlushAction → Option Marked
  | .mark now =>
    some { s with m := markLogAppended now s.m, since := s.since.map fun l => l ++ [s.m.slot] }
  | .save => some ⟨saveLogAppended s.m, some [], s.since⟩
  | .update curtime => some { s with m := updateFlushTimeMeasurement curtime s.m }

/-- The module has been loaded. -/
def flushInit : Marked := ⟨⟨0, 0, 0, 0, fun _ => 0⟩, none, none⟩

/-- Fewer than `MAXLOGS` marks come between two saves. -/
def Spaced (s : Marked) : FlushAction → Prop
  | .save => ∀ l, s.since = some l → l.length < maxlogs
  | _ => True

/-- `logs_appended` when `n` slots have been written since it was `a`. -/
def position (a n : ℕ) : ℕ := if n = 0 then a else (a + n - 1) % maxlogs + 1

/-- The slots written since the last save follow on each other from the upper bound on. -/
structure Inv (s : Marked) : Prop where
  end_le : s.m.logsAppendedEnd ≤ maxlogs
  appended_le : s.m.logsAppended ≤ maxlogs
  since : ∀ l, s.since = some l → l = indices maxlogs s.m.logsAppendedEnd l.length ∧
    s.m.logsAppended = position s.m.logsAppendedEnd l.length
  window : ∀ w, s.window = some w →
    s.m.scanned = w ∧ w.Nodup ∧ ∀ i ∈ w, i < maxlogs

/-! ### The slots of a ring -/

theorem slot_eq {m : FlushMeasurement} {a n : ℕ} (ha : a ≤ maxlogs)
    (hm : m.logsAppended = position a n) : m.slot = (a + n) % maxlogs := by
  unfold FlushMeasurement.slot
  rw [hm]
  unfold position maxlogs at *
  split_ifs <;> omega

/-- **The scan** between two saves with fewer than `MAXLOGS` marks between them. -/
theorem scanned_eq {m : FlushMeasurement} {n : ℕ} (hn : n < maxlogs)
    (hstart : m.logsAppendedStart ≤ maxlogs)
    (hend : m.logsAppendedEnd = position m.logsAppendedStart n) :
    m.scanned = indices maxlogs m.logsAppendedStart n := by
  unfold FlushMeasurement.scanned
  rcases Nat.eq_zero_or_pos n with rfl | hpos
  · rw [hend, position, if_pos rfl, if_pos (Nat.le_refl _), Nat.sub_self]
    rfl
  rw [position, if_neg (by omega)] at hend
  rcases Nat.lt_or_ge maxlogs (m.logsAppendedStart + n) with hwrap | hle
  · -- behind the last slot it goes on with the first
    have hend' : m.logsAppendedEnd = m.logsAppendedStart + n - maxlogs := by
      rw [hend, Nat.mod_eq_sub_mod (by omega), Nat.mod_eq_of_lt (by omega)]
      omega
    rw [if_neg (by omega), hend', indices_of_ge hstart hn.le hwrap.le]
  · have hend' : m.logsAppendedEnd = m.logsAppendedStart + n := by
      rw [hend, Nat.mod_eq_of_lt (by omega)]
      omega
    rw [if_pos (by omega), hend', Nat.add_sub_cancel_left, indices_of_le hle]

/-! ### The steps -/

section Step

variable {s s' : Marked}

theorem flushInit_inv : Inv flushInit where
  end_le := Nat.zero_le _
  appended_le := Nat.zero_le _
  since l h := by cases h
  window w h := by cases h

theorem Inv.mark (h : Inv s) (now : UInt64) :
    Inv { s with m := markLogAppended now s.m, since := s.since.map fun l => l ++ [s.m.slot] } where
  end_le := h.end_le
  appended_le := by
    have := h.appended_le
    simp only [markLogAppended, FlushMeasurement.slot]
    split_ifs
    · decide
    · omega
  since l hl := by
    obtain ⟨l', hl', rfl⟩ := Option.map_eq_some_iff.mp hl
    obtain ⟨hlist, happ⟩ := h.since l' hl'
    have hslot := slot_eq h.end_le happ
    simp only [markLogAppended, List.length_append, List.length_singleton, hslot]
    refine ⟨?_, rfl⟩
    rw [indices, List.range_succ, List.map_append, ← indices, ← hlist]
    rfl
  window := h.window

theorem Inv.save (h : Inv s) (hspaced : Spaced s .save) :
    Inv ⟨saveLogAppended s.m, some [], s.since⟩ where
  end_le := h.appended_le
  appended_le := h.appended_le
  since l hl := by
    obtain rfl := Option.some.inj hl
    exact ⟨rfl, rfl⟩
  window w hw := by
    obtain ⟨hlist, happ⟩ := h.since w hw
    have hlt := hspaced w hw
    have hscan : (saveLogAppended s.m).scanned = w :=
      (scanned_eq hlt h.end_le happ).trans hlist.symm
    refine ⟨hscan, ?_, fun i hi => ?_⟩
    · rw [hlist]
      exact nodup_indices hlt.le
    · rw [hlist] at hi
      obtain ⟨k, -, rfl⟩ := List.mem_map.mp hi
      exact Nat.mod_lt _ (by decide)

theorem Inv.step {a : FlushAction} (h : Inv s) (hspaced : Spaced s a)
    (hs : flushStep s a = some s') : Inv s' := by
  rcases a with now | _ | curtime
  · obtain rfl := Option.some.inj hs
    exact h.mark now
  · obtain rfl := Option.some.inj hs
    exact h.save hspaced
  · obtain rfl := Option.some.inj hs
    exact ⟨h.end_le, h.appended_le, h.since, h.window⟩

end Step

end HardLog.Host.FlushTime
