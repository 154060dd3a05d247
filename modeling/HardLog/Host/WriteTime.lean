import HardLog.Lib.CInt
import HardLog.Lib.Runs
import Mathlib.Algebra.BigOperators.Group.List.Basic
import Mathlib.Algebra.Order.Field.Rat
import Mathlib.Tactic.Linarith

/-! # The average write time

`update_write_measurement` weights the old average with `n / (n + 1)`, where `n` samples have been
recorded, but adds the new sample divided by `n`, and one: `cur_time_us/write_count+1` is a division
by `write_count`. So the result may be above every sample (`ten_ten_not_average`). Recording a sample
keeps an average one exactly if the sample is small enough for what the old average gives up
(`isAverage_update_iff`), and `always_average_iff` says this of any sequence. -/

namespace HardLog.Host.WriteTime

open HardLog.Lib.CInt HardLog.Lib.Runs

/-- The variables of `hl-measure.c` about writes. -/
structure WriteMeasurement where
  writeCount : ℤ
  writeBytes : UInt64
  writeTimeUs : UInt64
  writeTimeHighestUs : UInt64
  writeTimeHighestBytes : UInt64

/-- `write_count` as a 64-bit operand. -/
def WriteMeasurement.count (m : WriteMeasurement) : UInt64 := UInt64.ofNat (u64 m.writeCount)

/-- `write_count + 1` as a 64-bit operand. -/
def WriteMeasurement.nextCount (m : WriteMeasurement) : UInt64 :=
  UInt64.ofNat (u64 (int32 (m.writeCount + 1)))

/-- `update_write_measurement`. -/
def updateWriteMeasurement (m : WriteMeasurement) (curTimeUs size : UInt64) : WriteMeasurement where
  writeTimeUs :=
    if m.writeCount = 0 then curTimeUs
    else m.writeTimeUs * m.count / m.nextCount + (curTimeUs / m.count + 1)
  writeTimeHighestUs :=
    if m.writeTimeHighestUs < curTimeUs then curTimeUs else m.writeTimeHighestUs
  writeTimeHighestBytes :=
    if m.writeTimeHighestUs < curTimeUs then size else m.writeTimeHighestBytes
  writeCount := int32 (m.writeCount + 1)
  writeBytes := m.writeBytes + size

/-- The measurement and the samples that were recorded, the last one in front. -/
structure Measured where
  m : WriteMeasurement
  samples : List ℕ

/-- Nothing is recorded. -/
def measureInit : Measured := ⟨⟨0, 0, 0, 0, 0⟩, []⟩

/-- A call with the time and the size of a write. -/
def measureStep (s : Measured) (call : UInt64 × UInt64) : Option Measured :=
  some ⟨updateWriteMeasurement s.m call.1 call.2, call.1.toNat :: s.samples⟩

/-- The exact mean. -/
def mean (samples : List ℕ) : ℚ := samples.sum / samples.length

/-- The largest sample. -/
def largest (samples : List ℕ) : ℕ := samples.foldr max 0

/-- **An average**: `write_time_us` is not above the largest sample, which is
`write_time_highest_us`, and it is below the mean by at most 2 for each sample. -/
structure IsAverage (s : Measured) : Prop where
  highest : s.m.writeTimeHighestUs.toNat = largest s.samples
  le_highest : s.m.writeTimeUs ≤ s.m.writeTimeHighestUs
  mean_le : mean s.samples - s.m.writeTimeUs.toNat ≤ 2 * s.samples.length

/-- A call within the limits: fewer than `2 ^ 31` calls, and no 64-bit overflow. -/
def InLimits (s : Measured) (call : UInt64 × UInt64) : Prop :=
  s.samples.length + 1 < 2 ^ 31 ∧ (s.samples.length ≠ 0 →
    s.m.writeTimeUs.toNat * s.samples.length < 2 ^ 64 ∧
      s.m.writeTimeUs.toNat * s.samples.length / (s.samples.length + 1) +
        (call.1.toNat / s.samples.length + 1) < 2 ^ 64)

/-- The sample is less than the number of samples so far times what there is room for: the distance
from the old average up to the largest sample, and the part that the old average gives up. -/
def HasRoom (s : Measured) (call : UInt64 × UInt64) : Prop :=
  s.samples.length = 0 ∨ call.1.toNat < s.samples.length *
    (max s.m.writeTimeHighestUs.toNat call.1.toNat - s.m.writeTimeUs.toNat +
      (s.m.writeTimeUs.toNat + s.samples.length) / (s.samples.length + 1))

instance (s : Measured) (call : UInt64 × UInt64) : Decidable (InLimits s call) := by
  unfold InLimits; infer_instance

instance (s : Measured) (call : UInt64 × UInt64) : Decidable (HasRoom s call) := by
  unfold HasRoom; infer_instance

/-! ### The arithmetic -/

theorem kept_add_given (w n : ℕ) : w * n / (n + 1) + (w + n) / (n + 1) = w := by
  have hup := Nat.div_add_mod (w + n) (n + 1)
  have hlt : (w + n) % (n + 1) < n + 1 := Nat.mod_lt _ (Nat.succ_pos n)
  obtain ⟨c, hc⟩ : ∃ c, c = (w + n) / (n + 1) := ⟨_, rfl⟩
  rw [← hc] at hup ⊢
  have hcw : c ≤ w := by
    by_contra hn
    have : (n + 1) * (w + 1) ≤ (n + 1) * c := Nat.mul_le_mul_left _ (by omega)
    have : (n + 1) * (w + 1) = w * n + w + n + 1 := by ring
    omega
  obtain ⟨d, rfl⟩ := Nat.exists_eq_add_of_le hcw
  have hkept : (c + d) * n / (n + 1) = d := by
    refine Nat.div_eq_of_lt_le ?_ ?_
    · have : (c + d) * n + d + c = d * (n + 1) + (n + 1) * c := by ring
      omega
    · have : (d + 1) * (n + 1) + (n + 1) * c = (c + d) * n + d + n + c + 1 := by ring
      omega
  omega

/-- The new average, for a sample `x` behind `n` others. -/
def newAverage (w n x : ℕ) : ℕ := w * n / (n + 1) + (x / n + 1)

theorem newAverage_le_iff {w n x h : ℕ} (hn : 0 < n) (hw : w ≤ h) :
    newAverage w n x ≤ h ↔ x < n * (h - w + (w + n) / (n + 1)) := by
  have hkept := kept_add_given w n
  rw [newAverage, Nat.mul_comm n, ← Nat.div_lt_iff_lt_mul hn]
  omega

theorem sum_le_newAverage {w n x sum : ℕ} (hn : 0 < n) (h : sum ≤ n * w + 2 * n * n) :
    x + sum ≤ (n + 1) * newAverage w n x + 2 * (n + 1) * (n + 1) := by
  have hkept := Nat.div_add_mod (w * n) (n + 1)
  have hkept' : w * n % (n + 1) < n + 1 := Nat.mod_lt _ (Nat.succ_pos n)
  have hx := Nat.div_add_mod x n
  have hx' := Nat.mod_lt x hn
  obtain ⟨a, ha⟩ : ∃ a, a = w * n / (n + 1) := ⟨_, rfl⟩
  obtain ⟨b, hb⟩ : ∃ b, b = x / n := ⟨_, rfl⟩
  rw [← ha] at hkept
  rw [← hb] at hx
  have hnew : newAverage w n x = a + (b + 1) := by rw [newAverage, ha, hb]
  rw [hnew]
  have hsplit : (n + 1) * (a + (b + 1)) + 2 * (n + 1) * (n + 1) =
      (n + 1) * a + n * b + b + 2 * n * n + 5 * n + 3 := by ring
  have hcomm : n * w = w * n := Nat.mul_comm n w
  omega

theorem mean_sub_le_iff {samples : List ℕ} {w : ℕ} (h : 0 < samples.length) :
    mean samples - w ≤ 2 * samples.length ↔
      samples.sum ≤ samples.length * w + 2 * samples.length * samples.length := by
  have hpos : (0 : ℚ) < samples.length := by exact_mod_cast h
  have hcast : (samples.sum : ℚ) ≤
      ((samples.length * w + 2 * samples.length * samples.length : ℕ) : ℚ) ↔
        samples.sum ≤ samples.length * w + 2 * samples.length * samples.length := Nat.cast_le
  rw [mean, sub_le_iff_le_add, div_le_iff₀ hpos, ← hcast]
  push_cast
  constructor
  · intro hle
    linarith
  · intro hle
    linarith

/-! ### A call -/

/-- The counters, when nothing has overflowed. -/
structure Counted (s : Measured) : Prop where
  count : s.m.writeCount = s.samples.length
  lt : s.samples.length < 2 ^ 31

section Step

variable {s : Measured} {call : UInt64 × UInt64}

theorem measureInit_counted : Counted measureInit := ⟨rfl, by decide⟩

theorem measureInit_isAverage : IsAverage measureInit :=
  ⟨rfl, UInt64.le_refl _, by simp [measureInit, mean]⟩

theorem Counted.update (h : Counted s) (hlim : InLimits s call) :
    Counted ⟨updateWriteMeasurement s.m call.1 call.2, call.1.toNat :: s.samples⟩ := by
  have hlt := hlim.1
  refine ⟨?_, by simpa using hlt⟩
  simp only [updateWriteMeasurement, h.count, List.length_cons]
  rw [int32_eq (by omega) (by omega)]
  push_cast
  rfl

theorem Counted.toNat_writeTimeUs (h : Counted s) (hlim : InLimits s call)
    (hn : s.samples.length ≠ 0) :
    (updateWriteMeasurement s.m call.1 call.2).writeTimeUs.toNat =
      newAverage s.m.writeTimeUs.toNat s.samples.length call.1.toNat := by
  have hlt := hlim.1
  obtain ⟨hmul, hsum⟩ := hlim.2 hn
  have hcount : s.m.count.toNat = s.samples.length := by
    rw [WriteMeasurement.count, h.count, UInt64.toNat_ofNat']
    unfold u64
    omega
  have hnext : s.m.nextCount.toNat = s.samples.length + 1 := by
    rw [WriteMeasurement.nextCount, h.count, int32_eq (by omega) (by omega), UInt64.toNat_ofNat']
    unfold u64
    omega
  have hne : ¬ s.m.writeCount = 0 := by
    rw [h.count]
    omega
  have hone : (call.1.toNat / s.samples.length + 1) % 2 ^ 64 = call.1.toNat / s.samples.length + 1 :=
    Nat.mod_eq_of_lt (Nat.lt_of_le_of_lt (Nat.le_add_left _ _) hsum)
  simp only [updateWriteMeasurement, if_neg hne, newAverage]
  rw [UInt64.toNat_add, UInt64.toNat_add, UInt64.toNat_div, UInt64.toNat_div, UInt64.toNat_mul,
    hcount, hnext, Nat.mod_eq_of_lt hmul, UInt64.toNat_one, hone, Nat.mod_eq_of_lt hsum]

theorem toNat_highest (h : s.m.writeTimeHighestUs.toNat = largest s.samples)
    (call : UInt64 × UInt64) :
    (updateWriteMeasurement s.m call.1 call.2).writeTimeHighestUs.toNat =
      largest (call.1.toNat :: s.samples) := by
  have hcons : largest (call.1.toNat :: s.samples) = max call.1.toNat (largest s.samples) := rfl
  rw [hcons, ← h]
  simp only [updateWriteMeasurement]
  by_cases hlt : s.m.writeTimeHighestUs < call.1
  · rw [if_pos hlt, Nat.max_eq_left (UInt64.lt_iff_toNat_lt.mp hlt).le]
  · rw [if_neg hlt, Nat.max_eq_right]
    exact UInt64.le_iff_toNat_le.mp (UInt64.not_lt.mp hlt)

theorem isAverage_first (h : Counted s) (ha : IsAverage s) (hn : s.samples.length = 0) :
    IsAverage ⟨updateWriteMeasurement s.m call.1 call.2, call.1.toNat :: s.samples⟩ := by
  have hhigh := toNat_highest ha.highest call
  have hzero : s.m.writeCount = 0 := by rw [h.count, hn]; rfl
  have htime : (updateWriteMeasurement s.m call.1 call.2).writeTimeUs = call.1 := by
    simp only [updateWriteMeasurement, if_pos hzero]
  refine ⟨hhigh, ?_, ?_⟩
  · rw [UInt64.le_iff_toNat_le, htime, hhigh]
    exact Nat.le_max_left _ _
  · simp only [htime]
    rw [mean_sub_le_iff (by simp), List.eq_nil_of_length_eq_zero hn]
    simp

/-- **A call** keeps an average one exactly if there is room for the sample. -/
theorem isAverage_update_iff (h : Counted s) (ha : IsAverage s) (hlim : InLimits s call) :
    IsAverage ⟨updateWriteMeasurement s.m call.1 call.2, call.1.toNat :: s.samples⟩ ↔
      HasRoom s call := by
  by_cases hn : s.samples.length = 0
  · exact iff_of_true (isAverage_first h ha hn) (Or.inl hn)
  have hpos : 0 < s.samples.length := Nat.pos_of_ne_zero hn
  have hhigh := toNat_highest ha.highest call
  have hcons : largest (call.1.toNat :: s.samples) =
      max s.m.writeTimeHighestUs.toNat call.1.toNat := by
    rw [ha.highest, Nat.max_comm]
    rfl
  have htime := h.toNat_writeTimeUs hlim hn
  have hw : s.m.writeTimeUs.toNat ≤ max s.m.writeTimeHighestUs.toNat call.1.toNat :=
    (UInt64.le_iff_toNat_le.mp ha.le_highest).trans (Nat.le_max_left _ _)
  have hmean : s.samples.sum ≤ s.samples.length * s.m.writeTimeUs.toNat +
      2 * s.samples.length * s.samples.length := (mean_sub_le_iff hpos).mp ha.mean_le
  rw [HasRoom, or_iff_right hn, ← newAverage_le_iff hpos hw]
  constructor
  · intro h'
    have hle := UInt64.le_iff_toNat_le.mp h'.le_highest
    rwa [htime, hhigh, hcons] at hle
  · intro hle
    refine ⟨hhigh, ?_, ?_⟩
    · rwa [UInt64.le_iff_toNat_le, htime, hhigh, hcons]
    · simp only [htime]
      rw [mean_sub_le_iff (by simp), List.sum_cons, List.length_cons]
      exact sum_le_newAverage hpos hmean

end Step

/-- **The reported average** is one after every call of a sequence exactly if there was room for each
sample. -/
theorem always_average_iff {calls : List (UInt64 × UInt64)}
    (hlim : EachStep measureStep InLimits measureInit calls) :
    Always measureStep IsAverage measureInit calls ↔
      EachStep measureStep HasRoom measureInit calls := by
  refine always_iff_eachStep_of (I := fun s => Counted s ∧ IsAverage s) ?_ ?_ hlim
    ⟨measureInit_counted, measureInit_isAverage⟩ measureInit_isAverage
  · rintro s call s' ⟨hc, -⟩ hl hs ha'
    obtain rfl := Option.some.inj hs
    exact ⟨hc.update hl, ha'⟩
  · rintro s call s' ⟨hc, ha⟩ hl hs
    obtain rfl := Option.some.inj hs
    exact isAverage_update_iff hc ha hl

/-- A write of 100 us and one of 10 us: there is room for the second. -/
theorem always_average_100_10 :
    Always measureStep IsAverage measureInit [(100, 4096), (10, 4096)] := by
  have hlim : EachStep measureStep InLimits measureInit [(100, 4096), (10, 4096)] :=
    EachStep.cons (by decide) rfl (EachStep.cons (by decide) rfl trivial)
  exact (always_average_iff hlim).mpr
    (EachStep.cons (by decide) rfl (EachStep.cons (by decide) rfl trivial))

/-- Two writes of 10 us: the average is 16 us. -/
theorem ten_ten_not_average :
    EachStep measureStep InLimits measureInit [(10, 4096), (10, 4096)] ∧
      ¬ Always measureStep IsAverage measureInit [(10, 4096), (10, 4096)] := by
  refine ⟨EachStep.cons (by decide) rfl (EachStep.cons (by decide) rfl trivial), ?_⟩
  rintro ⟨-, h⟩
  have hlast : IsAverage _ := (h _ rfl).2 _ rfl
  exact absurd hlast.le_highest (by decide)

end HardLog.Host.WriteTime
