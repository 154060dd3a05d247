import Mathlib.Data.List.TakeWhile
import Mathlib.Tactic.Ring

/-! # C integers

The values of `int` and of the 64-bit unsigned types as integers: arithmetic is done in `ℤ` or `ℕ`
and reduced to the type where C stores the result. -/

namespace HardLog.Lib.CInt

/-- The largest `int`. -/
def intMax : ℕ := 2 ^ 31 - 1

/-- An arithmetic result stored in an `int`. -/
def int32 (x : ℤ) : ℤ := (x + 2 ^ 31) % 2 ^ 32 - 2 ^ 31

/-- An `int` converted to `size_t` or `uint64_t`. -/
def u64 (x : ℤ) : ℕ := (x % 2 ^ 64).toNat

/-- The difference of two `u32`. -/
def sub32 (a b : ℕ) : ℕ := (a + 2 ^ 32 - b) % 2 ^ 32

theorem int32_eq {x : ℤ} (h : -2 ^ 31 ≤ x) (h' : x < 2 ^ 31) : int32 x = x := by
  unfold int32; omega

theorem u64_of_nonneg {x : ℤ} (h : 0 ≤ x) (h' : x < 2 ^ 64) : (u64 x : ℤ) = x := by
  unfold u64; omega

theorem sub32_of_le {a b : ℕ} (h : b ≤ a) (h' : a < 2 ^ 32) : sub32 a b = a - b := by
  unfold sub32; omega

/-! ### Counters that wrap -/

theorem toNat_ofNat_sub {a b : ℕ} (h : b ≤ a) (h' : a - b < 2 ^ 64) :
    (UInt64.ofNat a - UInt64.ofNat b).toNat = a - b := by
  rw [UInt64.toNat_sub, UInt64.toNat_ofNat', UInt64.toNat_ofNat']
  omega

/-- The index of a 64-bit counter in a ring the size of which divides `2 ^ 64`. -/
theorem toNat_ofNat_mod {S : ℕ} (hS : S ∣ 2 ^ 64) (n : ℕ) :
    (UInt64.ofNat n).toNat % S = n % S := by
  rw [UInt64.toNat_ofNat']
  exact Nat.mod_mod_of_dvd n hS

theorem eq_of_ofNat_eq {a b : ℕ} (hab : b ≤ a) (h : a - b < 2 ^ 64)
    (heq : UInt64.ofNat a = UInt64.ofNat b) : a = b := by
  have h1 := toNat_ofNat_sub hab h
  rw [heq, UInt64.sub_self] at h1
  have hzero := UInt64.toNat_zero
  omega

end HardLog.Lib.CInt
