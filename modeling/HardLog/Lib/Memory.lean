import Mathlib.Data.List.Basic
import Mathlib.Data.List.TakeWhile
import Mathlib.Tactic.Ring

/-! # Memory as a function of the address

A buffer is a function from the address to the cell, so that its length is a matter of the
accesses made and not of the type. `memcpy m off src` stores the list `src` from `off` on, `slice m
off n` is what reading `n` cells from `off` on gives. -/

namespace HardLog.Lib.Memory

variable {α : Type*}

/-- The memory after `src` was copied to the addresses from `off` on. -/
def memcpy (m : ℕ → α) (off : ℕ) (src : List α) : ℕ → α := fun i =>
  if h : off ≤ i ∧ i < off + src.length then src[i - off] else m i

/-- The `n` cells from `off` on. -/
def slice (m : ℕ → α) (off n : ℕ) : List α := (List.range n).map fun i => m (off + i)

/-! ### Reading what was copied -/

theorem memcpy_inside (m : ℕ → α) (off : ℕ) (src : List α) {k : ℕ} (hk : k < src.length) :
    memcpy m off src (off + k) = src[k] := by
  have h : off ≤ off + k ∧ off + k < off + src.length := by omega
  simp [memcpy, h]

theorem memcpy_outside (m : ℕ → α) (off : ℕ) (src : List α) {i : ℕ}
    (hi : i < off ∨ off + src.length ≤ i) : memcpy m off src i = m i := by
  have h : ¬ (off ≤ i ∧ i < off + src.length) := by omega
  simp only [memcpy, dif_neg h]

@[simp] theorem memcpy_nil (m : ℕ → α) (off : ℕ) : memcpy m off [] = m := by
  funext i
  exact memcpy_outside m off [] (by simp; omega)

/-! ### Slices -/

@[simp] theorem length_slice (m : ℕ → α) (off n : ℕ) : (slice m off n).length = n := by
  simp [slice]

@[simp] theorem getElem_slice (m : ℕ → α) (off n : ℕ) {i : ℕ} (hi : i < (slice m off n).length) :
    (slice m off n)[i] = m (off + i) := by
  simp [slice]

@[simp] theorem slice_zero (m : ℕ → α) (off : ℕ) : slice m off 0 = [] := rfl

theorem slice_add (m : ℕ → α) (off a b : ℕ) :
    slice m off (a + b) = slice m off a ++ slice m (off + a) b := by
  refine List.ext_getElem (by simp) fun i h1 h2 => ?_
  rw [List.getElem_append]
  split_ifs with h
  · simp
  · simp only [length_slice] at h
    simp only [getElem_slice, length_slice]
    congr 1; omega

theorem slice_congr {m m' : ℕ → α} {off off' n : ℕ} (h : ∀ i < n, m (off + i) = m' (off' + i)) :
    slice m off n = slice m' off' n := by
  refine List.ext_getElem (by simp) fun i h1 _ => ?_
  rw [length_slice] at h1
  simpa using h i h1

theorem take_slice (m : ℕ → α) (off n k : ℕ) :
    (slice m off n).take k = slice m off (min k n) := by
  refine List.ext_getElem (by simp) fun i h1 h2 => ?_
  rw [List.getElem_take, getElem_slice, getElem_slice]

theorem take_drop_slice (m : ℕ → α) {off n a k : ℕ} (h : a + k ≤ n) :
    ((slice m off n).drop a).take k = slice m (off + a) k := by
  refine List.ext_getElem (by simp; omega) fun i h1 h2 => ?_
  rw [List.getElem_take, List.getElem_drop, getElem_slice, getElem_slice, Nat.add_assoc]

theorem slice_memcpy (m : ℕ → α) (off : ℕ) (src : List α) :
    slice (memcpy m off src) off src.length = src := by
  refine List.ext_getElem (by simp) fun i h1 h2 => ?_
  rw [getElem_slice, memcpy_inside m off src h2]

theorem slice_memcpy_of_disjoint {m : ℕ → α} {off a n : ℕ} {src : List α}
    (h : a + n ≤ off ∨ off + src.length ≤ a) : slice (memcpy m off src) a n = slice m a n :=
  slice_congr fun i hi => memcpy_outside m off src (by omega)

/-- **Appending**: a copy right behind a slice makes the slice longer by what was copied. -/
theorem slice_memcpy_append (m : ℕ → α) (off n : ℕ) (src : List α) :
    slice (memcpy m (off + n) src) off (n + src.length) = slice m off n ++ src := by
  rw [slice_add, slice_memcpy, slice_memcpy_of_disjoint (Or.inl (Nat.le_refl _))]

theorem slice_memcpy_front (m : ℕ → α) {src : List α} {n : ℕ} (h : src.length ≤ n) :
    slice (memcpy m 0 src) 0 n = src ++ slice m src.length (n - src.length) := by
  obtain ⟨k, rfl⟩ := Nat.exists_eq_add_of_le h
  rw [slice_add, slice_memcpy, Nat.add_sub_cancel_left, Nat.zero_add,
    slice_memcpy_of_disjoint (Or.inr (by omega))]

theorem slice_eq_iff {m : ℕ → α} {off n : ℕ} {l : List α} (hl : l.length = n) :
    slice m off n = l ↔ ∀ i, ∀ h : i < l.length, m (off + i) = l[i] := by
  constructor
  · rintro rfl i h; simp
  · intro h
    refine List.ext_getElem (by simp [hl]) fun i _ h2 => ?_
    rw [getElem_slice]; exact h i h2

theorem slice_inj {m m' : ℕ → α} {off n : ℕ} (h : slice m off n = slice m' off n) {i : ℕ}
    (hi : i < n) : m (off + i) = m' (off + i) := by
  have hget := (slice_eq_iff (length_slice m' off n)).mp h i (by rwa [length_slice])
  rwa [getElem_slice] at hget

theorem memcpy_memcpy_append (m : ℕ → α) (off : ℕ) (a b : List α) :
    memcpy (memcpy m off a) (off + a.length) b = memcpy m off (a ++ b) := by
  funext i
  rcases Nat.lt_or_ge i off with hlt | hge
  · rw [memcpy_outside _ _ _ (by omega), memcpy_outside _ _ _ (by omega),
      memcpy_outside _ _ _ (by omega)]
  obtain ⟨k, rfl⟩ := Nat.exists_eq_add_of_le hge
  by_cases ha : k < a.length
  · rw [memcpy_outside _ _ _ (by omega), memcpy_inside _ _ _ ha,
      memcpy_inside _ _ _ (by rw [List.length_append]; omega), List.getElem_append_left ha]
  by_cases hb : k < a.length + b.length
  · obtain ⟨j, rfl⟩ := Nat.exists_eq_add_of_le (Nat.le_of_not_lt ha)
    rw [← Nat.add_assoc, memcpy_inside _ _ _ (by omega), Nat.add_assoc,
      memcpy_inside _ _ _ (by rw [List.length_append]; omega),
      List.getElem_append_right (by omega)]
    simp
  · rw [memcpy_outside _ _ _ (by omega), memcpy_outside _ _ _ (by omega),
      memcpy_outside _ _ _ (by rw [List.length_append]; omega)]

/-! ### Pages of one length -/

theorem flatten_slices (m : ℕ → α) (P N : ℕ) :
    ((List.range N).map fun i => slice m (P * i) P).flatten = slice m 0 (P * N) := by
  induction N with
  | zero => rfl
  | succ N ih =>
    rw [List.range_succ, List.map_append, List.flatten_append, ih, Nat.mul_add, Nat.mul_one,
      slice_add]
    simp

theorem length_flatten_pages {page : ℕ → List α} {P : ℕ} (hP : ∀ i, (page i).length = P) (N : ℕ) :
    ((List.range N).map page).flatten.length = P * N := by
  induction N with
  | zero => rfl
  | succ N ih =>
    rw [List.range_succ, List.map_append, List.flatten_append, List.length_append, ih]
    simp [hP, Nat.mul_add]

/-- The cell `k` of a row of pages is cell `k % P` of page `k / P`. -/
theorem getElem_flatten_pages {page : ℕ → List α} {P : ℕ} (hP : ∀ i, (page i).length = P)
    {N k : ℕ} (hk : k < ((List.range N).map page).flatten.length)
    (hk' : k % P < (page (k / P)).length) :
    ((List.range N).map page).flatten[k] = (page (k / P))[k % P] := by
  induction N with
  | zero => exact absurd hk (by simp)
  | succ N ih =>
    have hlen := length_flatten_pages hP N
    have hsplit : ((List.range (N + 1)).map page).flatten =
        ((List.range N).map page).flatten ++ page N := by
      rw [List.range_succ, List.map_append, List.flatten_append]
      simp
    simp only [hsplit]
    by_cases hlt : k < P * N
    · rw [List.getElem_append_left (by omega)]
      exact ih (by omega)
    · have hle : k < P * N + P := by
        rwa [length_flatten_pages hP, Nat.mul_add, Nat.mul_one] at hk
      have hq : k / P = N := by
        rw [Nat.div_eq_of_lt_le] <;> simp only [Nat.succ_mul, Nat.mul_comm N P] <;> omega
      have hr : k % P = k - P * N := by
        have := Nat.div_add_mod k P
        rw [hq] at this
        omega
      rw [List.getElem_append_right (by omega)]
      simp only [hq, hr, hlen]

theorem take_drop_flatMap {β : Type*} {l : List β} {f : β → List α} {P : ℕ}
    (hP : ∀ p ∈ l, (f p).length = P) {i : ℕ} (hi : i < l.length) :
    ((l.flatMap f).drop (P * i)).take P = f l[i] := by
  induction l generalizing i with
  | nil => exact absurd hi (Nat.not_lt_zero i)
  | cons p l ih =>
    have hp := hP p List.mem_cons_self
    cases i with
    | zero =>
      rw [List.flatMap_cons, Nat.mul_zero, List.drop_zero, ← hp, List.take_left]
      rfl
    | succ i =>
      rw [List.flatMap_cons, Nat.mul_succ, Nat.add_comm, ← hp, List.drop_length_add_append, hp,
        ih (fun q hq => hP q (List.mem_cons_of_mem p hq)) (by simpa using hi)]
      rfl

end HardLog.Lib.Memory
