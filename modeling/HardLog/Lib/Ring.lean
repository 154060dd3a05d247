import HardLog.Lib.Memory

/-! # A ring that holds the end of a stream

A stream of cells is stored in a ring of `S` cells: its position `p` belongs at the index `p % S`.
The writer copies a record as one block to the index of the stream's end, so a record that reaches
the end of the ring runs on into the addresses from `S` on; the reader takes every index modulo
`S`. `Holds S m stream t` says that the reader finds the stream from position `t` on. `holds_append`
is the exact condition under which this survives a record: the part of the block behind the end of
the ring is what is already at the start of the ring. -/

namespace HardLog.Lib.Ring

open HardLog.Lib.Memory

variable {α : Type*}

/-- Reading at `p % S` gives the stream's cell `p`, from position `t` on. -/
def Holds (S : ℕ) (m : ℕ → α) (stream : List α) (t : ℕ) : Prop :=
  ∀ p, t ≤ p → ∀ h : p < stream.length, m (p % S) = stream[p]

variable {S : ℕ} {m : ℕ → α} {stream : List α} {t : ℕ}

theorem Holds.mono {t' : ℕ} (h : Holds S m stream t) (ht : t ≤ t') : Holds S m stream t' :=
  fun p hp hlt => h p (ht.trans hp) hlt

theorem Holds.of_length_le (h : stream.length ≤ t) : Holds S m stream t :=
  fun _ hp hlt => absurd hlt (by omega)

theorem Holds.of_append {r : List α} (h : Holds S m (stream ++ r) t) : Holds S m stream t :=
  fun p hp hlt => by
    rw [h p hp (by rw [List.length_append]; omega), List.getElem_append_left hlt]

/-! ### Indices -/

theorem mod_ne {a b : ℕ} (hab : a < b) (hb : b < a + S) : a % S ≠ b % S := by
  intro h
  have hd := Nat.sub_mod_eq_zero_of_mod_eq h.symm
  rw [Nat.mod_eq_of_lt (by omega)] at hd
  omega

theorem add_mod_of_lt {a k : ℕ} (h : a % S + k < S) : (a + k) % S = a % S + k := by
  rw [Nat.add_mod, Nat.mod_eq_of_lt (show k < S by omega), Nat.mod_eq_of_lt h]

theorem add_mod_of_le {a k : ℕ} (hk : k ≤ S) (hS : 0 < S) (h : S ≤ a % S + k) :
    (a + k) % S = a % S + k - S := by
  have ha := Nat.mod_lt a hS
  rcases Nat.lt_or_ge k S with hlt | hge
  · rw [Nat.add_mod, Nat.mod_eq_of_lt hlt, Nat.mod_eq_sub_mod h, Nat.mod_eq_of_lt (by omega)]
  · obtain rfl : k = S := by omega
    rw [Nat.add_mod_right]; omega

/-- The indices of the `n` positions from `a` on. -/
def indices (S a n : ℕ) : List ℕ := (List.range n).map fun k => (a + k) % S

theorem nodup_indices {a n : ℕ} (h : n ≤ S) : (indices S a n).Nodup := by
  refine List.pairwise_map.mpr (List.pairwise_lt_range.imp_of_mem fun {i j} hi hj hij => ?_)
  have := List.mem_range.mp hj
  exact mod_ne (by omega) (by omega)

theorem indices_of_le {a n : ℕ} (h : a + n ≤ S) : indices S a n = List.range' a n := by
  rw [indices, List.range'_eq_map_range]
  refine List.map_congr_left fun k hk => ?_
  have := List.mem_range.mp hk
  exact Nat.mod_eq_of_lt (by omega)

theorem indices_of_ge {a n : ℕ} (ha : a ≤ S) (hn : n ≤ S) (h : S ≤ a + n) :
    indices S a n = List.range' a (S - a) ++ List.range (a + n - S) := by
  obtain ⟨m, hm⟩ := Nat.exists_eq_add_of_le h
  have hsplit : n = (S - a) + m := by omega
  have hrest : (List.range m).map (fun k => (a + (S - a + k)) % S) = List.range m := by
    conv_rhs => rw [← List.map_id (List.range m)]
    refine List.map_congr_left fun k hk => ?_
    have := List.mem_range.mp hk
    rw [← Nat.add_assoc, Nat.add_sub_cancel' ha, Nat.add_mod_left, Nat.mod_eq_of_lt (by omega)]
    rfl
  rw [← indices_of_le (show a + (S - a) ≤ S by omega), hm, Nat.add_sub_cancel_left, indices, indices,
    hsplit, List.range_add, List.map_append, List.map_map]
  exact congrArg _ hrest

/-- Two positions at most a lap apart: their indices, with or without the end of the ring between
them. -/
theorem mod_cases {a b : ℕ} (hS : 0 < S) (hab : a ≤ b) (h : b - a ≤ S) :
    b % S = a % S + (b - a) ∨ S + b % S = a % S + (b - a) := by
  by_cases hc : a % S + (b - a) < S
  · have := add_mod_of_lt hc
    rw [Nat.add_sub_cancel' hab] at this
    exact Or.inl this
  · have := add_mod_of_le (a := a) h hS (by omega)
    rw [Nat.add_sub_cancel' hab] at this
    exact Or.inr (by omega)

/-! ### A block read or written at one go -/

theorem Holds.slice_eq (h : Holds S m stream t) {p n : ℕ} (hp : t ≤ p) (hn : p + n ≤ stream.length)
    (hfit : p % S + n ≤ S) : slice m (p % S) n = (stream.drop p).take n := by
  refine (slice_eq_iff (by simp; omega)).mpr fun i hi => ?_
  have hin : i < n := by simp at hi; omega
  rw [List.getElem_take, List.getElem_drop, ← h (p + i) (by omega) (by omega),
    add_mod_of_lt (by omega)]

/-- A copy to the index of the stream's end leaves the positions less than a lap back alone. -/
theorem memcpy_old {r : List α} (hroom : stream.length - t + r.length ≤ S) {p : ℕ} (hp : t ≤ p)
    (hlt : p < stream.length) : memcpy m (stream.length % S) r (p % S) = m (p % S) := by
  have hS : 0 < S := by omega
  refine memcpy_outside _ _ _ ?_
  by_contra hc
  have hin := Nat.mod_lt p hS
  refine mod_ne (S := S) (a := p) (b := stream.length + (p % S - stream.length % S)) (by omega)
    (by omega) ?_
  rw [add_mod_of_lt (by omega)]; omega

/-- **A record**: the ring still holds the stream if, and only if, what the block has behind the
end of the ring is what the ring has at its start. -/
theorem holds_append (h : Holds S m stream t) {r : List α} (ht : t ≤ stream.length)
    (hroom : stream.length - t + r.length ≤ S) :
    Holds S (memcpy m (stream.length % S) r) (stream ++ r) t ↔
      ∀ k, ∀ hk : k < r.length, S ≤ stream.length % S + k → m (stream.length % S + k - S) = r[k] := by
  rcases Nat.eq_zero_or_pos r.length with h0 | hpos
  · obtain rfl := List.eq_nil_of_length_eq_zero h0
    simpa using h
  have hS : 0 < S := by omega
  have ho := Nat.mod_lt stream.length hS
  constructor
  · intro hh k hk hSk
    have hp := hh (stream.length + k) (by omega) (by simp; omega)
    rw [List.getElem_append_right (by omega), add_mod_of_le (by omega) hS hSk,
      memcpy_outside _ _ _ (by omega)] at hp
    simpa using hp
  · intro hw p hp hlt
    by_cases hold : p < stream.length
    · rw [memcpy_old hroom hp hold, List.getElem_append_left hold]
      exact h p hp hold
    · obtain ⟨k, rfl⟩ : ∃ k, p = stream.length + k := ⟨p - stream.length, by omega⟩
      have hk : k < r.length := by simp at hlt; omega
      rw [List.getElem_append_right (by omega)]
      simp only [Nat.add_sub_cancel_left]
      rcases Nat.lt_or_ge (stream.length % S + k) S with hlt | hge
      · rw [add_mod_of_lt hlt, memcpy_inside _ _ _ hk]
      · rw [add_mod_of_le (by omega) hS hge, memcpy_outside _ _ _ (by omega)]
        exact hw k hk hge

theorem Holds.append (h : Holds S m stream t) {r : List α} (ht : t ≤ stream.length)
    (hroom : stream.length - t + r.length ≤ S) (hfit : stream.length % S + r.length ≤ S) :
    Holds S (memcpy m (stream.length % S) r) (stream ++ r) t :=
  (holds_append h ht hroom).mpr fun k hk hSk => by omega

/-! ### Reading across the end -/

/-- The `n` cells at the positions from `t` on. -/
def read (S : ℕ) (m : ℕ → α) (t n : ℕ) : List α := (List.range n).map fun k => m ((t + k) % S)

@[simp] theorem length_read (S : ℕ) (m : ℕ → α) (t n : ℕ) : (read S m t n).length = n := by
  simp [read]

theorem read_congr {t' n : ℕ} (h : t % S = t' % S) : read S m t n = read S m t' n :=
  List.map_congr_left fun k _ => by rw [Nat.add_mod, h, ← Nat.add_mod]

theorem read_add (a b : ℕ) : read S m t (a + b) = read S m t a ++ read S m (t + a) b := by
  simp only [read, List.range_add, List.map_append, List.map_map, Function.comp_def, Nat.add_assoc]

theorem read_of_le {n : ℕ} (h : t % S + n ≤ S) : read S m t n = slice m (t % S) n :=
  List.map_congr_left fun k hk => by
    have := List.mem_range.mp hk
    rw [add_mod_of_lt (by omega)]

theorem read_of_wrap (hS : 0 < S) {f : ℕ} (hf : f ≤ t % S) :
    read S m t (S + f - t % S) = slice m (t % S) (S - t % S) ++ slice m 0 f := by
  have ht := Nat.mod_lt t hS
  have hback : (t + (S - t % S)) % S = 0 := by
    rw [add_mod_of_le (by omega) hS (by omega)]
    omega
  rw [show S + f - t % S = S - t % S + f by omega, read_add, read_of_le (by omega),
    read_of_le (t := t + (S - t % S)) (by omega), hback]

end HardLog.Lib.Ring
