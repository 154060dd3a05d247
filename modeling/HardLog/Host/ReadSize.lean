import HardLog.Host.ReadResponse

/-! # READRESPONSE for any size

The size of a response comes from the user, and the buffer for it is 4096 bytes longer, modulo
`2 ^ 64`. `bio_read_response_file` stores sectors until they cover the size, or until the LUN has no
more (`stored_bioReadResponseFile`). `safeSize_iff`: the buffer is long enough for what is stored and
copied exactly for the sizes up to `2 ^ 64 - 4096`; the last of these asks `vmalloc` for nothing and
is refused. -/

namespace HardLog.Host.ReadSize

open HardLog.Lib.Memory HardLog.Host.ReadResponse

/-- What the kernel does for READRESPONSE: whether `copy_from_user` gets the request, the memory that
`vmalloc` returns, and how many bytes `copy_to_user` does not copy. -/
structure Kernel where
  copyFromUser : Bool
  vmalloc : ℕ → Option (ℕ → UInt8)
  vmalloc_zero : vmalloc 0 = none
  copyToUser : ℕ → ℕ
  copyToUser_le : ∀ n, copyToUser n ≤ n

/-- READRESPONSE in `hardlog_ioctl`: what it returns, and what it does with its buffer unless it fails
before it reads. -/
def hardlogIoctl (k : Kernel) (l : Lun) (size : UInt64) : ℤ × Option Reply :=
  if k.copyFromUser then
    match k.vmalloc (size + 4096).toNat with
    | none => (-1, none)
    | some responseBuffer =>
      let reply := readResponse l size responseBuffer
      let uncopied := k.copyToUser size.toNat
      (if uncopied = 0 then 0 else -1,
        some { reply with user := reply.user.take (size.toNat - uncopied) })
  else (-1, none)

/-- The number of bytes stored. -/
def written (stored : List (ℕ × ℕ)) : ℕ := (stored.map fun p => p.2 - p.1).sum

/-- The ioctl fails without reading, or its buffer is as long as what is stored to it and what is
copied from it. -/
def Safe (r : ℤ × Option Reply) : Prop :=
  (r.2 = none → r.1 < 0) ∧ ∀ reply, r.2 = some reply →
    written reply.stored ≤ reply.allocated ∧ reply.user.length ≤ reply.allocated

/-- A size for which READRESPONSE is safe, whatever the kernel does and whatever the LUN holds. -/
def SafeSize (size : UInt64) : Prop := ∀ k l, Safe (hardlogIoctl k l size)

/-! ### What the loop stores -/

/-- The ranges of the first `m` sectors, the last one in front. -/
def sectorRanges (m : ℕ) : List (ℕ × ℕ) :=
  ((List.range m).map fun j => (512 * j, 512 * j + 512)).reverse

/-- The sectors that cover `n` bytes; one is read in any case. -/
def sectorCount (n : ℕ) : ℕ := max 1 ((n + 511) / 512)

theorem sectorRanges_succ (m : ℕ) :
    sectorRanges (m + 1) = (512 * m, 512 * m + 512) :: sectorRanges m := by
  simp [sectorRanges, List.range_succ]

theorem written_sectorRanges (m : ℕ) : written (sectorRanges m) = 512 * m := by
  induction m with
  | zero => rfl
  | succ m ih =>
    rw [sectorRanges_succ, written, List.map_cons, List.sum_cons, ← written, ih]
    omega

theorem sectorCount_succ {n : ℕ} (h : 512 < n) : sectorCount n = sectorCount (n - 512) + 1 := by
  unfold sectorCount
  omega

theorem sectorCount_of_le {n : ℕ} (h : n ≤ 512) : sectorCount n = 1 := by
  unfold sectorCount
  omega

/-- **The loop**, when `j` sectors have been read, stores those that cover what remains, as long as
the LUN has them. -/
theorem stored_bioReadLoop (l : Lun) {j : ℕ} {v : Vars} (hj : j ≤ l.numSectors)
    (hread : v.read = 512 * j) (hsector : v.brspdeviceSector = j)
    (hstored : v.stored = sectorRanges j) :
    (bioReadLoop l v).stored = sectorRanges (min l.numSectors (j + sectorCount v.size)) := by
  induction hr : v.size using Nat.strong_induction_on generalizing j v with
  | _ r ih =>
    subst hr
    have hpos : 1 ≤ sectorCount v.size := Nat.le_max_left _ _
    rw [bioReadLoop, hsector, Lun.sector]
    by_cases hlt : j < l.numSectors
    swap
    · -- the LUN has no more sectors, and the submit fails
      rw [if_neg hlt, Nat.min_eq_left (by omega), hstored, show j = l.numSectors by omega]
    rw [if_pos hlt]
    obtain ⟨v', hv'⟩ : ∃ v', v' = v.advance ((l.file.drop (512 * j)).take 512) := ⟨_, rfl⟩
    have hadvance : v'.stored = sectorRanges (j + 1) := by
      simp only [hv', Vars.advance, target_eq, hread, length_sector hlt, hstored, sectorRanges_succ]
    simp only [← hv']
    by_cases hlast : v.size ≤ 512
    · rw [if_pos hlast, hadvance, sectorCount_of_le hlast, Nat.min_eq_right hlt]
    · have hread' : v'.read = 512 * (j + 1) := by
        simp only [hv', Vars.advance, hread, Nat.mul_add, Nat.mul_one]
      have hsector' : v'.brspdeviceSector = j + 1 := by simp only [hv', Vars.advance, hsector]
      have hrest := ih (v.size - 512) (by omega) (j := j + 1)
        (v := { v' with size := v.size - 512 }) hlt hread' hsector' hadvance rfl
      have hcount : j + 1 + sectorCount (v.size - 512) = j + sectorCount v.size := by
        have := sectorCount_succ (n := v.size) (by omega)
        omega
      rw [if_neg hlast, hrest, hcount]

/-- **`bio_read_response_file`** stores the sectors that cover the size, as long as the LUN has
them. -/
theorem stored_bioReadResponseFile (l : Lun) (data : ℕ → UInt8) (size : UInt64) :
    (bioReadResponseFile l data size).stored =
      sectorRanges (min l.numSectors (sectorCount size.toNat)) := by
  rw [bioReadResponseFile, stored_bioReadLoop l (Nat.zero_le _) rfl rfl rfl, Nat.zero_add]

/-! ### The size -/

theorem safe_failed : Safe (-1, none) :=
  ⟨fun _ => by decide, fun _ h => absurd h.symm (Option.some_ne_none _)⟩

/-- **The last sizes**: where memory is found for the buffer, it is shorter than a page, and eight
sectors are stored to it. -/
theorem overruns (k : Kernel) (l : Lun) {size : UInt64} (hcopy : k.copyFromUser = true)
    (halloc : (k.vmalloc (size + 4096).toNat).isSome = true) (hl : 8 ≤ l.numSectors)
    (hsize : 2 ^ 64 - 4096 < size.toNat) : ¬ Safe (hardlogIoctl k l size) := by
  obtain ⟨responseBuffer, hbuf⟩ := Option.isSome_iff_exists.mp halloc
  rintro ⟨-, h⟩
  have hwritten := (h _ (by rw [hardlogIoctl, if_pos hcopy, hbuf])).1
  simp only [readResponse, stored_bioReadResponseFile, written_sectorRanges] at hwritten
  have hlt := size.toNat_lt
  have hadd : (size + 4096).toNat = (size.toNat + 4096) % 2 ^ 64 := UInt64.toNat_add _ _
  have hcount : 8 ≤ sectorCount size.toNat := by
    unfold sectorCount
    omega
  have h8 : 8 ≤ min l.numSectors (sectorCount size.toNat) := Nat.le_min.mpr ⟨hl, hcount⟩
  omega

/-- A kernel with memory for any buffer but the empty one, and a user address to which not so many
bytes can be copied. -/
def spacious : Kernel where
  copyFromUser := true
  vmalloc n := if n = 0 then none else some fun _ => 0
  vmalloc_zero := rfl
  copyToUser n := n
  copyToUser_le n := Nat.le_refl n

/-- A LUN of a page. -/
def pageLun : Lun where
  file := List.replicate 4096 0
  numSectors := 8
  le_length := by rw [List.length_replicate]
  lt := by decide

/-- **The size**: READRESPONSE is safe exactly if 4096 bytes more than the size are no more than
`2 ^ 64`. -/
theorem safeSize_iff (size : UInt64) : SafeSize size ↔ size.toNat ≤ 2 ^ 64 - 4096 := by
  have hlt := size.toNat_lt
  have hadd : (size + 4096).toNat = (size.toNat + 4096) % 2 ^ 64 := UInt64.toNat_add _ _
  constructor
  · intro h
    by_contra hsize
    have hbuf : (spacious.vmalloc (size + 4096).toNat).isSome = true := by
      simp only [spacious]
      rw [if_neg (by omega)]
      rfl
    exact overruns spacious pageLun rfl hbuf (Nat.le_refl 8) (by omega) (h spacious pageLun)
  · intro hsize k l
    unfold hardlogIoctl
    by_cases hcopy : k.copyFromUser = true
    swap
    · rw [if_neg hcopy]
      exact safe_failed
    rw [if_pos hcopy]
    rcases hbuf : k.vmalloc (size + 4096).toNat with _ | responseBuffer
    · exact safe_failed
    -- the sum has not wrapped, since `vmalloc` refuses an empty buffer
    have hne : (size + 4096).toNat ≠ 0 := by
      intro h0
      rw [h0, k.vmalloc_zero] at hbuf
      cases hbuf
    have hmin := Nat.min_le_right l.numSectors (sectorCount size.toNat)
    refine ⟨fun h => absurd h (Option.some_ne_none _), fun reply h => ?_⟩
    obtain rfl := Option.some.inj h
    simp only [readResponse, stored_bioReadResponseFile, written_sectorRanges, List.length_take,
      length_slice]
    unfold sectorCount at hmin ⊢
    omega

/-- The largest size: the buffer has 4095 bytes, and 4096 are stored to it. -/
theorem size_max_overruns :
    ¬ Safe (hardlogIoctl spacious pageLun 18446744073709551615) ∧
      (readResponse pageLun 18446744073709551615 fun _ => 0).allocated = 4095 := by
  exact ⟨overruns spacious pageLun rfl rfl (Nat.le_refl 8) (by decide), rfl⟩

end HardLog.Host.ReadSize
