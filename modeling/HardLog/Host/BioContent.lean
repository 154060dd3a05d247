import HardLog.Host.BioFs

/-! # What a flush puts on the device

The full pages of `bio_write` are the pages of memory that the addresses lie in, so the bytes in
front of the address go along and as many at the end do not. The last page is copied from its
address on, and may take its bytes from behind the ring. `losesNothing_iff` says for which ranges
the device gets the bytes of the ring all the same. -/

namespace HardLog.Host.BioContent

open HardLog.Lib.Memory HardLog.Lib.Ring HardLog.Host.Ring HardLog.Host.BioFs

/-- The `n` bytes of the ring at the positions from `start` on. -/
def ringBytes (buffer : ℕ → UInt8) (start n : ℕ) : List UInt8 :=
  (List.range n).map fun k => buffer ((start + k) % hardlogAuditCbuffsize)

/-- The pages submitted go to increasing sectors, and their bytes begin with those of the ring. -/
def Delivers (buffer : ℕ → UInt8) (start n : ℕ) (submits : List Submit) : Prop :=
  (allPages submits).Pairwise (fun a b => a.1 < b.1) ∧
    ((allPages submits).map fun p => p.2).flatten.take n = ringBytes buffer start n

/-- **Losing nothing**: whatever the ring holds, a call whose submits all succeed delivers it. -/
def LosesNothing (d : Statics) (fin start : UInt64) : Prop :=
  ∀ ret buffer, (∀ k, 0 ≤ ret k) →
    Delivers buffer start.toNat (fin - start).toNat (bioWrite ret buffer d fin start).submits

/-- The index that byte `k` of the pages comes from. -/
def sentIndex (start n k : ℕ) : ℕ :=
  let cbuffIndex := (start + pageSize * (k / pageSize)) % hardlogAuditCbuffsize
  if pageSize ≤ n - pageSize * (k / pageSize) then
    cbuffIndex / pageSize * pageSize + k % pageSize
  else cbuffIndex + k % pageSize

/-! ### The bytes of the pages -/

@[simp] theorem length_pageAt (buffer tmpbuf : ℕ → UInt8) (start n i : ℕ) :
    (pageAt buffer tmpbuf start n i).length = pageSize := by
  unfold pageAt vmallocToPage
  by_cases h : pageSize ≤ n - pageSize * i
  · simp [h]
  · simp [h]

theorem getElem_pageAt (buffer tmpbuf : ℕ → UInt8) {start n k : ℕ} (hk : k < n)
    (hk' : k % pageSize < (pageAt buffer tmpbuf start n (k / pageSize)).length) :
    (pageAt buffer tmpbuf start n (k / pageSize))[k % pageSize] =
      buffer (sentIndex start n k) := by
  have hdiv := Nat.div_add_mod k pageSize
  simp only [pageAt, sentIndex, vmallocToPage]
  by_cases h : pageSize ≤ n - pageSize * (k / pageSize)
  · simp only [if_pos h, getElem_slice]
  · simp only [if_neg h, getElem_slice]
    rw [show 0 / pageSize * pageSize = 0 from rfl]
    rw [memcpy_inside _ 0 _ (by rw [length_slice]; omega), getElem_slice]

/-- A finished call delivers the range exactly if each byte comes from where it should, or from
where the ring holds the same. -/
theorem delivers_iff {buffer : ℕ → UInt8} {d st : Statics} {start n : ℕ} {submits : List Submit}
    (h : Done buffer d start n st submits) :
    Delivers buffer start n submits ↔
      ∀ k < n, buffer (sentIndex start n k) = buffer ((start + k) % hardlogAuditCbuffsize) := by
  have horder : (allPages submits).Pairwise (fun a b => a.1 < b.1) := by
    rw [h.pages, firstPages, List.pairwise_map]
    refine List.pairwise_lt_range.imp fun hab => ?_
    simp only [sectorsPerPage, pageSize]
    omega
  have hbytes : ((allPages submits).map fun p => p.2) =
      (List.range (pageCount n)).map (pageAt buffer d.tmpbuf start n) := by
    rw [h.pages, firstPages, List.map_map]
    rfl
  have hlen := length_flatten_pages (length_pageAt buffer d.tmpbuf start n) (pageCount n)
  have hn : n ≤ pageSize * pageCount n := by
    unfold pageCount pageSize
    omega
  unfold Delivers
  rw [hbytes, and_iff_right horder]
  constructor
  · intro heq k hk
    have hget := congrArg (fun l => l[k]?) heq
    simp only [ringBytes, List.getElem?_take, if_pos hk, List.getElem?_map,
      List.getElem?_range hk, Option.map_some] at hget
    rw [List.getElem?_eq_getElem (by omega), Option.some.injEq,
      getElem_flatten_pages (length_pageAt _ _ _ _) (by omega)
        (by rw [length_pageAt]; exact Nat.mod_lt k (by decide)),
      getElem_pageAt _ _ hk] at hget
    exact hget
  · intro hall
    refine List.ext_getElem (by simp [ringBytes, hlen]; omega) fun k h1 h2 => ?_
    have hk : k < n := by
      rw [List.length_take] at h1
      omega
    rw [List.getElem_take, getElem_flatten_pages (length_pageAt _ _ _ _) (by omega)
      (by rw [length_pageAt]; exact Nat.mod_lt k (by decide)), getElem_pageAt _ _ hk, hall k hk]
    simp [ringBytes]

/-! ### Where the bytes come from -/

theorem pageSize_dvd_cbuffsize : pageSize ∣ hardlogAuditCbuffsize := ⟨256, rfl⟩

theorem mod_page (start i : ℕ) :
    (start + pageSize * i) % hardlogAuditCbuffsize % pageSize = start % pageSize := by
  rw [Nat.mod_mod_of_dvd _ pageSize_dvd_cbuffsize, Nat.add_mul_mod_self_left]

theorem index_add_pageSize_le {x : ℕ} (hx : x < hardlogAuditCbuffsize) (h : x % pageSize = 0) :
    x + pageSize ≤ hardlogAuditCbuffsize := by
  unfold hardlogAuditCbuffsize pageSize at *
  omega

/-- **The sources**: every byte comes from where it should exactly if the range starts at a page,
or is less than a page and ends before the end of the ring. -/
theorem sentIndex_eq_iff {start n : ℕ} (hn : 0 < n) :
    (∀ k < n, sentIndex start n k = (start + k) % hardlogAuditCbuffsize) ↔
      pageSize ∣ start ∨ (n < pageSize ∧ start % hardlogAuditCbuffsize + n ≤ hardlogAuditCbuffsize) := by
  have hS := hardlogAuditCbuffsize_pos
  have hP := pageSize_pos
  constructor
  · intro h
    by_cases hlt : n < pageSize
    · have hlast := h (n - 1) (by omega)
      have hbound := Nat.mod_lt (start + (n - 1)) hS
      simp only [sentIndex, Nat.div_eq_of_lt (show n - 1 < pageSize by omega),
        Nat.mod_eq_of_lt (show n - 1 < pageSize by omega), Nat.mul_zero, Nat.add_zero,
        Nat.sub_zero, if_neg (show ¬ pageSize ≤ n by omega)] at hlast
      exact Or.inr ⟨hlt, by omega⟩
    · left
      have h0 := h 0 hn
      simp only [sentIndex, Nat.zero_div, Nat.zero_mod, Nat.mul_zero, Nat.add_zero, Nat.sub_zero,
        if_pos (show pageSize ≤ n by omega)] at h0
      have hm := Nat.mod_mod_of_dvd start pageSize_dvd_cbuffsize
      rw [← h0, Nat.mul_mod_left] at hm
      exact Nat.dvd_of_mod_eq_zero hm.symm
  · rintro (hd | ⟨hlt, hfit⟩) k hk
    · have hx := Nat.mod_lt (start + pageSize * (k / pageSize)) hS
      have hm := mod_page start (k / pageSize)
      rw [Nat.mod_eq_zero_of_dvd hd] at hm
      have hle := index_add_pageSize_le hx hm
      have hr := Nat.mod_lt k hP
      have hdiv := Nat.div_add_mod k pageSize
      have hexact := Nat.div_mul_cancel (Nat.dvd_of_mod_eq_zero hm)
      have hmod := add_mod_of_lt (S := hardlogAuditCbuffsize)
        (a := start + pageSize * (k / pageSize)) (k := k % pageSize) (by omega)
      rw [Nat.add_assoc, hdiv] at hmod
      unfold sentIndex
      simp only [hexact, ite_self]
      exact hmod.symm
    · simp only [sentIndex, Nat.div_eq_of_lt (show k < pageSize by omega),
        Nat.mod_eq_of_lt (show k < pageSize by omega), Nat.mul_zero, Nat.add_zero, Nat.sub_zero,
        if_neg (show ¬ pageSize ≤ n by omega)]
      exact (add_mod_of_lt (by omega)).symm

/-! ### Any range -/

theorem done_of_succeeds (ret : ℕ → ℤ) (hret : ∀ k, 0 ≤ ret k) (buffer : ℕ → UInt8) (d : Statics)
    {fin start : UInt64} (hn : 0 < (fin - start).toNat) :
    Done buffer d start.toNat (fin - start).toNat (bioWrite ret buffer d fin start).statics
      (bioWrite ret buffer d fin start).submits := by
  rcases bioWrite_spec ret buffer d _ _ hn with hdone | ⟨j, hfail⟩
  · exact hdone
  · obtain ⟨_, _, k, _, _, hneg, _⟩ := hfail.last
    exact absurd (hret k) (by omega)

/-- **A flush of any range**: the device gets the bytes of the ring, whatever they are, exactly if
the range starts at a page, or is less than a page and ends before the end of the ring. -/
theorem losesNothing_iff (d : Statics) {fin start : UInt64} (h : start < fin) :
    LosesNothing d fin start ↔
      pageSize ∣ start.toNat ∨ ((fin - start).toNat < pageSize ∧
        start.toNat % hardlogAuditCbuffsize + (fin - start).toNat ≤ hardlogAuditCbuffsize) := by
  have hn : 0 < (fin - start).toNat := by
    rw [UInt64.toNat_sub_of_le _ _ (UInt64.le_of_lt h)]
    exact Nat.sub_pos_of_lt (UInt64.lt_iff_toNat_lt.mp h)
  rw [← sentIndex_eq_iff hn]
  constructor
  · intro hl k hk
    have hret : ∀ k : ℕ, (0 : ℤ) ≤ (fun _ => 0 : ℕ → ℤ) k := fun _ => Int.le_refl 0
    have hd := (delivers_iff (done_of_succeeds _ hret _ d hn)).mp
      (hl _ (fun i => if i = (start.toNat + k) % hardlogAuditCbuffsize then 1 else 0) hret) k hk
    by_contra hne
    simp [hne] at hd
  · intro hall ret buffer hret
    exact (delivers_iff (done_of_succeeds _ hret buffer d hn)).mpr fun k hk => by rw [hall k hk]

/-- A range from a page on is delivered, a page's length from byte 100 on is not. -/
theorem losesNothing_5000_4196 :
    LosesNothing ⟨1, fun _ => 0⟩ 5000 4096 ∧ ¬ LosesNothing ⟨1, fun _ => 0⟩ 4196 100 :=
  ⟨(losesNothing_iff _ (by decide)).mpr (by decide),
    fun h => absurd ((losesNothing_iff _ (by decide)).mp h) (by decide)⟩

/-- Behind a record of 100 bytes that is already flushed, 4096 bytes are to go: the record is sent
again in front of them, and their last 100 bytes are not sent. -/
theorem bio_write_4196_100_not_delivers :
    ¬ Delivers (fun i => if i < 100 then 66 else 65) 100 4096
      (bioWrite (fun _ => 0) (fun i => if i < 100 then 66 else 65) ⟨1, fun _ => 0⟩ 4196
        100).submits := by
  intro h
  have hdone := done_of_succeeds (fun _ => 0) (fun _ => Int.le_refl 0)
    (fun i => if i < 100 then 66 else 65) ⟨1, fun _ => 0⟩
    (show 0 < ((4196 : UInt64) - 100).toNat by decide)
  have h0 := (delivers_iff hdone).mp h 0 (by decide)
  exact absurd h0 (by decide)

end HardLog.Host.BioContent
