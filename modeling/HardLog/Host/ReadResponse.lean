import HardLog.Device.Response
import HardLog.Host.Mailbox
import HardLog.Lib.Memory

/-! # Reading a response

The device copies a response to the response file in blocks of 128 KB, the last of which carries
stale bytes; READRESPONSE reads sectors of 512 bytes until the size it was given is covered, and
hands that many bytes to the library. `readResponse_delivers` says that they are the response, and
that the last sector ends within the 4096 bytes by which the buffer is longer. -/

namespace HardLog.Host.ReadResponse

open HardLog.Lib.Memory HardLog.Device.Response HardLog.Host.Mailbox

/-- The response LUN with the response file behind it. Its length is a `loff_t`. -/
structure Lun where
  file : List UInt8
  numSectors : ℕ
  le_length : 512 * numSectors ≤ file.length
  lt : 512 * numSectors < 2 ^ 63

/-- A sector of the LUN; a read behind the last one fails. -/
def Lun.sector (l : Lun) (k : ℕ) : Option (List UInt8) :=
  if k < l.numSectors then some ((l.file.drop (512 * k)).take 512) else none

/-- The variables of `bio_read_response_file`, and the ranges of `data` it has stored to. -/
structure Vars where
  data : ℕ → UInt8
  size : ℕ
  read : ℕ
  brspdeviceSector : ℕ
  stored : List (ℕ × ℕ)

/-- What a call leaves behind. -/
structure Result where
  ret : ℤ
  data : ℕ → UInt8
  stored : List (ℕ × ℕ)

/-- Where a sector is stored: the page of `data + read`, and in it the offset. `data` is aligned to a
page. -/
def target (read : ℕ) : ℕ := read / 4096 * 4096 + read % 4096

/-- The variables after a sector was read. -/
def Vars.advance (v : Vars) (bytes : List UInt8) : Vars :=
  { v with
    data := memcpy v.data (target v.read) bytes
    read := v.read + 512
    brspdeviceSector := v.brspdeviceSector + 1
    stored := (target v.read, target v.read + bytes.length) :: v.stored }

/-- The loop; a failed `submit_bio_wait` ends the function. -/
def bioReadLoop (l : Lun) (v : Vars) : Result :=
  match l.sector v.brspdeviceSector with
  | none => ⟨-1, v.data, v.stored⟩
  | some bytes =>
    let v' := v.advance bytes
    if v.size ≤ 512 then ⟨0, v'.data, v'.stored⟩
    else bioReadLoop l { v' with size := v.size - 512 }
termination_by v.size
decreasing_by omega

/-- `bio_read_response_file`. -/
def bioReadResponseFile (l : Lun) (data : ℕ → UInt8) (size : UInt64) : Result :=
  bioReadLoop l ⟨data, size.toNat, 0, 0, []⟩

/-- What READRESPONSE does: the length of the buffer it allocates, the ranges of it that are stored
to, and the bytes it copies to the user. -/
structure Reply where
  allocated : ℕ
  stored : List (ℕ × ℕ)
  user : List UInt8

/-- READRESPONSE, with the memory that `vmalloc` returned. The result of the reading is not looked
at. -/
def readResponse (l : Lun) (size : UInt64) (responseBuffer : ℕ → UInt8) : Reply :=
  let r := bioReadResponseFile l responseBuffer size
  ⟨(size + 4096).toNat, r.stored, slice r.data 0 size.toNat⟩

/-- The LUN after `commit_response`. -/
def Lun.commitResponse (l : Lun) (env : Env) (tmpRespFile : Option (List UInt8)) : Lun where
  file := (HardLog.Device.Response.commitResponse env tmpRespFile l.file).2
  numSectors := l.numSectors
  le_length := by
    refine l.le_length.trans ?_
    unfold HardLog.Device.Response.commitResponse
    cases tmpRespFile with
    | none => exact Nat.le_refl _
    | some f =>
      simp only
      split_ifs
      · exact le_length_writeFront _ _
      · exact Nat.le_refl _
  lt := l.lt

/-! ### The loop -/

@[simp] theorem target_eq (read : ℕ) : target read = read := Nat.div_add_mod' read 4096

/-- At the head of the loop `j` sectors have been read, and there is more to read or nothing was read
yet. -/
structure AtHead (l : Lun) (n j : ℕ) (v : Vars) : Prop where
  data : slice v.data 0 (512 * j) = l.file.take (512 * j)
  size : v.size + 512 * j = n
  more : j = 0 ∨ 0 < v.size
  read : v.read = 512 * j
  sector : v.brspdeviceSector = j
  stored : ∀ p ∈ v.stored, p.2 ≤ n + 512

/-- What the loop leaves: the bytes asked for, in a buffer stored to in front of its end only. -/
structure Done (l : Lun) (n : ℕ) (r : Result) : Prop where
  data : slice r.data 0 n = l.file.take n
  stored : ∀ p ∈ r.stored, p.2 ≤ n + 4096

variable {l : Lun} {n j : ℕ} {v : Vars}

theorem length_sector {k : ℕ} (hk : k < l.numSectors) :
    ((l.file.drop (512 * k)).take 512).length = 512 := by
  have := l.le_length
  simp only [List.length_take, List.length_drop]
  omega

theorem AtHead.advance (h : AtHead l n j v) (hj : j < l.numSectors) :
    let v' := v.advance ((l.file.drop (512 * j)).take 512)
    slice v'.data 0 (512 * (j + 1)) = l.file.take (512 * (j + 1)) ∧
      ∀ p ∈ v'.stored, p.2 ≤ n + 512 := by
  have hlen := length_sector hj
  have hsize := h.size
  constructor
  · have happ := slice_memcpy_append v.data 0 (512 * j) ((l.file.drop (512 * j)).take 512)
    rw [hlen, h.data, Nat.zero_add] at happ
    simp only [Vars.advance, target_eq, h.read, Nat.mul_add, Nat.mul_one]
    rw [happ, ← List.take_add]
  · intro p hp
    simp only [Vars.advance, target_eq, h.read, hlen, List.mem_cons] at hp
    rcases hp with rfl | hp
    · have := h.more
      simp only
      omega
    · exact h.stored p hp

theorem AtHead.loop (h : AtHead l n j v) (hfit : n ≤ 512 * l.numSectors) :
    Done l n (bioReadLoop l v) := by
  induction hr : v.size using Nat.strong_induction_on generalizing j v with
  | _ r ih =>
    have hsize := h.size
    rw [bioReadLoop, h.sector, Lun.sector]
    by_cases hj : j < l.numSectors
    swap
    · -- only a LUN without sectors, and nothing to read
      have hn : n = 0 := by
        have := h.more
        omega
      rw [if_neg hj]
      refine ⟨by rw [hn]; rfl, fun p hp => ?_⟩
      have := h.stored p hp
      omega
    obtain ⟨hdata, hstored⟩ := h.advance hj
    rw [if_pos hj]
    simp only
    by_cases hlast : v.size ≤ 512
    · rw [if_pos hlast]
      refine ⟨?_, fun p hp => ?_⟩
      · have htake := congrArg (List.take n) hdata
        rwa [take_slice, List.take_take, Nat.min_eq_left (by omega)] at htake
      · have := hstored p hp
        omega
    · rw [if_neg hlast]
      exact ih (v.size - 512) (by omega) (j := j + 1)
        ⟨hdata, by simp only; omega, Or.inr (by simp only; omega),
          by simp only [Vars.advance, h.read]; omega, by simp only [Vars.advance, h.sector], hstored⟩
        rfl

/-- **Round trip**: when `commit_response` has returned the length of a response that fits the LUN,
READRESPONSE with that size delivers the response, and stores nothing behind the buffer. -/
theorem readResponse_delivers (env : Env) (l : Lun) (tmpResp : List UInt8)
    (responseBuffer : ℕ → UInt8) (hfit : tmpResp.length ≤ 512 * l.numSectors)
    (hret : (commitResponse env (some tmpResp) l.file).1 = tmpResp.length) :
    let r := readResponse (l.commitResponse env (some tmpResp)) (UInt64.ofNat tmpResp.length)
      responseBuffer
    r.user = tmpResp ∧ r.allocated = tmpResp.length + 4096 ∧ ∀ p ∈ r.stored, p.2 ≤ r.allocated := by
  have hlt := l.lt
  have hn : (UInt64.ofNat tmpResp.length).toNat = tmpResp.length := by
    rw [UInt64.toNat_ofNat', Nat.mod_eq_of_lt (by omega)]
  have halloc : (UInt64.ofNat tmpResp.length + 4096).toNat = tmpResp.length + 4096 := by
    rw [UInt64.toNat_add, hn]
    exact Nat.mod_eq_of_lt (show tmpResp.length + 4096 < 2 ^ 64 by omega)
  have hhead : AtHead (l.commitResponse env (some tmpResp)) tmpResp.length 0
      ⟨responseBuffer, tmpResp.length, 0, 0, []⟩ :=
    ⟨rfl, rfl, Or.inl rfl, rfl, rfl, fun p hp => (List.not_mem_nil hp).elim⟩
  have hdone := hhead.loop hfit
  have hfile : (l.commitResponse env (some tmpResp)).file.take tmpResp.length = tmpResp := by
    rcases Nat.eq_zero_or_pos tmpResp.length with h0 | hpos
    · rw [h0, List.eq_nil_of_length_eq_zero h0, List.take_zero]
    · have hne : (commitResponse env (some tmpResp) l.file).1 ≠ 0 := by omega
      obtain ⟨f, hf, -, htake⟩ := commitResponse_delivers hne
      obtain rfl := Option.some.inj hf
      exact htake
  simp only [readResponse, bioReadResponseFile, hn, halloc]
  exact ⟨hdone.data.trans hfile, trivial, hdone.stored⟩

/-- A system in which the files can be opened. -/
def opening : Env := ⟨none, true, none, true, none, true, true, true, true⟩

/-- A response of three bytes over a LUN of one sector. -/
theorem readResponse_three_bytes :
    let l : Lun := ⟨List.replicate 512 7, 1, by rw [List.length_replicate], by decide⟩
    let r := readResponse (l.commitResponse opening (some [1, 2, 3])) 3 fun _ => 9
    r.user = [1, 2, 3] ∧ r.allocated = 4099 ∧ ∀ p ∈ r.stored, p.2 ≤ r.allocated :=
  readResponse_delivers opening ⟨List.replicate 512 7, 1, by rw [List.length_replicate], by decide⟩
    [1, 2, 3] (fun _ => 9) (by decide) rfl

end HardLog.Host.ReadResponse
