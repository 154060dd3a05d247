import HardLog.Host.Event
import HardLog.Lib.Runs

/-! # Bounds of the event buffer

What the building functions do to an event with `0 ≤ hardlog_event_consumed ≤ 511`
(`formatHardlog_spec`, `nStringHardlog_spec`, `nHexHardlog_spec`), and from it the exact condition
under which the invariant survives a call (`within_run_iff`): a format must not make the sum of what
is consumed and the untruncated length exceed `521`, and the two `size_t` comparisons must not
overflow. `recordBounds_iff` carries this through any sequence of calls and the final copy. -/

namespace HardLog.Host.EventBounds

open HardLog.Lib.CInt HardLog.Lib.Runs HardLog.Host.Event

/-- All accesses so far are inside the allocation. -/
def InBounds (b : EventBuffer) : Prop :=
  ∀ r ∈ b.accesses, ∀ i, r.1 ≤ i → i < r.2 → 0 ≤ i ∧ i < hardlogAuditEventsize

/-- What is asked after every building call. -/
def Within (ab : AuditBuffer) : Prop :=
  0 ≤ ab.hardlogEventConsumed ∧ ab.hardlogEventConsumed ≤ hardlogAuditBlocksize ∧
    ∀ b, ab.hardlogEventBuffer = some b → InBounds b

/-- What is asked of `audit_log_end_hardlog`: no access outside the allocation, and a copy of at
most `512` bytes that the event has all written itself. -/
def EndWithin (ab : AuditBuffer) : Prop :=
  (∀ b, ab.hardlogEventBuffer = some b → InBounds (b.load 0 (b.strlen + 1))) ∧
    (auditLogEndDrops ab = false →
      (auditLogEndNewline ab).recordLen ≤ hardlogAuditEventsize ∧
        ∀ b, (auditLogEndNewline ab).hardlogEventBuffer = some b →
          InBounds (b.load 0 (auditLogEndNewline ab).recordLen) ∧
            ∀ i : ℕ, i < (auditLogEndNewline ab).recordLen → b.written i = true)

/-- A building call as a step. -/
def buildStep (ab : AuditBuffer) (c : Call) : Option AuditBuffer := some (c.run ab)

/-- The bounds over a whole record: after every call, and at its end. -/
def RecordBounds (ab : AuditBuffer) (calls : List Call) : Prop :=
  Always buildStep Within ab calls ∧ EndWithin (calls.foldl Call.run ab)

/-! ### The condition -/

/-- A call that keeps the bounds. -/
def CallFits (ab : AuditBuffer) : Call → Prop
  | .format text =>
    ab.hardlogEventConsumed < hardlogAuditBlocksize →
      0 ≤ ab.hardlogEventConsumed + int32 text.length ∧
        ab.hardlogEventConsumed + int32 text.length ≤ hardlogAuditBlocksize + 10
  | .nString _ slen =>
    slen.toNat + 3 < 2 ^ 64 ∨
      hardlogAuditBlocksize - ab.hardlogEventConsumed < slen.toNat + 3 - 2 ^ 64
  | .nHex _ len =>
    len.toNat < 2 ^ 63 ∨ hardlogAuditBlocksize - ab.hardlogEventConsumed < 2 * len.toNat - 2 ^ 64

/-- An event whose end keeps the bounds: there is a NUL for `strlen` to find, and if the event is
logged with all `511` bytes consumed, a hex call has written the byte behind them. -/
def EndFits (ab : AuditBuffer) : Prop :=
  ∀ b, ab.hardlogEventBuffer = some b → (∃ i : ℕ, i < 512 ∧ b.byte i = 0) ∧
    (auditLogEndDrops ab = false → ab.hardlogEventConsumed = hardlogAuditBlocksize →
      b.written hardlogAuditBlocksize = true)

/-! ### Accesses -/

theorem inBounds_cons {b b' : EventBuffer} {lo hi : ℤ} (h : b'.accesses = (lo, hi) :: b.accesses) :
    InBounds b' ↔ (∀ i, lo ≤ i → i < hi → 0 ≤ i ∧ i < hardlogAuditEventsize) ∧ InBounds b := by
  simp [InBounds, h]

theorem inBounds_store {b : EventBuffer} (hb : InBounds b) {off : ℤ} {src : List UInt8}
    (h0 : 0 ≤ off) (h : off + src.length ≤ 512) : InBounds (b.store off src) := by
  refine (inBounds_cons (store_accesses b off src)).mpr ⟨fun i hi hi' => ?_, hb⟩
  unfold hardlogAuditEventsize
  omega

theorem not_inBounds_store {b : EventBuffer} {off : ℤ} {src : List UInt8} (h0 : off ≤ 512)
    (h : 512 < off + src.length) : ¬ InBounds (b.store off src) := by
  intro hb
  have := ((inBounds_cons (store_accesses b off src)).mp hb).1 512 h0 h
  unfold hardlogAuditEventsize at this
  omega

/-! ### The functions, on an event whose consumed count is in range -/

theorem space_eq {ab : AuditBuffer} (h0 : 0 ≤ ab.hardlogEventConsumed)
    (h : ab.hardlogEventConsumed < 2 ^ 31) : ab.space = 511 - ab.hardlogEventConsumed := by
  unfold AuditBuffer.space hardlogAuditBlocksize hardlogAuditEventsize
  rw [int32_eq] <;> omega

/-- An event with a buffer, and a consumed count in range. -/
structure InRange (ab : AuditBuffer) (b : EventBuffer) : Prop where
  buffer : ab.hardlogEventBuffer = some b
  nonneg : 0 ≤ ab.hardlogEventConsumed
  le : ab.hardlogEventConsumed ≤ 511

section Functions

variable {ab : AuditBuffer} {b : EventBuffer} (hI : InRange ab b)
include hI

theorem InRange.space_eq : ab.space = 511 - ab.hardlogEventConsumed := by
  have hle := hI.le
  exact EventBounds.space_eq hI.nonneg (by omega)

theorem InRange.u64_space : (u64 ab.space : ℤ) = 511 - ab.hardlogEventConsumed := by
  have h1 := hI.nonneg
  have h2 := hI.le
  rw [hI.space_eq, u64_of_nonneg] <;> omega

/-- The rendering as `vsnprintf` stores it: cut to the space left, with a NUL. -/
def stored (ab : AuditBuffer) (text : List UInt8) : List UInt8 :=
  text.take (510 - ab.hardlogEventConsumed).toNat ++ [0]

omit hI in
theorem length_stored (ab : AuditBuffer) (text : List UInt8) :
    (stored ab text).length = min (510 - ab.hardlogEventConsumed).toNat text.length + 1 := by
  simp [stored]

/-- **A format**: dropped if nothing is left, else what fits is stored, and the consumed count
grows by the untruncated length, less `10` if that did not fit. -/
theorem InRange.formatHardlog_spec (text : List UInt8) :
    auditLogFormatHardlog ab text =
      if ab.hardlogEventConsumed = 511 then ab
      else
        { ab with
          hardlogEventBuffer := some (b.store ab.hardlogEventConsumed (stored ab text))
          hardlogEventConsumed :=
            if int32 text.length < 511 - ab.hardlogEventConsumed then
              int32 (ab.hardlogEventConsumed + int32 text.length)
            else int32 (ab.hardlogEventConsumed + int32 (int32 text.length - 10)) } := by
  have h1 := hI.nonneg
  have h2 := hI.le
  have hs := hI.space_eq
  have hu := hI.u64_space
  unfold auditLogFormatHardlog
  rw [hI.buffer]
  by_cases hc : ab.hardlogEventConsumed = 511
  · simp only [hc, if_true]
    rw [if_pos (by omega)]
  · have hsize : u64 ab.space - 1 = (510 - ab.hardlogEventConsumed).toNat := by omega
    have hv : b.vsnprintf ab.hardlogEventConsumed (u64 ab.space) text =
        (b.store ab.hardlogEventConsumed (stored ab text), int32 text.length) := by
      unfold EventBuffer.vsnprintf intMax
      rw [if_neg (by omega), if_neg (by omega), hsize]
      rfl
    simp only [hv, hc, if_false]
    rw [if_neg (by omega), hs]
    split_ifs <;> rfl

/-- **A string**: dropped if the space left is below `slen + 3` modulo `2 ^ 64`. -/
theorem InRange.nStringHardlog_spec (string : ℕ → UInt8) (slen : UInt64) :
    auditLogNStringHardlog ab string slen =
      if 511 - ab.hardlogEventConsumed < ((slen.toNat + 3) % 2 ^ 64 : ℕ) then ab
      else
        { ab with
          hardlogEventBuffer := some (b.store ab.hardlogEventConsumed
            (34 :: (List.range slen.toNat).map string ++ [34, 0]))
          hardlogEventConsumed := int32 (ab.hardlogEventConsumed + (slen.toNat + 2)) } := by
  have hu := hI.u64_space
  unfold auditLogNStringHardlog
  rw [hI.buffer]
  refine if_congr ?_ rfl rfl
  omega

/-- **A hex string**: dropped if the space left is below `2 * len` modulo `2 ^ 64`. -/
theorem InRange.nHexHardlog_spec (buf : ℤ → UInt8) (len : UInt64) :
    auditLogNHexHardlog ab buf len =
      if 511 - ab.hardlogEventConsumed < ((2 * len.toNat) % 2 ^ 64 : ℕ) then ab
      else
        { ab with
          hardlogEventBuffer := some (b.store ab.hardlogEventConsumed
            (hexText buf (hexRounds len.toNat) ++ [0]))
          hardlogEventConsumed := int32 (ab.hardlogEventConsumed + 2 * len.toNat) } := by
  have hu := hI.u64_space
  unfold auditLogNHexHardlog
  rw [hI.buffer]
  refine if_congr ?_ rfl rfl
  omega

end Functions

/-! ### One call -/

/-- What an event keeps as long as its calls fit. -/
structure Inv (ab : AuditBuffer) (b : EventBuffer) : Prop where
  buffer : ab.hardlogEventBuffer = some b
  nonneg : 0 ≤ ab.hardlogEventConsumed
  le : ab.hardlogEventConsumed ≤ 511
  inBounds : InBounds b
  written : ∀ i, 0 ≤ i → i < ab.hardlogEventConsumed → b.written i = true

section Spec

variable {ab : AuditBuffer} {b : EventBuffer} (hI : Inv ab b)
include hI

theorem Inv.inRange : InRange ab b := ⟨hI.buffer, hI.nonneg, hI.le⟩

theorem Inv.within : Within ab := by
  refine ⟨hI.nonneg, hI.le, fun b' hb' => ?_⟩
  rw [hI.buffer] at hb'
  cases hb'
  exact hI.inBounds

theorem Inv.of_store {off n : ℤ} {src : List UInt8} (hoff : off = ab.hardlogEventConsumed)
    (h0 : 0 ≤ n) (h1 : n ≤ 511) (hfit : off + src.length ≤ 512) (hcover : n ≤ off + src.length) :
    Inv { ab with hardlogEventBuffer := some (b.store off src), hardlogEventConsumed := n }
      (b.store off src) := by
  subst hoff
  refine ⟨rfl, h0, h1, inBounds_store hI.inBounds hI.nonneg hfit, fun i hi hin => ?_⟩
  rw [store_written]
  by_cases h : i < ab.hardlogEventConsumed
  · exact Or.inl (hI.written i hi h)
  · exact Or.inr ⟨Int.not_lt.mp h, Int.lt_of_lt_of_le hin hcover⟩

theorem Inv.format_run (text : List UInt8) (hfit : CallFits ab (.format text)) :
    ∃ b', Inv (auditLogFormatHardlog ab text) b' := by
  have h1 := hI.nonneg
  have h2 := hI.le
  rw [hI.inRange.formatHardlog_spec]
  by_cases hc : ab.hardlogEventConsumed = 511
  · rw [if_pos hc]
    exact ⟨b, hI⟩
  · have hlen := length_stored ab text
    obtain ⟨hlo, hhi⟩ := hfit (by unfold hardlogAuditBlocksize hardlogAuditEventsize; omega)
    unfold hardlogAuditBlocksize hardlogAuditEventsize at hhi
    rw [if_neg hc]
    refine ⟨_, hI.of_store rfl ?_ ?_ ?_ ?_⟩
    all_goals unfold int32 at *
    all_goals try split_ifs
    all_goals omega

theorem Inv.nString_run (string : ℕ → UInt8) (slen : UInt64)
    (hfit : CallFits ab (.nString string slen)) :
    ∃ b', Inv (auditLogNStringHardlog ab string slen) b' := by
  have h1 := hI.nonneg
  have h2 := hI.le
  have hlt := slen.toNat_lt
  rw [hI.inRange.nStringHardlog_spec]
  simp only [CallFits, hardlogAuditBlocksize, hardlogAuditEventsize] at hfit
  split_ifs with hd
  · exact ⟨b, hI⟩
  · have hlen : ((34 :: (List.range slen.toNat).map string ++ [34, 0]).length : ℤ) =
        slen.toNat + 3 := by
      simp; omega
    have hn : int32 (ab.hardlogEventConsumed + (slen.toNat + 2)) =
        ab.hardlogEventConsumed + (slen.toNat + 2) := int32_eq (by omega) (by omega)
    rw [hn]
    exact ⟨_, hI.of_store rfl (by omega) (by omega) (by omega) (by omega)⟩

theorem Inv.nHex_run (buf : ℤ → UInt8) (len : UInt64) (hfit : CallFits ab (.nHex buf len)) :
    ∃ b', Inv (auditLogNHexHardlog ab buf len) b' := by
  have h1 := hI.nonneg
  have h2 := hI.le
  have hlt := len.toNat_lt
  rw [hI.inRange.nHexHardlog_spec]
  simp only [CallFits, hardlogAuditBlocksize, hardlogAuditEventsize] at hfit
  split_ifs with hd
  · exact ⟨b, hI⟩
  · have hr : hexRounds len.toNat = len.toNat := if_pos (by omega)
    have hlen : ((hexText buf (hexRounds len.toNat) ++ [0]).length : ℤ) = 2 * len.toNat + 1 := by
      simp [hr]
    have hn : int32 (ab.hardlogEventConsumed + 2 * len.toNat) =
        ab.hardlogEventConsumed + 2 * len.toNat := int32_eq (by omega) (by omega)
    rw [hn]
    exact ⟨_, hI.of_store rfl (by omega) (by omega) (by omega) (by omega)⟩

theorem Inv.run (c : Call) (hfit : CallFits ab c) : ∃ b', Inv (c.run ab) b' := by
  cases c with
  | format text => exact hI.format_run text hfit
  | nString string slen => exact hI.nString_run string slen hfit
  | nHex buf len => exact hI.nHex_run buf len hfit

theorem Inv.within_run_iff (c : Call) : Within (c.run ab) ↔ CallFits ab c := by
  refine ⟨fun hw => ?_, fun hfit => ?_⟩
  swap
  · obtain ⟨b', hI'⟩ := hI.run c hfit
    exact hI'.within
  have h1 := hI.nonneg
  have h2 := hI.le
  cases c with
  | format text =>
    intro hc
    simp only [hardlogAuditBlocksize, hardlogAuditEventsize] at hc ⊢
    simp only [Call.run] at hw
    rw [hI.inRange.formatHardlog_spec, if_neg (by omega)] at hw
    obtain ⟨hlo, hhi, -⟩ := hw
    simp only [hardlogAuditBlocksize, hardlogAuditEventsize] at hlo hhi
    unfold int32 at *
    split_ifs at hlo hhi <;> omega
  | nString string slen =>
    have hlt := slen.toNat_lt
    simp only [CallFits, hardlogAuditBlocksize, hardlogAuditEventsize]
    by_contra hn
    simp only [Call.run] at hw
    rw [hI.inRange.nStringHardlog_spec, if_neg (by omega)] at hw
    refine not_inBounds_store (by omega) ?_ (hw.2.2 _ rfl)
    simp; omega
  | nHex buf len =>
    have hlt := len.toNat_lt
    simp only [CallFits, hardlogAuditBlocksize, hardlogAuditEventsize]
    by_contra hn
    simp only [Call.run] at hw
    rw [hI.inRange.nHexHardlog_spec, if_neg (by omega)] at hw
    have hr : 2 ^ 31 ≤ hexRounds len.toNat := by
      unfold hexRounds; split_ifs <;> omega
    refine not_inBounds_store (by omega) ?_ (hw.2.2 _ rfl)
    simp; omega

/-! ### The end -/

/-- **The newline**: stored if there is space, and counted in any case. -/
theorem Inv.endNewline_spec :
    auditLogEndNewline ab =
      { ab with
        hardlogEventBuffer := some (if ab.hardlogEventConsumed = 511 then b.load 0 (b.strlen + 1)
          else (b.load 0 (b.strlen + 1)).store ab.hardlogEventConsumed (stored ab [10]))
        hardlogEventConsumed := ab.hardlogEventConsumed + 1 } := by
  have h1 := hI.nonneg
  have h2 := hI.le
  have hu := hI.inRange.u64_space
  have hsize : u64 ab.space - 1 = (510 - ab.hardlogEventConsumed).toNat := by omega
  have hone : int32 (([10] : List UInt8).length : ℤ) = 1 := rfl
  unfold auditLogEndNewline EventBuffer.vsnprintf intMax
  rw [hI.buffer]
  by_cases hc : ab.hardlogEventConsumed = 511
  · simp only [hc, if_true]
    rw [if_neg (by omega), if_pos (by omega)]
    rfl
  · simp only [hc, if_false]
    rw [if_neg (by omega), if_neg (by omega), hsize, hone, int32_eq (by omega) (by omega)]
    rfl

theorem Inv.recordLen_endNewline :
    (auditLogEndNewline ab).recordLen = ab.hardlogEventConsumed + 1 := by
  have h1 := hI.nonneg
  have h2 := hI.le
  rw [hI.endNewline_spec]
  exact u64_of_nonneg (show 0 ≤ ab.hardlogEventConsumed + 1 by omega)
    (show ab.hardlogEventConsumed + 1 < 2 ^ 64 by omega)

omit hI in
theorem strlen_lt_iff : b.strlen < 512 ↔ ∃ i : ℕ, i < 512 ∧ b.byte i = 0 := by
  constructor
  · intro h
    by_contra hn
    have := strlen_of_no_nul (b := b) fun i hi h0 => hn ⟨i, hi, h0⟩
    omega
  · rintro ⟨i, hi, h0⟩
    have := strlen_le_of_nul h0
    omega

theorem Inv.scan_iff : InBounds (b.load 0 (b.strlen + 1)) ↔ ∃ i : ℕ, i < 512 ∧ b.byte i = 0 := by
  rw [← strlen_lt_iff, inBounds_cons (load_accesses b 0 _)]
  unfold hardlogAuditEventsize
  refine ⟨fun h => ?_, fun h => ⟨fun i h0 h1 => ⟨h0, by omega⟩, hI.inBounds⟩⟩
  have := h.1 b.strlen (by omega) (by omega)
  omega

theorem Inv.endWithin_iff : EndWithin ab ↔ EndFits ab := by
  have h1 := hI.nonneg
  have h2 := hI.le
  have hlen := hI.recordLen_endNewline
  have hscan := hI.scan_iff
  constructor
  · rintro ⟨hb, hgo⟩ b' hb'
    rw [hI.buffer] at hb'
    cases hb'
    refine ⟨hscan.mp (hb b hI.buffer), fun hd hc => ?_⟩
    simp only [hardlogAuditBlocksize, hardlogAuditEventsize] at hc ⊢
    have hw := ((hgo hd).2 (b.load 0 (b.strlen + 1))
      (by rw [hI.endNewline_spec]; exact congrArg some (if_pos (by omega)))).2 511 (by omega)
    rwa [load_written] at hw
  · intro hfit
    obtain ⟨hnul, hfull⟩ := hfit b hI.buffer
    have hscanned := hscan.mpr hnul
    refine ⟨fun b' hb' => by rw [hI.buffer] at hb'; cases hb'; exact hscanned, fun hd => ?_⟩
    refine ⟨by rw [hlen]; unfold hardlogAuditEventsize; omega, fun b' hb' => ?_⟩
    rw [hI.endNewline_spec] at hb'
    simp only [Option.some.injEq] at hb'
    subst hb'
    rw [inBounds_cons (load_accesses _ 0 _), hlen]
    simp only [hardlogAuditBlocksize, hardlogAuditEventsize] at hfull ⊢
    have hst := length_stored ab [10]
    by_cases hc : ab.hardlogEventConsumed = 511
    · rw [if_pos hc]
      refine ⟨⟨fun i hi hi' => ⟨hi, by omega⟩, hscanned⟩, fun i hi => ?_⟩
      rcases Nat.lt_or_ge i 511 with h | h
      · exact hI.written i (by omega) (by omega)
      · obtain rfl : i = 511 := by omega
        exact hfull hd (by omega)
    · rw [if_neg hc]
      refine ⟨⟨fun i hi hi' => ⟨hi, by omega⟩, inBounds_store hscanned h1 (by omega)⟩,
        fun i hi => ?_⟩
      rw [store_written]
      by_cases h : (i : ℤ) < ab.hardlogEventConsumed
      · exact Or.inl (hI.written i (by omega) h)
      · exact Or.inr (by omega)

end Spec

/-! ### Any sequence of calls -/

theorem runFrom_buildStep (ab : AuditBuffer) (calls : List Call) :
    runFrom buildStep ab calls = some (calls.foldl Call.run ab) := by
  induction calls generalizing ab with
  | nil => rfl
  | cons c calls ih => exact ih (c.run ab)

theorem start_inv (ab : AuditBuffer) (garbage : ℤ → UInt8) :
    Inv (auditLogStartHardlog ab (some garbage)) ⟨garbage, fun _ => false, []⟩ :=
  ⟨rfl, Int.le_refl 0, by unfold auditLogStartHardlog; simp, by simp [InBounds],
    fun i h0 h1 => absurd (show i < 0 from h1) (by omega)⟩

theorem foldl_inv {ab : AuditBuffer} {calls : List Call} (h0 : ∃ b, Inv ab b)
    (h : EachStep buildStep CallFits ab calls) : ∃ b, Inv (calls.foldl Call.run ab) b := by
  refine (Reach.of_runFrom (runFrom_buildStep ab calls) h).inv (I := fun ab => ∃ b, Inv ab b)
    (fun s c s' hI hC hs => ?_) h0
  obtain ⟨b, hI⟩ := hI
  cases hs
  exact hI.run c hC

/-- **The event buffer over any record**: the bounds hold after every call and at the end exactly
if every call and the end fit. -/
theorem recordBounds_iff (ab : AuditBuffer) (garbage : ℤ → UInt8) (calls : List Call) :
    RecordBounds (auditLogStartHardlog ab (some garbage)) calls ↔
      EachStep buildStep CallFits (auditLogStartHardlog ab (some garbage)) calls ∧
        EndFits (calls.foldl Call.run (auditLogStartHardlog ab (some garbage))) := by
  have h0 := start_inv ab garbage
  have hrun : Always buildStep Within (auditLogStartHardlog ab (some garbage)) calls ↔
      EachStep buildStep CallFits (auditLogStartHardlog ab (some garbage)) calls :=
    always_iff_eachStep (I := fun ab => ∃ b, Inv ab b)
    (fun s c s' ⟨b, hI⟩ hs hw => by
      cases hs
      exact hI.run c ((hI.within_run_iff c).mp hw))
    (fun s c s' ⟨b, hI⟩ hs => by
      cases hs
      exact hI.within_run_iff c) calls ⟨_, h0⟩ h0.within
  unfold RecordBounds
  rw [hrun]
  refine and_congr_right fun h => ?_
  obtain ⟨b, hI⟩ := foldl_inv ⟨_, h0⟩ h
  exact hI.endWithin_iff

/-- A rendering of 600 bytes as the first call leaves 590 bytes consumed. -/
theorem format_600_out_of_bounds :
    ¬ RecordBounds (auditLogStartHardlog ⟨none, none, 0⟩ (some fun _ => 0))
      [.format (List.replicate 600 65)] := by
  rintro ⟨⟨-, h⟩, -⟩
  have hfit := ((start_inv ⟨none, none, 0⟩ fun _ => 0).within_run_iff _).mp (h _ rfl)
  have := (hfit (by decide)).2
  rw [List.length_replicate] at this
  exact absurd this (by decide)

end HardLog.Host.EventBounds
