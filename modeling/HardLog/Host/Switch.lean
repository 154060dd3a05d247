import HardLog.Host.Kaudit

/-! # Switching HardLog on and off

Every operation of `audit.c` tests `hardlog_active` for itself, and `hardlog_logger_setup` and
`hardlog_logger_teardown` may set and clear it in between. `audit_log_start_hardlog` is the only
function that sets the pointer to the event buffer; a record that was started without it has what
was in the memory of its `audit_buffer`. `always_unsplit_iff` says in which runs no record is split:
those in which every operation finds the flag as it was when the record was started, apart from the
functions that go both ways. -/

namespace HardLog.Host.Switch

open HardLog.Lib.Runs HardLog.Host.Event HardLog.Host.Kaudit

/-- The functions that build and deliver a record. -/
inductive Backend where
  | hardlog
  | native
  deriving DecidableEq

/-- A record. `address` is what the pointer to its event buffer holds, if it is not null: event
buffers are numbered in the order in which they are allocated. A call of
`audit_log_n_untrustedstring` on the native way that has yet to call the next function is `pending`.
The other fields are history: the flag at the start, the event buffer allocated there, the functions
applied since, and whether the record has ended. -/
structure Rec where
  record : AuditRecord
  address : ℕ
  pending : Option ((ℤ → UInt8) × UInt64)
  start : Backend
  own : Option ℕ
  applied : List Backend
  ended : Bool

/-- The records, the flag, and the event buffers: how many were allocated, and how often each was
freed. -/
structure SwitchState (Rid : Type) where
  active : Bool
  recs : Rid → Option Rec
  allocated : ℕ
  frees : ℕ → ℕ

/-- The flag is set or cleared, or a record is started, added to or ended. At the start, `ab` and
`address` are what the memory of the new `audit_buffer` happens to hold, and `alloc` is what the
allocator returns. -/
inductive SwitchAction (Rid : Type) where
  | setActive (b : Bool)
  | start (r : Rid) (ab : AuditBuffer) (address : ℕ) (alloc : Option (ℤ → UInt8))
  | format (r : Rid) (text : List UInt8)
  | nHex (r : Rid) (buf : ℤ → UInt8) (len : UInt64)
  | nString (r : Rid) (string : ℤ → UInt8) (slen : UInt64)
  | nUntrustedstring (r : Rid) (string : ℤ → UInt8) (len : UInt64)
  | resume (r : Rid)
  | finish (r : Rid)

/-- The functions of an operation that goes one way or the other. -/
def backend (active : Bool) : Backend := if active then .hardlog else .native

/-- The functions of `audit_log_n_hex` and `audit_log_n_string`, which do not return behind the
first. -/
def fallsThrough (active : Bool) : List Backend := if active then [.hardlog, .native] else [.native]

/-- A record that `audit_log_start` has made, up to its first `audit_log_format`. -/
def startRec (active : Bool) (ab : AuditBuffer) (address allocated : ℕ)
    (alloc : Option (ℤ → UInt8)) : Rec where
  record := auditLogStart active ab alloc
  address := if active && alloc.isSome then allocated else address
  pending := none
  start := backend active
  own := if active && alloc.isSome then some allocated else none
  applied := []
  ended := false

/-- The record after the functions `bs` have been applied to it. -/
def Rec.apply (x : Rec) (bs : List Backend) (record : AuditRecord) : Rec :=
  { x with record, pending := none, applied := x.applied ++ bs }

variable {Rid : Type} [DecidableEq Rid]

/-- The record, when no call is under way and it has not ended. -/
def SwitchState.atRest (s : SwitchState Rid) (r : Rid) : Option Rec :=
  (s.recs r).filter fun x => !x.ended && x.pending.isNone

def SwitchState.put (s : SwitchState Rid) (r : Rid) (x : Rec) : SwitchState Rid :=
  { s with recs := Function.update s.recs r (some x) }

/-- `audit_log_end`. With the flag set, `audit_log_end_hardlog` frees what the pointer to the event
buffer holds, on each of its ways, unless it is null; without, nobody looks at the pointer. -/
def SwitchState.auditLogEnd (s : SwitchState Rid) (r : Rid) (x : Rec) : SwitchState Rid :=
  { s.put r { x with applied := x.applied ++ [backend s.active], ended := true } with
    frees :=
      if s.active && x.record.ab.hardlogEventBuffer.isSome then
        Function.update s.frees x.address (s.frees x.address + 1)
      else s.frees }

/-- A step. -/
def switchStep (s : SwitchState Rid) : SwitchAction Rid → Option (SwitchState Rid)
  | .setActive b => some { s with active := b }
  | .start r ab address alloc =>
    if (s.recs r).isSome then none
    else
      some
        { s.put r (startRec s.active ab address s.allocated alloc) with
          allocated := if s.active && alloc.isSome then s.allocated + 1 else s.allocated }
  | .format r text =>
    (s.atRest r).map fun x =>
      s.put r (x.apply [backend s.active] (auditLogFormat s.active x.record text))
  | .nHex r buf len =>
    (s.atRest r).map fun x =>
      s.put r (x.apply (fallsThrough s.active) (auditLogNHex s.active x.record buf len))
  | .nString r string slen =>
    (s.atRest r).map fun x =>
      s.put r (x.apply (fallsThrough s.active) (auditLogNString s.active x.record string slen))
  | .nUntrustedstring r string len =>
    (s.atRest r).map fun x =>
      if s.active then
        s.put r (x.apply [.hardlog] (auditLogNUntrustedstring true true x.record string len))
      else s.put r { x with pending := some (string, len) }
  | .resume r =>
    match s.recs r with
    | none => none
    | some x =>
      x.pending.map fun call =>
        s.put r (x.apply (fallsThrough s.active)
          (auditLogNUntrustedstring false s.active x.record call.1 call.2))
  | .finish r => (s.atRest r).map fun x => s.auditLogEnd r x

/-- No record has been started. -/
def switchInit (Rid : Type) (active : Bool) : SwitchState Rid := ⟨active, fun _ => none, 0, fun _ => 0⟩

/-! ### Records that are not split -/

/-- The functions applied to a record are those of one way, which it was started for; HardLog's have
an event buffer allocated for it. -/
structure Whole (x : Rec) : Prop where
  one_backend : ∀ b ∈ x.applied, b = x.start
  own_buffer : .hardlog ∈ x.applied → x.own ≠ none

/-- **No record is split**: each is built and delivered one way, and the event buffer allocated for
it is freed once, when it ends. -/
structure Unsplit (s : SwitchState Rid) : Prop where
  whole : ∀ r x, s.recs r = some x → Whole x
  freed_once : ∀ r x a, s.recs r = some x → x.own = some a → s.frees a = if x.ended then 1 else 0

/-- The flag is what it was at the start of the record, and HardLog has an event buffer for it. -/
def Matches (s : SwitchState Rid) (x : Rec) : Prop :=
  x.start = backend s.active ∧ (s.active = true → x.own ≠ none)

/-- An operation finds the flag as it was at the start of the record. With the flag set, the
allocation at the start has succeeded, and the operation does not go both ways. -/
def Keeps (s : SwitchState Rid) : SwitchAction Rid → Prop
  | .setActive _ | .start .. => True
  | .format r _ | .finish r => ∀ x, s.recs r = some x → Matches s x
  | .nUntrustedstring r _ _ => s.active = true → ∀ x, s.recs r = some x → Matches s x
  | .nHex r _ _ | .nString r _ _ | .resume r =>
    s.active = false ∧ ∀ x, s.recs r = some x → Matches s x

/-- Event buffers have one owner, which was started for HardLog and the pointer of which points to
them. -/
structure Owners (recs : Rid → Option Rec) (allocated : ℕ) : Prop where
  own_lt : ∀ r x a, recs r = some x → x.own = some a → a < allocated
  own_inj : ∀ r r' x x' a, recs r = some x → recs r' = some x' → x.own = some a →
    x'.own = some a → r = r'
  own_start : ∀ r x a, recs r = some x → x.own = some a → x.start = .hardlog
  pointer : ∀ r x a, recs r = some x → x.own = some a →
    x.address = a ∧ x.record.ab.hardlogEventBuffer.isSome

/-- No record is split, event buffers have their owners, and no others were freed. -/
structure Inv (s : SwitchState Rid) : Prop where
  unsplit : Unsplit s
  owners : Owners s.recs s.allocated
  frees_fresh : ∀ a, s.allocated ≤ a → s.frees a = 0

/-! ### The functions keep the pointer -/

theorem isSome_run (c : Call) (ab : AuditBuffer) :
    (c.run ab).hardlogEventBuffer.isSome = ab.hardlogEventBuffer.isSome := by
  obtain ⟨ctx, buffer, consumed⟩ := ab
  cases buffer with
  | none => cases c <;> rfl
  | some b =>
    cases c with
    | format text =>
      simp only [Call.run, auditLogFormatHardlog]
      split_ifs <;> rfl
    | nString string slen =>
      simp only [Call.run, auditLogNStringHardlog]
      split_ifs <;> rfl
    | nHex buf len =>
      simp only [Call.run, auditLogNHexHardlog]
      split_ifs <;> rfl

theorem isSome_format (active : Bool) (r : AuditRecord) (text : List UInt8) :
    (auditLogFormat active r text).ab.hardlogEventBuffer.isSome =
      r.ab.hardlogEventBuffer.isSome := by
  cases active
  · rfl
  · exact isSome_run (.format text) r.ab

theorem isSome_nHex (active : Bool) (r : AuditRecord) (buf : ℤ → UInt8) (len : UInt64) :
    (auditLogNHex active r buf len).ab.hardlogEventBuffer.isSome =
      r.ab.hardlogEventBuffer.isSome := by
  cases active
  · rfl
  · exact isSome_run (.nHex buf len) r.ab

theorem isSome_nString (active : Bool) (r : AuditRecord) (string : ℤ → UInt8) (slen : UInt64) :
    (auditLogNString active r string slen).ab.hardlogEventBuffer.isSome =
      r.ab.hardlogEventBuffer.isSome := by
  cases active
  · rfl
  · exact isSome_run (.nHex string slen) r.ab

theorem isSome_nUntrustedstring (active active' : Bool) (r : AuditRecord) (string : ℤ → UInt8)
    (len : UInt64) :
    (auditLogNUntrustedstring active active' r string len).ab.hardlogEventBuffer.isSome =
      r.ab.hardlogEventBuffer.isSome := by
  unfold auditLogNUntrustedstring
  split_ifs
  · exact isSome_run (.nHex string len) r.ab
  · exact isSome_run (.nString (fun i => string i) len) r.ab
  · exact isSome_nHex active' r string len
  · exact isSome_nString active' r string len

/-! ### One step -/

omit [DecidableEq Rid] in
theorem atRest_eq_some {s : SwitchState Rid} {r : Rid} {x : Rec} :
    s.atRest r = some x ↔ s.recs r = some x ∧ x.ended = false ∧ x.pending = none := by
  simp [SwitchState.atRest, Option.filter_eq_some_iff]

theorem recs_put {recs : Rid → Option Rec} {r r' : Rid} {x y : Rec}
    (h : Function.update recs r (some x) r' = some y) :
    (r' = r ∧ y = x) ∨ (r' ≠ r ∧ recs r' = some y) := by
  by_cases hr : r' = r
  · subst hr
    rw [Function.update_self] at h
    exact Or.inl ⟨rfl, (Option.some.inj h).symm⟩
  · rw [Function.update_of_ne hr] at h
    exact Or.inr ⟨hr, h⟩

theorem Whole.append_iff {x : Rec} (h : Whole x) (x' : Rec) (bs : List Backend)
    (happlied : x'.applied = x.applied ++ bs) (hstart : x'.start = x.start) (hown : x'.own = x.own) :
    Whole x' ↔ ∀ b ∈ bs, b = x.start ∧ (b = .hardlog → x.own ≠ none) := by
  constructor
  · intro h' b hb
    have hmem : b ∈ x'.applied := by
      rw [happlied]
      exact List.mem_append_right _ hb
    refine ⟨hstart ▸ h'.one_backend b hmem, ?_⟩
    rintro rfl
    rw [← hown]
    exact h'.own_buffer hmem
  · intro hbs
    refine ⟨fun b hb => ?_, fun hmem => ?_⟩
    · rw [hstart]
      rw [happlied, List.mem_append] at hb
      exact hb.elim (h.one_backend b) fun hb => (hbs b hb).1
    · rw [hown]
      rw [happlied, List.mem_append] at hmem
      exact hmem.elim h.own_buffer fun hmem => (hbs _ hmem).2 rfl

omit [DecidableEq Rid] in
theorem forall_backend_iff {s : SwitchState Rid} {x : Rec} :
    (∀ b ∈ [backend s.active], b = x.start ∧ (b = .hardlog → x.own ≠ none)) ↔ Matches s x := by
  unfold Matches backend
  cases s.active <;> simp [eq_comm]

omit [DecidableEq Rid] in
theorem forall_fallsThrough_iff {s : SwitchState Rid} {x : Rec} :
    (∀ b ∈ fallsThrough s.active, b = x.start ∧ (b = .hardlog → x.own ≠ none)) ↔
      s.active = false ∧ Matches s x := by
  unfold Matches backend fallsThrough
  cases s.active
  · simp [eq_comm]
  · constructor
    · intro h
      exact absurd ((h .hardlog (by simp)).1.trans (h .native (by simp)).1.symm) (by decide)
    · rintro ⟨h, -⟩
      cases h

theorem Owners.own_inj_put {recs : Rid → Option Rec} {allocated : ℕ} (h : Owners recs allocated)
    {r : Rid} {x : Rec}
    (hx : ∀ r' y a, r' ≠ r → recs r' = some y → y.own = some a → x.own ≠ some a)
    {r₁ r₂ : Rid} {y₁ y₂ : Rec} {a : ℕ} (hy₁ : Function.update recs r (some x) r₁ = some y₁)
    (hy₂ : Function.update recs r (some x) r₂ = some y₂) (ha₁ : y₁.own = some a)
    (ha₂ : y₂.own = some a) : r₁ = r₂ := by
  rcases recs_put hy₁ with ⟨rfl, rfl⟩ | ⟨hne₁, hold₁⟩
  · rcases recs_put hy₂ with ⟨rfl, -⟩ | ⟨hne₂, hold₂⟩
    · rfl
    · exact absurd ha₁ (hx r₂ y₂ a hne₂ hold₂ ha₂)
  · rcases recs_put hy₂ with ⟨rfl, rfl⟩ | ⟨-, hold₂⟩
    · exact absurd ha₂ (hx r₁ y₁ a hne₁ hold₁ ha₁)
    · exact h.own_inj r₁ r₂ y₁ y₂ a hold₁ hold₂ ha₁ ha₂

theorem Owners.put {recs : Rid → Option Rec} {allocated : ℕ} (h : Owners recs allocated) {r : Rid}
    {x x' : Rec} (hx : recs r = some x) (hown : x'.own = x.own) (hstart : x'.start = x.start)
    (haddress : x'.address = x.address)
    (hsome : x'.record.ab.hardlogEventBuffer.isSome = x.record.ab.hardlogEventBuffer.isSome) :
    Owners (Function.update recs r (some x')) allocated := by
  refine ⟨?_, ?_, ?_, ?_⟩
  · intro r' y a hy ha
    rcases recs_put hy with ⟨rfl, rfl⟩ | ⟨-, hold⟩
    · exact h.own_lt r' x a hx (hown ▸ ha)
    · exact h.own_lt r' y a hold ha
  · intro r₁ r₂ y₁ y₂ a hy₁ hy₂ ha₁ ha₂
    refine h.own_inj_put (fun r' y a hne hold ha ha' => hne ?_) hy₁ hy₂ ha₁ ha₂
    exact h.own_inj r' r y x a hold hx ha (hown ▸ ha')
  · intro r' y a hy ha
    rcases recs_put hy with ⟨rfl, rfl⟩ | ⟨-, hold⟩
    · rw [hstart]
      exact h.own_start r' x a hx (hown ▸ ha)
    · exact h.own_start r' y a hold ha
  · intro r' y a hy ha
    rcases recs_put hy with ⟨rfl, rfl⟩ | ⟨-, hold⟩
    · rw [haddress, hsome]
      exact h.pointer r' x a hx (hown ▸ ha)
    · exact h.pointer r' y a hold ha

theorem Owners.start {recs : Rid → Option Rec} {allocated allocated' : ℕ}
    (h : Owners recs allocated) {r : Rid} {x : Rec} (hle : allocated ≤ allocated')
    (hnew : ∀ a, x.own = some a → a = allocated ∧ allocated < allocated' ∧ x.start = .hardlog ∧
      x.address = a ∧ x.record.ab.hardlogEventBuffer.isSome) :
    Owners (Function.update recs r (some x)) allocated' := by
  refine ⟨?_, ?_, ?_, ?_⟩
  · intro r' y a hy ha
    rcases recs_put hy with ⟨rfl, rfl⟩ | ⟨-, hold⟩
    · obtain ⟨rfl, hlt, -⟩ := hnew a ha
      exact hlt
    · exact (h.own_lt r' y a hold ha).trans_le hle
  · intro r₁ r₂ y₁ y₂ a hy₁ hy₂ ha₁ ha₂
    refine h.own_inj_put (fun r' y a _ hold ha ha' => ?_) hy₁ hy₂ ha₁ ha₂
    obtain ⟨rfl, -⟩ := hnew a ha'
    exact absurd (h.own_lt r' y _ hold ha) (Nat.lt_irrefl _)
  · intro r' y a hy ha
    rcases recs_put hy with ⟨rfl, rfl⟩ | ⟨-, hold⟩
    · exact (hnew a ha).2.2.1
    · exact h.own_start r' y a hold ha
  · intro r' y a hy ha
    rcases recs_put hy with ⟨rfl, rfl⟩ | ⟨-, hold⟩
    · exact (hnew a ha).2.2.2
    · exact h.pointer r' y a hold ha

section Step

variable {s : SwitchState Rid} (hI : Inv s)
include hI

/-- **An operation on a record** splits it or leaves everything as it is supposed to be. -/
theorem inv_put {r : Rid} {x : Rec} (x' : Rec) (hx : s.recs r = some x) (hown : x'.own = x.own)
    (hstart : x'.start = x.start) (hended : x'.ended = x.ended) (haddress : x'.address = x.address)
    (hsome : x'.record.ab.hardlogEventBuffer.isSome = x.record.ab.hardlogEventBuffer.isSome) :
    (Unsplit (s.put r x') ↔ Whole x') ∧ (Unsplit (s.put r x') → Inv (s.put r x')) := by
  refine ⟨⟨fun hu => hu.whole r x' (Function.update_self ..), fun hw => ⟨?_, ?_⟩⟩, fun hu =>
    ⟨hu, hI.owners.put hx hown hstart haddress hsome, hI.frees_fresh⟩⟩
  · intro r' y hy
    rcases recs_put hy with ⟨rfl, rfl⟩ | ⟨-, hold⟩
    · exact hw
    · exact hI.unsplit.whole r' y hold
  · intro r' y a hy ha
    rcases recs_put hy with ⟨rfl, rfl⟩ | ⟨-, hold⟩
    · rw [hended]
      exact hI.unsplit.freed_once r' x a hx (hown ▸ ha)
    · exact hI.unsplit.freed_once r' y a hold ha

/-- **A start** makes a whole record, whose event buffer is a new one. -/
theorem inv_start (r : Rid) (ab : AuditBuffer) (address : ℕ) (alloc : Option (ℤ → UInt8)) :
    Inv { s.put r (startRec s.active ab address s.allocated alloc) with
      allocated := if s.active && alloc.isSome then s.allocated + 1 else s.allocated } := by
  have hle : s.allocated ≤ if s.active && alloc.isSome then s.allocated + 1 else s.allocated := by
    split_ifs <;> omega
  have hnew : ∀ a, (startRec s.active ab address s.allocated alloc).own = some a →
      s.active = true ∧ alloc.isSome ∧ a = s.allocated := by
    intro a ha
    simp only [startRec, Option.ite_none_right_eq_some, Bool.and_eq_true, Option.some.injEq] at ha
    exact ⟨ha.1.1, ha.1.2, ha.2.symm⟩
  refine ⟨⟨?_, ?_⟩, hI.owners.start hle ?_, fun a ha => hI.frees_fresh a (hle.trans ha)⟩
  · intro r' y hy
    rcases recs_put hy with ⟨rfl, rfl⟩ | ⟨-, hold⟩
    · exact ⟨fun b hb => absurd hb List.not_mem_nil, fun hb => absurd hb List.not_mem_nil⟩
    · exact hI.unsplit.whole r' y hold
  · intro r' y a hy ha
    rcases recs_put hy with ⟨rfl, rfl⟩ | ⟨-, hold⟩
    · obtain ⟨-, -, rfl⟩ := hnew a ha
      exact hI.frees_fresh _ (Nat.le_refl _)
    · exact hI.unsplit.freed_once r' y a hold ha
  · intro a ha
    obtain ⟨hactive, halloc, rfl⟩ := hnew a ha
    obtain ⟨garbage, rfl⟩ := Option.isSome_iff_exists.mp halloc
    simp [startRec, backend, auditLogStart, auditLogStartHardlog, hactive]

/-- An end that matches the start frees the record's own event buffer, and no other. -/
theorem frees_auditLogEnd {r : Rid} {x : Rec} (hx : s.recs r = some x) (hm : Matches s x) (a : ℕ) :
    (s.auditLogEnd r x).frees a = if x.own = some a then s.frees a + 1 else s.frees a := by
  obtain ⟨hstart, hactive⟩ := hm
  simp only [SwitchState.auditLogEnd]
  cases hown : x.own with
  | none =>
    have hoff : s.active = false := by
      by_contra hon
      exact hactive (Bool.not_eq_false _ ▸ hon) hown
    simp [hoff]
  | some a' =>
    obtain ⟨haddress, hsome⟩ := hI.owners.pointer r x a' hx hown
    have hon : s.active = true := by
      by_contra hoff
      rw [hI.owners.own_start r x a' hx hown, Bool.eq_false_of_not_eq_true hoff] at hstart
      cases hstart
    rw [hon, hsome, haddress]
    simp only [Bool.and_self, if_true, Option.some.injEq]
    by_cases ha : a = a'
    · subst ha
      rw [Function.update_self, if_pos rfl]
    · rw [Function.update_of_ne ha, if_neg (Ne.symm ha)]

theorem inv_auditLogEnd {r : Rid} {x : Rec} (hx : s.recs r = some x) (hopen : x.ended = false) :
    (Unsplit (s.auditLogEnd r x) ↔ Matches s x) ∧
      (Unsplit (s.auditLogEnd r x) → Inv (s.auditLogEnd r x)) := by
  have hiff := (hI.unsplit.whole r x hx).append_iff
    { x with applied := x.applied ++ [backend s.active], ended := true } [backend s.active] rfl rfl
    rfl
  rw [forall_backend_iff] at hiff
  have hmatches : Unsplit (s.auditLogEnd r x) → Matches s x := fun hu =>
    hiff.mp (hu.whole r _ (Function.update_self ..))
  refine ⟨⟨hmatches, fun hm => ⟨fun r' y hy => ?_, fun r' y a hy ha => ?_⟩⟩, fun hu =>
    ⟨hu, hI.owners.put hx rfl rfl rfl rfl, fun a ha => ?_⟩⟩
  · rcases recs_put hy with ⟨rfl, rfl⟩ | ⟨-, hold⟩
    · exact hiff.mpr hm
    · exact hI.unsplit.whole r' y hold
  · rw [frees_auditLogEnd hI hx hm]
    rcases recs_put hy with ⟨rfl, rfl⟩ | ⟨hne, hold⟩
    · have hbefore := hI.unsplit.freed_once r' x a hx ha
      rw [hopen] at hbefore
      rw [if_pos ha, hbefore]
      rfl
    · rw [if_neg fun hxa => hne (hI.owners.own_inj r' r y x a hold hx ha hxa)]
      exact hI.unsplit.freed_once r' y a hold ha
  · rw [frees_auditLogEnd hI hx (hmatches hu), if_neg]
    · exact hI.frees_fresh a ha
    · intro hown
      exact absurd (hI.owners.own_lt r x a hx hown) (Nat.not_lt.mpr ha)

end Step

/-- **A step** splits no record exactly if it keeps to the way of its record. -/
theorem unsplit_step_iff {s s' : SwitchState Rid} (hI : Inv s) {a : SwitchAction Rid}
    (hs : switchStep s a = some s') :
    (Unsplit s' ↔ Keeps s a) ∧ (Unsplit s' → Inv s') := by
  -- the operation applies the functions `bs` to a record
  have happly : ∀ r x bs record, s.recs r = some x →
      record.ab.hardlogEventBuffer.isSome = x.record.ab.hardlogEventBuffer.isSome →
      (Unsplit (s.put r (x.apply bs record)) ↔
        ∀ b ∈ bs, b = x.start ∧ (b = .hardlog → x.own ≠ none)) ∧
      (Unsplit (s.put r (x.apply bs record)) → Inv (s.put r (x.apply bs record))) := by
    intro r x bs record hx hsome
    obtain ⟨hiff, hinv⟩ := inv_put hI (x.apply bs record) hx rfl rfl rfl rfl hsome
    exact ⟨hiff.trans ((hI.unsplit.whole r x hx).append_iff _ bs rfl rfl rfl), hinv⟩
  have hthe : ∀ {r x} {P : Rec → Prop}, s.recs r = some x →
      ((∀ x', s.recs r = some x' → P x') ↔ P x) := by
    intro r x P hx
    simp [hx]
  cases a with
  | setActive b =>
    obtain rfl := Option.some.inj hs
    exact ⟨iff_of_true ⟨hI.unsplit.whole, hI.unsplit.freed_once⟩ trivial,
      fun hu => ⟨hu, hI.owners, hI.frees_fresh⟩⟩
  | start r ab address alloc =>
    simp only [switchStep, Option.ite_none_left_eq_some, Option.some.injEq] at hs
    obtain ⟨-, rfl⟩ := hs
    have hnew := inv_start hI r ab address alloc
    exact ⟨iff_of_true hnew.unsplit trivial, fun _ => hnew⟩
  | format r text =>
    simp only [switchStep, Option.map_eq_some_iff, atRest_eq_some] at hs
    obtain ⟨x, ⟨hx, -, -⟩, rfl⟩ := hs
    obtain ⟨hiff, hinv⟩ := happly r x _ _ hx (isSome_format s.active x.record text)
    refine ⟨?_, hinv⟩
    rw [hiff, forall_backend_iff, Keeps, hthe hx]
  | nHex r buf len =>
    simp only [switchStep, Option.map_eq_some_iff, atRest_eq_some] at hs
    obtain ⟨x, ⟨hx, -, -⟩, rfl⟩ := hs
    obtain ⟨hiff, hinv⟩ := happly r x _ _ hx (isSome_nHex s.active x.record buf len)
    refine ⟨?_, hinv⟩
    rw [hiff, forall_fallsThrough_iff, Keeps, hthe hx]
  | nString r string slen =>
    simp only [switchStep, Option.map_eq_some_iff, atRest_eq_some] at hs
    obtain ⟨x, ⟨hx, -, -⟩, rfl⟩ := hs
    obtain ⟨hiff, hinv⟩ := happly r x _ _ hx (isSome_nString s.active x.record string slen)
    refine ⟨?_, hinv⟩
    rw [hiff, forall_fallsThrough_iff, Keeps, hthe hx]
  | nUntrustedstring r string len =>
    simp only [switchStep, Option.map_eq_some_iff, atRest_eq_some] at hs
    obtain ⟨x, ⟨hx, -, -⟩, rfl⟩ := hs
    cases hactive : s.active with
    | true =>
      rw [if_pos rfl]
      obtain ⟨hiff, hinv⟩ := happly r x [.hardlog] _ hx
        (isSome_nUntrustedstring true true x.record string len)
      refine ⟨?_, hinv⟩
      have hback := forall_backend_iff (s := s) (x := x)
      rw [hactive] at hback
      rw [hiff, Keeps, hthe hx, ← hback]
      simp [hactive, backend]
    | false =>
      rw [if_neg Bool.false_ne_true]
      obtain ⟨hiff, hinv⟩ := inv_put hI { x with pending := some (string, len) } hx rfl rfl
        rfl rfl rfl
      have hold := hI.unsplit.whole r x hx
      refine ⟨iff_of_true (hiff.mpr ⟨hold.one_backend, hold.own_buffer⟩) ?_, hinv⟩
      intro hon
      rw [hactive] at hon
      cases hon
  | resume r =>
    simp only [switchStep] at hs
    cases hx : s.recs r with
    | none => simp [hx] at hs
    | some x =>
      simp only [hx, Option.map_eq_some_iff] at hs
      obtain ⟨call, -, rfl⟩ := hs
      obtain ⟨hiff, hinv⟩ := happly r x _ _ hx
        (isSome_nUntrustedstring false s.active x.record call.1 call.2)
      refine ⟨?_, hinv⟩
      rw [hiff, forall_fallsThrough_iff, Keeps, hthe hx]
  | finish r =>
    simp only [switchStep, Option.map_eq_some_iff, atRest_eq_some] at hs
    obtain ⟨x, ⟨hx, hopen, -⟩, rfl⟩ := hs
    obtain ⟨hiff, hinv⟩ := inv_auditLogEnd hI hx hopen
    refine ⟨?_, hinv⟩
    rw [hiff, Keeps, hthe hx]

/-! ### Runs -/

theorem switchInit_inv (Rid : Type) [DecidableEq Rid] (active : Bool) :
    Inv (switchInit Rid active) := by
  refine ⟨⟨?_, ?_⟩, ⟨?_, ?_, ?_, ?_⟩, fun _ _ => rfl⟩ <;>
    · intros
      simp_all [switchInit]

/-- **Switching**: along a run no record is ever split exactly if every operation finds the flag as
it was when the record was started, with an event buffer if it is set, and goes one way. -/
theorem always_unsplit_iff (active : Bool) (as : List (SwitchAction Rid)) :
    Always switchStep Unsplit (switchInit Rid active) as ↔
      EachStep switchStep Keeps (switchInit Rid active) as :=
  always_iff_eachStep (I := Inv) (fun _ _ _ hI hs => (unsplit_step_iff hI hs).2)
    (fun _ _ _ hI hs => (unsplit_step_iff hI hs).1) as (switchInit_inv Rid active)
    (switchInit_inv Rid active).unsplit

/-- A record is ended while HardLog is active. The next one is started while it is not, in the
memory of the first, and ended when it is active again: its stale pointer is freed once more. -/
theorem freed_twice :
    ∃ s, runFrom switchStep (switchInit ℕ true)
        [.start 0 ⟨none, none, 0⟩ 0 (some fun _ => 0), .format 0 [65], .finish 0, .setActive false,
          .start 1 ⟨none, some ⟨fun _ => 0, fun _ => false, []⟩, 1⟩ 0 none, .format 1 [66],
          .setActive true, .finish 1] = some s ∧ s.frees 0 = 2 ∧ ¬ Unsplit s := by
  refine ⟨_, rfl, rfl, fun h => ?_⟩
  have honce := h.freed_once 0 _ 0 rfl rfl
  exact absurd honce (by decide)

end HardLog.Host.Switch
