import HardLog.Host.ReadResponse
import HardLog.Host.Threads

/-! # Reading a response while the log is written

`bio_read_response_file` tests `hardlog_logging` before each sector and sleeps while the flusher
writes. The test and the submission are two steps, so the flusher may begin in between; but behind
that one read the reader is back at the test. `reads_le_one`: as long as the flag stays set, no more
than one read is submitted, however many sectors are left. -/

namespace HardLog.Host.Inversion

open HardLog.Lib.Runs HardLog.Host.Threads HardLog.Host.ReadResponse

/-- Where the reader is in a round of its loop. -/
inductive ReaderPc where
  | idle
  /-- In the loop that waits for `hardlog_logging` to be cleared. -/
  | test
  /-- At `submit_bio_wait`. -/
  | submit
  /-- A read is under way. -/
  | wait
  deriving DecidableEq

/-- The host, and a thread in READRESPONSE. -/
structure ReadState (Tid : Type) where
  host : HostState Tid
  reader : ReaderPc
  vars : Vars

/-- A step of the host, a call of `bio_read_response_file`, or a step of the reader. -/
inductive Act (Tid : Type) where
  | host (a : Action Tid)
  | call (data : ℕ → UInt8) (size : UInt64)
  | reader

variable {Tid : Type} [DecidableEq Tid]

/-- A step of the reader. -/
def readerStep (l : Lun) (s : ReadState Tid) : Option (ReadState Tid) :=
  match s.reader with
  | .idle => none
  | .test => if s.host.hardlogLogging then some s else some { s with reader := .submit }
  | .submit => some { s with reader := .wait }
  | .wait =>
    match l.sector s.vars.brspdeviceSector with
    | none => some { s with reader := .idle }
    | some bytes =>
      let vars := s.vars.advance bytes
      if s.vars.size ≤ 512 then some { s with reader := .idle, vars }
      else some { s with reader := .test, vars := { vars with size := s.vars.size - 512 } }

/-- A step. -/
def readStep (l : Lun) (s : ReadState Tid) : Act Tid → Option (ReadState Tid)
  | .host a => (hostStep s.host a).map fun host => { s with host }
  | .call data size =>
    match s.reader with
    | .idle => some { s with reader := .test, vars := ⟨data, size.toNat, 0, 0, []⟩ }
    | _ => none
  | .reader => readerStep l s

/-- A step that submits a read. -/
def submitsRead (s : ReadState Tid) : Act Tid → Bool
  | .reader => s.reader = .submit
  | _ => false

/-- The flusher has the flag set. -/
def Logging (s : ReadState Tid) : Prop := s.host.hardlogLogging = true

/-- The reads the reader may still submit before its next test. -/
def pending (s : ReadState Tid) : ℕ := if s.reader = .submit then 1 else 0

/-- **One step**: while the flag is set, a read is submitted only if it was pending, and none becomes
pending. -/
theorem pending_step {l : Lun} {s s' : ReadState Tid} {a : Act Tid} (h : Logging s)
    (hs : readStep l s a = some s') : (if submitsRead s a then 1 else 0) + pending s' ≤ pending s := by
  cases a with
  | host a =>
    simp only [readStep, Option.map_eq_some_iff] at hs
    obtain ⟨host, -, rfl⟩ := hs
    exact (Nat.zero_add _).le
  | call data size =>
    simp only [readStep] at hs
    split at hs
    · obtain rfl := Option.some.inj hs
      exact Nat.zero_le _
    · cases hs
  | reader =>
    simp only [readStep, readerStep] at hs
    cases hr : s.reader with
    | idle => simp [hr] at hs
    | test =>
      have hflag : s.host.hardlogLogging = true := h
      simp only [hr, hflag, if_true] at hs
      obtain rfl := Option.some.inj hs
      simp [submitsRead, hr]
    | submit =>
      simp only [hr] at hs
      obtain rfl := Option.some.inj hs
      simp [submitsRead, pending, hr]
    | wait =>
      simp only [hr] at hs
      split at hs
      · obtain rfl := Option.some.inj hs
        simp [submitsRead, pending, hr]
      · split_ifs at hs <;> obtain rfl := Option.some.inj hs <;> simp [submitsRead, pending, hr]

/-- **Priority inversion is bounded**: from any state, along any interleaving during which the flag
stays set, at most one read is submitted. -/
theorem reads_le_one (l : Lun) {s : ReadState Tid} {as : List (Act Tid)}
    (h : Always (readStep l) Logging s as) : countSteps (readStep l) submitsRead s as ≤ 1 := by
  refine (countSteps_le (fun s a s' hP hs => pending_step hP hs) h).trans ?_
  unfold pending
  split_ifs
  · exact Nat.le_refl 1
  · exact Nat.zero_le 1

/-- The reader has just passed its test for the first sector when the flusher sets the flag. -/
def slippedIn : ReadState Unit where
  host := { hostInit Unit fun _ => 0 with flusher := .write 0 0, hardlogLogging := true }
  reader := .submit
  vars := ⟨fun _ => 0, 1024, 0, 0, []⟩

/-- It submits that sector, and comes back to the test; the next one waits. -/
theorem reads_slippedIn :
    countSteps (readStep ⟨List.replicate 1024 7, 2, by rw [List.length_replicate], by decide⟩)
      submitsRead slippedIn [.reader, .reader, .reader, .host (.flusher true), .reader] ≤ 1 :=
  reads_le_one _ (.cons rfl rfl (.cons rfl rfl (.cons rfl rfl (.cons rfl rfl (.cons rfl rfl rfl)))))

end HardLog.Host.Inversion
