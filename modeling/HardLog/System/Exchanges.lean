import Mathlib
import HardLog.System.Session

/-! # Each response answers its command

`exchanged_of_reach`: whatever the order of the steps, the announced responses answer the commands in
the order in which these were sent, each once, and what the host library records are the announced responses,
byte for byte. What it takes is that a command arrives as it was sent, that no digit stands behind the
announced size, and that the copies of the two ioctls work. The invariant follows the phases of the
mailbox: the library can learn of a request only between the arrival of a command and its answer
(`exclusive_of_reach`). -/

namespace HardLog.System.Exchanges

open HardLog.Lib.CString HardLog.Lib.Memory HardLog.Lib.Runs HardLog.Lib.Printf
open HardLog.Device.Gadget (Config GadgetState HardlogIoctlRequest gadgetStep gadgetInit ioctlStep)
open HardLog.Device.Response HardLog.Device.Stale HardLog.Device.ServerRequest
open HardLog.Host.Mailbox HardLog.Host.Command HardLog.Host.ReadResponse
open HardLog.System.Session

/-! ### The condition -/

/-- A word that arrives as it was sent: no NUL, no percent sign, at most 510 bytes, and not `READY`. -/
structure Plain (command : List UInt8) : Prop where
  ne_nil : command ≠ []
  word : ∀ b ∈ command, isSpace b = false
  nul : 0 ∉ command
  percent : percent ∉ command
  length_le : command.length ≤ 510
  ne_ready : command ≠ readyWord

/-- What the two libraries rely on in a step: the commands are plain; READRESPONSE gets its memory and
copies everything, and the host library can open `response.gz`; the device's REQUEST ioctl is copied; an
announced size has no old digits behind it, and its bytes fit in the LUN. A request step of the gadget
is that of a command under way. -/
def Works (p : Setup) (s : SessionState) : SessionAction → Prop
  | .host e =>
    match s.host with
    | .prompt => e.command ≠ exitWord → Plain e.command
    | .ready _ _ => e.vmalloc.isSome = true
    | .copyToUser _ _ _ => e.uncopied = 0
    | .record _ _ => e.opens = true
    | _ => True
  | .library e =>
    match s.library with
    | .request => e.copied = true
    | .message r bytes => r.env.commOpens = true →
        Fits p.behind s.exchange (.commit true bytes) ∧ bytes ≤ 512 * s.resp.numSectors
    | _ => True
  | .gadget a => requests p.cfg s.gadget a = true → s.host = .sending false

instance (command : List UInt8) : Decidable (Plain command) :=
  decidable_of_iff (command ≠ [] ∧ (∀ b ∈ command, isSpace b = false) ∧ 0 ∉ command ∧
    percent ∉ command ∧ command.length ≤ 510 ∧ command ≠ readyWord)
    ⟨fun ⟨h1, h2, h3, h4, h5, h6⟩ => ⟨h1, h2, h3, h4, h5, h6⟩,
      fun ⟨h1, h2, h3, h4, h5, h6⟩ => ⟨h1, h2, h3, h4, h5, h6⟩⟩

instance (behind : List UInt8) (x : Exchange) (opens : Bool) (bytes : ℕ) :
    Decidable (Fits behind x (.commit opens bytes)) :=
  inferInstanceAs (Decidable (opens = true →
    ((x.polled ++ behind).drop (respMsg bytes).length).takeWhile HardLog.Lib.Decimal.isDigit = [] ∨
      bytes = 0 ∧ ∀ d ∈ ((x.polled ++ behind).drop (respMsg bytes).length).takeWhile
        HardLog.Lib.Decimal.isDigit, d = 48))

instance (p : Setup) (s : SessionState) : (a : SessionAction) → Decidable (Works p s a)
  | .host e =>
    match h : s.host with
    | .prompt => decidable_of_iff (e.command ≠ exitWord → Plain e.command) (by simp only [Works, h])
    | .ready _ _ => decidable_of_iff (e.vmalloc.isSome = true) (by simp only [Works, h])
    | .copyToUser _ _ _ => decidable_of_iff (e.uncopied = 0) (by simp only [Works, h])
    | .record _ _ => decidable_of_iff (e.opens = true) (by simp only [Works, h])
    | .sending _ | .waiting | .reading _ _ _ | .exited => isTrue (by simp only [Works, h])
  | .library e =>
    match h : s.library with
    | .request => decidable_of_iff (e.copied = true) (by simp only [Works, h])
    | .message r bytes => decidable_of_iff (r.env.commOpens = true →
        Fits p.behind s.exchange (.commit true bytes) ∧ bytes ≤ 512 * s.resp.numSectors)
        (by simp only [Works, h])
    | .check | .handle | .dump _ | .compress _ | .fopen _ | .copy _ _ | .crashed =>
      isTrue (by simp only [Works, h])
  | .gadget a =>
    match h : s.host with
    | .sending false => isTrue fun _ => h
    | .sending true | .prompt | .waiting | .ready _ _ | .reading _ _ _ | .copyToUser _ _ _ | .record _ _
    | .exited => decidable_of_iff (requests p.cfg s.gadget a = false) (by simp [Works, h])

/-! ### The invariant -/

/-- The library handles a request, or the ioctl it has called will report one. -/
def Informed (s : SessionState) : Prop :=
  match s.library with
  | .request =>
    match s.gadget.ioctl with
    | .idle => False
    | .offsets flag => flag = true
    | .copyToUser hreq => hreq.serverRequest = true
    | .test | .clear => s.hreq.serverRequest = true
  | .check => s.hreq.serverRequest = true
  | _ => True

/-- There is no request that the library could come to handle. -/
def Quiet (s : SessionState) : Prop := s.gadget.serverRequest = false ∧ ¬ Informed s

/-- The bytes are what the request has made of the log. -/
def MadeOf (compression : Bool) (r : Request) (file : List UInt8) : Prop :=
  ∃ bytes, HardLog.Device.Response.dump r = .wrote bytes ∧ stored compression r.env bytes = some file

/-- If the request makes a file and nothing fails, the bytes that were announced are that file. -/
def Own (compression : Bool) (a : Answer) : Prop :=
  Makes compression a.request → Sends a.request.env → MadeOf compression a.request a.bytes

/-- The response file begins with what was copied of `file` so far. -/
def Copied (resp file : List UInt8) (c : Copy) : Prop :=
  ∃ front, file = front ++ c.rest ∧ c.byteCount = front.length ∧
    resp.take front.length = front ∧ c.readbuf.length = bufSize ∧
    (c.rest ≠ [] → c.position = front.length)

/-- What the library has, by its place: the command is the last one sent. -/
def Serving (compression : Bool) (s : SessionState) : Prop :=
  match s.library with
  | .dump command => s.asked.getLast? = some command
  | .compress r => s.asked.getLast? = some r.command ∧ (Creates r →
      ∃ bytes, HardLog.Device.Response.dump r = .wrote bytes ∧ s.tmp = some bytes)
  | .fopen r => s.asked.getLast? = some r.command ∧ (Makes compression r →
      ∃ file, s.tmpRespFile compression = some file ∧ MadeOf compression r file)
  | .copy r c => s.asked.getLast? = some r.command ∧
      ∃ file, (Makes compression r → MadeOf compression r file) ∧ Copied s.resp.file file c
  | .message r bytes => s.asked.getLast? = some r.command ∧
      Own compression ⟨r, s.resp.file.take bytes⟩
  | _ => True

/-- What the host library has of a response of `n` bytes, by its place. -/
def Gets (s : SessionState) (n : ℕ) : Prop :=
  match s.host with
  | .prompt => s.received.length = s.answers.length
  | .sending arrived => arrived = true ∧ s.received.length + 1 = s.answers.length
  | .waiting => s.received.length + 1 = s.answers.length
  | .ready size _ => size.toNat = n ∧ s.received.length + 1 = s.answers.length
  | .reading size _ v => size.toNat = n ∧ s.received.length + 1 = s.answers.length ∧
      ∃ j, AtHead s.resp n j v
  | .copyToUser size _ responseBuffer => size.toNat = n ∧
      s.received.length + 1 = s.answers.length ∧ slice responseBuffer 0 n = s.resp.file.take n
  | .record size data => size.toNat = n ∧ s.received.length + 1 = s.answers.length ∧
      slice data 0 n = s.resp.file.take n
  | .exited => s.answers.length ≤ s.received.length + 1

/-- The phases of an exchange: nothing asked, asked, answered. -/
def Stage (s : SessionState) : Prop :=
  match s.exchange.phase with
  | .idle => Quiet s ∧ s.answers = [] ∧ s.asked = [] ∧ (s.host = .prompt ∨ s.host = .exited)
  | .requested => s.answers.length + 1 = s.asked.length ∧ s.received.length = s.answers.length ∧
      s.asked.getLast? = some (handleCommandLine s.exchange.comm) ∧
      (s.host = .sending false ∧ Quiet s ∨ s.host = .sending true ∨ s.host = .waiting)
  | .committed n => Quiet s ∧ s.answers.length = s.asked.length ∧ n ≤ 512 * s.resp.numSectors ∧
      (s.answers.map Answer.bytes).getLast? = some (s.resp.file.take n) ∧ Gets s n

structure Inv (p : Setup) (s : SessionState) : Prop where
  agrees : Agrees p.behind s.exchange
  idle : s.library ≠ .request → s.gadget.ioctl = .idle
  once : s.library ≠ .request → Informed s → s.gadget.serverRequest = false
  serving : Serving p.compression s
  stage : Stage s
  commands : s.answers.map (fun a => a.request.command) <+: s.asked
  responses : s.received <+: s.answers.map Answer.bytes
  own : ∀ a ∈ s.answers, Own p.compression a

/-- No request has come yet, and no poll is under way. -/
structure Fresh (g : GadgetState) (exchange : Exchange) : Prop where
  serverRequest : g.serverRequest = false
  ioctl : g.ioctl = .idle
  phase : exchange.phase = .idle

theorem sessionInit_inv (p : Setup) {g : GadgetState} {exchange : Exchange} (h : Fresh g exchange)
    (tmp gz : Option (List UInt8)) (resp : Lun) :
    Inv p (sessionInit g exchange tmp gz resp) where
  agrees := by
    have hp : (sessionInit g exchange tmp gz resp).exchange.phase = .idle := h.phase
    unfold Agrees
    rw [hp]
    trivial
  idle := fun _ => h.ioctl
  once := fun hne => absurd rfl hne
  serving := trivial
  stage := by
    have hp : (sessionInit g exchange tmp gz resp).exchange.phase = .idle := h.phase
    have hi : ¬ Informed (sessionInit g exchange tmp gz resp) := by
      simp only [Informed, sessionInit, h.ioctl, not_false_eq_true]
    unfold Stage
    rw [hp]
    exact ⟨⟨h.serverRequest, hi⟩, rfl, rfl, Or.inl rfl⟩
  commands := List.nil_prefix
  responses := List.nil_prefix
  own := fun _ ha => absurd ha List.not_mem_nil

/-! ### Lists -/

/-- A prefix that is one shorter is completed by the last entry. -/
theorem prefix_concat {α : Type*} {l m : List α} {x : α} (h : l <+: m) (hlen : l.length + 1 = m.length)
    (hx : m.getLast? = some x) : l ++ [x] = m := by
  obtain ⟨t, rfl⟩ := h
  obtain ⟨y, rfl⟩ : ∃ y, t = [y] := List.length_eq_one_iff.mp (by simpa using hlen.symm)
  rw [List.getLast?_concat] at hx
  rw [Option.some.inj hx]

/-! ### The way there -/

section Send

variable {p : Setup} {s : SessionState}

theorem Plain.isCommand {command : List UInt8} (h : Plain command) : IsCommand command where
  nul := h.nul
  newline := fun h10 => absurd (h.word 10 h10) (by decide)
  length_le := h.length_le

theorem Plain.rendered {command : List UInt8} (h : Plain command) (x : Exchange)
    (arg : ℕ → List UInt8 → List UInt8) :
    vsprintf arg (cstr (x.hreqData.snprintf (cstr command ++ [10])).bytes) = command ++ [10] := by
  have hplain : HardLog.Lib.Printf.percent ∉ command ++ [10] := by
    rw [List.mem_append, List.mem_singleton, not_or]
    exact ⟨h.percent, by decide⟩
  rw [format_eq h.isCommand]
  exact render_plain (Nat.le_refl _) hplain

theorem firstWord_line {command rest : List UInt8} (hne : command ≠ [])
    (hword : ∀ b ∈ command, isSpace b = false) : firstWord (command ++ 10 :: rest) = command := by
  obtain ⟨c, cs, rfl⟩ := List.exists_cons_of_ne_nil hne
  have hc : isSpace c = false := hword c List.mem_cons_self
  have hdrop : (c :: cs ++ 10 :: rest).dropWhile isSpace = c :: cs ++ 10 :: rest := by
    rw [List.cons_append, List.dropWhile_cons_of_neg (by simp [hc])]
  have hall : ∀ b ∈ c :: cs, (!isSpace b) = true := fun b hb => by simp [hword b hb]
  rw [firstWord, hdrop, List.takeWhile_append_of_pos hall, List.takeWhile_cons_of_neg (by decide),
    List.append_nil]

/-- **A command is sent**: the device will read it, and nothing is ready. -/
theorem Plain.agrees_send {command : List UInt8} (h : Plain command) (hexit : command ≠ exitWord)
    (arg : ℕ → List UInt8 → List UInt8) {x : Exchange} (hx : Agrees p.behind x)
    (hphase : x.phase ≠ .requested) : Agrees p.behind (send arg x command) := by
  have hrendered := h.rendered x arg
  have hline := format_eq h.isCommand x
  have hsend : Sendable x command
      (vsprintf arg (cstr (x.hreqData.snprintf (cstr command ++ [10])).bytes)) :=
    ⟨h.ne_nil, h.word, hexit, fun _ => by rw [hrendered, hline]⟩
  refine (agrees_iff hx (a := .sendRequest command _) (if_pos ⟨hphase, hsend⟩)).mpr ?_
  have hlen := h.length_le
  have hcstr : cstr (command ++ [10]) = command ++ [10] :=
    cstr_append (fun b hb h0 => h.nul (h0 ▸ hb)) [10]
  rw [Fits, hrendered, List.take_of_length_le (by simp; omega), hcstr, firstWord_line h.ne_nil h.word]
  exact h.ne_ready

end Send

/-! ### Steps of the gadget -/

section Gadget

variable {cfg : Config} {g g' : GadgetState} {a : HardLog.Device.Gadget.Action}

theorem leaves_of_step (ha : ∀ copied, a ≠ .ioctl copied) (hs : gadgetStep cfg g a = some g') :
    Leaves cfg g g' a := by
  cases a with
  | command common reply =>
    simp only [gadgetStep] at hs
    split at hs
    · obtain ⟨-, hs⟩ := Option.ite_none_right_eq_some.mp hs
      obtain rfl := Option.some.inj hs
      exact ⟨rfl, rfl, Or.inl rfl⟩
    · cases hs
  | main env => exact mainStep_leaves hs
  | complete i buf status actual =>
    simp only [gadgetStep] at hs
    split at hs
    · obtain rfl := Option.some.inj hs
      exact ⟨rfl, rfl, Or.inl rfl⟩
    · cases hs
  | flusher len =>
    simp only [gadgetStep, Option.map_eq_some_iff] at hs
    obtain ⟨store, -, rfl⟩ := hs
    exact ⟨rfl, rfl, Or.inl rfl⟩
  | ioctl copied => exact absurd rfl (ha copied)

theorem requests_of_requests (h : Requests cfg g a) : requests cfg g a = true := by
  cases a with
  | main env =>
    obtain ⟨hmain, hret, hend, curlun, hcur, hname⟩ := h
    simp [requests, hmain, hcur, hret, hend, hname]
  | _ => exact h.elim

theorem gadget_cases {p : Setup} {s s' : SessionState} (hs : sessionStep p s (.gadget a) = some s') :
    (∀ copied, a ≠ .ioctl copied) ∧ ∃ gadget, gadgetStep p.cfg s.gadget a = some gadget ∧
      s' = { s with
        gadget
        host := if requests p.cfg s.gadget a then s.host.arrive else s.host } := by
  cases a with
  | ioctl copied => cases hs
  | _ =>
    simp only [sessionStep, Option.map_eq_some_iff] at hs
    obtain ⟨gadget, hstep, rfl⟩ := hs
    exact ⟨fun copied h => (by cases h), gadget, hstep, rfl⟩

end Gadget

section Stages

variable {s : SessionState}

theorem stage_requested (h : s.exchange.phase = .requested) :
    Stage s ↔ s.answers.length + 1 = s.asked.length ∧ s.received.length = s.answers.length ∧
      s.asked.getLast? = some (handleCommandLine s.exchange.comm) ∧
      (s.host = .sending false ∧ Quiet s ∨ s.host = .sending true ∨ s.host = .waiting) := by
  unfold Stage
  rw [h]

theorem stage_committed {n : ℕ} (h : s.exchange.phase = .committed n) :
    Stage s ↔ Quiet s ∧ s.answers.length = s.asked.length ∧ n ≤ 512 * s.resp.numSectors ∧
      (s.answers.map Answer.bytes).getLast? = some (s.resp.file.take n) ∧ Gets s n := by
  unfold Stage
  rw [h]

theorem stage_idle (h : s.exchange.phase = .idle) :
    Stage s ↔ Quiet s ∧ s.answers = [] ∧ s.asked = [] ∧ (s.host = .prompt ∨ s.host = .exited) := by
  unfold Stage
  rw [h]

theorem Stage.sending (h : Stage s) (hhost : s.host = .sending false) :
    s.exchange.phase = .requested ∧ Quiet s := by
  cases hphase : s.exchange.phase with
  | idle =>
    rw [stage_idle hphase, hhost] at h
    simp at h
  | requested =>
    rw [stage_requested hphase, hhost] at h
    simp at h
    exact ⟨rfl, h.2.2.2⟩
  | committed n =>
    rw [stage_committed hphase] at h
    simp [Gets, hhost] at h

/-- Who knows of a request is all that the phases have to do with the device. -/
theorem Stage.congr (h : Stage s) {gadget : GadgetState} {hreq : HardlogIoctlRequest}
    {library : LibraryPc} (hq : Quiet s → Quiet { s with gadget, hreq, library }) :
    Stage { s with gadget, hreq, library } := by
  unfold Stage at h ⊢
  cases hphase : s.exchange.phase with
  | requested =>
    simp only [hphase] at h ⊢
    exact ⟨h.1, h.2.1, h.2.2.1, h.2.2.2.imp_left fun hs => ⟨hs.1, hq hs.2⟩⟩
  | _ =>
    simp only [hphase] at h ⊢
    exact ⟨hq h.1, h.2⟩

end Stages

section Steps

variable {p : Setup} {s s' : SessionState} (h : Inv p s)
include h

/-- **A step of the gadget** leaves the libraries alone, or brings the request. -/
theorem Inv.gadget_step {a : HardLog.Device.Gadget.Action} (hw : Works p s (.gadget a))
    (hs : sessionStep p s (.gadget a) = some s') : Inv p s' := by
  obtain ⟨ha, gadget, hstep, rfl⟩ := gadget_cases hs
  have hl := leaves_of_step ha hstep
  have hinformed : ∀ host, Informed { s with gadget, host } ↔ Informed s := by
    intro host
    simp only [Informed, hl.ioctl]
  by_cases hreq : requests p.cfg s.gadget a = true
  · have hhost := hw hreq
    obtain ⟨hphase, hquiet⟩ := h.stage.sending hhost
    simp only [hreq, if_true, hhost, HostPc.arrive]
    refine ⟨h.agrees, fun hne => hl.ioctl.trans (h.idle hne), fun hne hi => ?_, h.serving, ?_,
      h.commands, h.responses, h.own⟩
    · exact absurd ((hinformed _).mp hi) hquiet.2
    · have hst := (stage_requested hphase).mp h.stage
      refine (stage_requested ?_).mpr ⟨hst.1, hst.2.1, hst.2.2.1, Or.inr (Or.inl rfl)⟩
      exact hphase
  · have hflag : gadget.serverRequest = s.gadget.serverRequest := by
      rcases hl.flag with hsame | ⟨-, hreqs⟩
      · exact hsame
      · exact absurd (requests_of_requests hreqs) hreq
    simp only [hreq, Bool.false_eq_true, if_false]
    refine ⟨h.agrees, fun hne => hl.ioctl.trans (h.idle hne), fun hne hi => ?_, h.serving, ?_,
      h.commands, h.responses, h.own⟩
    · exact hflag.trans (h.once hne ((hinformed _).mp hi))
    · exact h.stage.congr fun hq => ⟨hflag.trans hq.1, fun hi => hq.2 ((hinformed _).mp hi)⟩

end Steps

/-! ### Steps of the ioctl -/

/-- What a step of the ioctl can do. -/
structure Polls (s s' : SessionState) : Prop where
  frame : s' = { s with gadget := s'.gadget, hreq := s'.hreq, library := s'.library }
  library : s'.library = .request ∨ s'.library = .check
  informed : Informed s' → Informed s ∨ s.gadget.serverRequest = true
  flag : s'.gadget.serverRequest = true → s.gadget.serverRequest = true
  idle : s'.library ≠ .request → s'.gadget.ioctl = .idle
  once : s'.library ≠ .request → s'.gadget.serverRequest = false

/-- **The ioctl** reports no request that there is not, and returns with the flag cleared. -/
theorem requestStep_polls {s : SessionState} (hlib : s.library = .request) :
    Polls s (requestStep true s) := by
  cases hio : s.gadget.ioctl with
  | idle => constructor <;> simp [requestStep, ioctlStep, hio, hlib, Informed]
  | offsets | copyToUser | clear =>
    constructor <;> simp +contextual [requestStep, ioctlStep, hio, hlib, Informed]
  | test =>
    by_cases hflag : s.gadget.serverRequest = true
    · constructor <;> simp [requestStep, ioctlStep, hio, hlib, Informed, hflag]
    · rw [Bool.not_eq_true] at hflag
      constructor <;> simp [requestStep, ioctlStep, hio, hlib, Informed, hflag]

theorem Polls.quiet {s s' : SessionState} (h : Polls s s') (hq : Quiet s) : Quiet s' := by
  obtain ⟨hflag, hi⟩ := hq
  constructor
  · by_contra hset
    rw [Bool.not_eq_false] at hset
    rw [h.flag hset] at hflag
    cases hflag
  · intro hi'
    rcases h.informed hi' with hold | hset
    · exact hi hold
    · rw [hset] at hflag
      cases hflag

/-! ### Steps of the device library -/

theorem Copied.step {resp file : List UInt8} {c : Copy} (h : Copied resp file c)
    (hchunk : c.rest.take bufSize ≠ []) :
    Copied (writeAt resp c.position c.round.readbuf) file c.round := by
  obtain ⟨front, hfile, hcount, htake, hbuf, hpos⟩ := h
  have hposition : c.position = front.length :=
    hpos fun hnil => hchunk (by rw [hnil, List.take_nil])
  have hlen : (c.rest.take bufSize).length ≤ bufSize := by
    rw [List.length_take]
    exact Nat.min_le_left _ _
  have hreadbuf : c.round.readbuf.length = bufSize := by
    rw [Copy.round, List.length_append, List.length_drop, hbuf]
    omega
  refine ⟨front ++ c.rest.take bufSize, ?_, ?_, ?_, hreadbuf, fun hmore => ?_⟩
  · simp only [Copy.round, List.append_assoc, List.take_append_drop]
    exact hfile
  · simp only [Copy.round, List.length_append, hcount]
  · rw [writeAt, hposition, htake, Copy.round, List.append_assoc, List.append_assoc,
      List.length_append, List.take_length_add_append, List.take_left]
  · -- there is more behind a full chunk only
    have hfull : (c.rest.take bufSize).length = bufSize := by
      have := List.length_pos_of_ne_nil hmore
      simp only [Copy.round, List.length_drop] at this
      rw [List.length_take]
      omega
    have hnext : c.round.position = c.position + c.round.readbuf.length := rfl
    rw [hnext, hposition, hreadbuf, List.length_append, hfull]

theorem Copied.done {resp file : List UInt8} {c : Copy} (h : Copied resp file c)
    (hchunk : c.rest.take bufSize = []) : resp.take c.byteCount = file := by
  obtain ⟨front, hfile, hcount, htake, -, -⟩ := h
  have hrest : c.rest = [] := by
    simpa [Nat.pos_iff_ne_zero.mp bufSize_pos] using List.take_eq_nil_iff.mp hchunk
  rw [hcount, htake, hfile, hrest, List.append_nil]

section Library

variable {p : Setup} {s s' : SessionState} (h : Inv p s)
include h

theorem Inv.polls (hp : Polls s s') : Inv p s' := by
  obtain ⟨gadget, hreq, library, rfl⟩ :
      ∃ gadget hreq library, s' = { s with gadget, hreq, library } := ⟨_, _, _, hp.frame⟩
  refine ⟨h.agrees, hp.idle, fun hne _ => hp.once hne, ?_, h.stage.congr hp.quiet, h.commands,
    h.responses, h.own⟩
  unfold Serving
  rcases hp.library with hlib | hlib <;> rw [hlib] <;> trivial

/-- **A request that is known of** is that of the last command, which has no answer yet. -/
theorem Inv.informed (hi : Informed s) : s.exchange.phase = .requested ∧
    s.answers.length + 1 = s.asked.length ∧ s.received.length = s.answers.length ∧
      s.asked.getLast? = some (handleCommandLine s.exchange.comm) ∧
      (s.host = .sending true ∨ s.host = .waiting) := by
  have hst := h.stage
  cases hphase : s.exchange.phase with
  | idle => exact absurd hi ((stage_idle hphase).mp hst).1.2
  | requested =>
    obtain ⟨h1, h2, h3, h4⟩ := (stage_requested hphase).mp hst
    exact ⟨rfl, h1, h2, h3, h4.resolve_left fun hq => hq.2.2 hi⟩
  | committed n => exact absurd hi ((stage_committed hphase).mp hst).1.2

theorem Inv.handling (hne : s.library ≠ .request) (hi : Informed s) {library : LibraryPc}
    {tmp gz : Option (List UInt8)} {resp : Lun}
    (hserving : Serving p.compression { s with library, tmp, gz, resp }) :
    Inv p { s with library, tmp, gz, resp } := by
  obtain ⟨hphase, h1, h2, h3, h4⟩ := h.informed hi
  refine ⟨h.agrees, fun _ => h.idle hne, fun _ _ => h.once hne hi, hserving, ?_, h.commands,
    h.responses, h.own⟩
  refine (stage_requested ?_).mpr ⟨h1, h2, h3, Or.inr h4⟩
  exact hphase

theorem Inv.check (hlib : s.library = .check) (hs : s' = if s.hreq.serverRequest then
    { s with library := .handle } else { s with library := .request }) : Inv p s' := by
  subst hs
  have hne : s.library ≠ .request := by rw [hlib]; simp
  by_cases hreq : s.hreq.serverRequest = true
  · rw [if_pos hreq]
    have hi : Informed s := by
      simp only [Informed, hlib]
      exact hreq
    exact h.handling hne hi trivial
  · rw [if_neg hreq]
    have hidle := h.idle hne
    refine ⟨h.agrees, fun hne' => absurd rfl hne', fun hne' => absurd rfl hne', trivial, ?_,
      h.commands, h.responses, h.own⟩
    exact h.stage.congr fun hq => ⟨hq.1, by simp [Informed, hidle]⟩

theorem Inv.dump {command : List UInt8} (hlib : s.library = .dump command) {r : Request}
    (hr : r.command = command)
    (hs : some s' = match HardLog.Device.Response.dump r with
      | .kept => some { s with library := .compress r }
      | .wrote bytes => some { s with library := .compress r, tmp := some bytes }
      | .crashed => some { s with library := .crashed }) : Inv p s' := by
  have hne : s.library ≠ .request := by simp [hlib]
  have hi : Informed s := by simp [Informed, hlib]
  have hlast : s.asked.getLast? = some r.command := by
    have := h.serving
    rw [Serving, hlib] at this
    rw [hr]
    exact this
  cases hdump : HardLog.Device.Response.dump r with
  | kept =>
    simp only [hdump, Option.some.injEq] at hs
    subst hs
    refine h.handling hne hi ⟨hlast, fun hc => ?_⟩
    obtain ⟨bytes, hb⟩ := (dump_eq_wrote_iff r).mpr hc
    rw [hdump] at hb
    cases hb
  | wrote bytes =>
    simp only [hdump, Option.some.injEq] at hs
    subst hs
    exact h.handling hne hi ⟨hlast, fun _ => ⟨bytes, hdump, rfl⟩⟩
  | crashed =>
    simp only [hdump, Option.some.injEq] at hs
    subst hs
    exact h.handling hne hi trivial

theorem Inv.compress {r : Request} (hlib : s.library = .compress r)
    (hs : some s' = if p.compression then
      some { s with library := .fopen r, gz := commitCompress r.env s.tmp s.gz }
      else some { s with library := .fopen r }) : Inv p s' := by
  have hne : s.library ≠ .request := by simp [hlib]
  have hi : Informed s := by simp [Informed, hlib]
  have hserving := h.serving
  rw [Serving, hlib] at hserving
  obtain ⟨hlast, hcreates⟩ := hserving
  by_cases hcomp : p.compression = true
  · rw [if_pos hcomp] at hs
    obtain rfl := Option.some.inj hs
    refine h.handling hne hi ⟨hlast, fun hmakes => ?_⟩
    obtain ⟨bytes, hdump, htmp⟩ := hcreates hmakes.1
    obtain ⟨pigz, hpigz⟩ := Option.isSome_iff_exists.mp (hmakes.2 hcomp)
    refine ⟨pigz.compress bytes, ?_, bytes, hdump, ?_⟩
    · simp [SessionState.tmpRespFile, hcomp, commitCompress, hpigz, htmp]
    · simp [stored, hcomp, hpigz]
  · rw [if_neg hcomp] at hs
    obtain rfl := Option.some.inj hs
    refine h.handling hne hi ⟨hlast, fun hmakes => ?_⟩
    obtain ⟨bytes, hdump, htmp⟩ := hcreates hmakes.1
    refine ⟨bytes, ?_, bytes, hdump, ?_⟩
    · simp [SessionState.tmpRespFile, hcomp, htmp]
    · simp [stored, hcomp]

theorem Inv.fopen {r : Request} (hlib : s.library = .fopen r)
    (hs : some s' = match s.tmpRespFile p.compression with
      | none => some { s with library := .message r 0 }
      | some file =>
        if r.env.tmpReopens && r.env.respOpens && r.env.readbuf then
          some { s with library := .copy r ⟨List.replicate bufSize 0, file, 0, 0⟩ }
        else some { s with library := .message r 0 }) : Inv p s' := by
  have hne : s.library ≠ .request := by simp [hlib]
  have hi : Informed s := by simp [Informed, hlib]
  have hserving := h.serving
  rw [Serving, hlib] at hserving
  obtain ⟨hlast, hmade⟩ := hserving
  cases hfile : s.tmpRespFile p.compression with
  | none =>
    simp only [hfile, Option.some.injEq] at hs
    subst hs
    refine h.handling hne hi ⟨hlast, fun hmakes _ => ?_⟩
    obtain ⟨file, htmp, -⟩ := hmade hmakes
    rw [hfile] at htmp
    cases htmp
  | some file =>
    simp only [hfile] at hs
    by_cases hopens : (r.env.tmpReopens && r.env.respOpens && r.env.readbuf) = true
    · rw [if_pos hopens] at hs
      obtain rfl := Option.some.inj hs
      refine h.handling hne hi ⟨hlast, file, fun hmakes => ?_, [], rfl, rfl, rfl,
        List.length_replicate .., fun _ => rfl⟩
      obtain ⟨file', htmp, hmadeOf⟩ := hmade hmakes
      rw [hfile] at htmp
      rwa [Option.some.inj htmp]
    · rw [if_neg hopens] at hs
      obtain rfl := Option.some.inj hs
      refine h.handling hne hi ⟨hlast, fun _ hsends => ?_⟩
      obtain ⟨h1, h2, h3, -⟩ : Sends r.env := hsends
      simp [h1, h2, h3] at hopens

theorem Inv.copy {r : Request} {c : Copy} (hlib : s.library = .copy r c) :
    Inv p (copyStep s r c) := by
  have hne : s.library ≠ .request := by simp [hlib]
  have hi : Informed s := by simp [Informed, hlib]
  have hserving := h.serving
  rw [Serving, hlib] at hserving
  obtain ⟨hlast, file, hmade, hcopied⟩ := hserving
  unfold copyStep
  by_cases hchunk : c.rest.take bufSize = []
  · simp only [if_pos hchunk]
    refine h.handling hne hi ⟨hlast, fun hmakes _ => ?_⟩
    rw [hcopied.done hchunk]
    exact hmade hmakes
  · simp only [if_neg hchunk]
    exact h.handling hne hi ⟨hlast, file, hmade, hcopied.step hchunk⟩

theorem Inv.message {r : Request} {bytes : ℕ} (hlib : s.library = .message r bytes)
    (hw : r.env.commOpens = true →
      Fits p.behind s.exchange (.commit true bytes) ∧ bytes ≤ 512 * s.resp.numSectors)
    (hs : some s' = if r.env.commOpens then
      some
        { s with
          library := .request
          exchange := s.exchange.commit true bytes
          answers := s.answers ++ [⟨r, s.resp.file.take bytes⟩] }
      else some { s with library := .request }) : Inv p s' := by
  have hne : s.library ≠ .request := by simp [hlib]
  have hi : Informed s := by simp [Informed, hlib]
  have hserving := h.serving
  rw [Serving, hlib] at hserving
  obtain ⟨hlast, hown⟩ := hserving
  obtain ⟨hphase, h1, h2, h3, h4⟩ := h.informed hi
  by_cases hopens : r.env.commOpens = true
  swap
  · rw [if_neg hopens] at hs
    obtain rfl := Option.some.inj hs
    exact h.handling hne hi trivial
  rw [if_pos hopens] at hs
  obtain rfl := Option.some.inj hs
  obtain ⟨hfits, hle⟩ := hw hopens
  have hlt : bytes < 2 ^ 64 := by
    have := s.resp.lt
    omega
  have hquiet : ∀ exchange answers,
      Quiet { s with library := .request, exchange, answers } := fun _ _ =>
    ⟨h.once hne hi, by simp [Informed, h.idle hne]⟩
  have hcommands : (s.answers ++ [(⟨r, s.resp.file.take bytes⟩ : Answer)]).map
      (fun a => a.request.command) = s.asked := by
    rw [List.map_append]
    exact prefix_concat h.commands (by rw [List.length_map]; exact h1) hlast
  refine ⟨(agrees_iff h.agrees (exchangeStep_commit hphase hlt)).mpr hfits,
    fun hne' => absurd rfl hne', fun hne' => absurd rfl hne', trivial, ?_,
    hcommands ▸ List.prefix_refl _, ?_, ?_⟩
  · refine (stage_committed (n := bytes) rfl).mpr ⟨hquiet _ _, ?_, hle, ?_, ?_⟩
    · rw [List.length_append, List.length_singleton, h1]
    · rw [List.map_append, List.map_singleton, List.getLast?_concat]
    · have hlen : s.received.length + 1 =
          (s.answers ++ [(⟨r, s.resp.file.take bytes⟩ : Answer)]).length := by
        rw [List.length_append, List.length_singleton, h2]
      rcases h4 with hhost | hhost <;> simp only [Gets, hhost]
      · exact ⟨trivial, hlen⟩
      · exact hlen
  · rw [List.map_append]
    exact h.responses.trans (List.prefix_append _ _)
  · intro a ha
    rcases List.mem_append.mp ha with ha | ha
    · exact h.own a ha
    · rw [List.mem_singleton.mp ha]
      exact hown

theorem Inv.library_step {e : LibraryEnv} (hw : Works p s (.library e))
    (hs : libraryStep p.compression e s = some s') : Inv p s' := by
  unfold libraryStep at hs
  unfold Works at hw
  cases hlib : s.library with
  | request =>
    simp only [hlib] at hs hw
    rw [hw] at hs
    obtain rfl := Option.some.inj hs
    exact h.polls (requestStep_polls hlib)
  | check =>
    simp only [hlib] at hs
    refine h.check hlib ?_
    split_ifs at hs ⊢ <;> exact (Option.some.inj hs).symm
  | handle =>
    simp only [hlib] at hs
    have hne : s.library ≠ .request := by simp [hlib]
    have hi : Informed s := by simp [Informed, hlib]
    split_ifs at hs <;> obtain rfl := Option.some.inj hs
    · exact h.handling hne hi (h.informed hi).2.2.2.1
    · exact h.handling hne hi trivial
  | dump command =>
    simp only [hlib] at hs
    exact h.dump hlib rfl hs.symm
  | compress r =>
    simp only [hlib] at hs
    exact h.compress hlib hs.symm
  | fopen r =>
    simp only [hlib] at hs
    exact h.fopen hlib hs.symm
  | copy r c =>
    simp only [hlib] at hs
    obtain rfl := Option.some.inj hs
    exact h.copy hlib
  | message r bytes =>
    simp only [hlib] at hs hw
    exact h.message hlib hw hs.symm
  | crashed =>
    simp only [hlib] at hs
    cases hs

end Library

/-! ### Steps of the host library -/

section Host

variable {p : Setup} {s s' : SessionState}

/-- At the prompt all is answered and recorded. -/
theorem Inv.prompt (h : Inv p s) (hhost : s.host = .prompt) : s.exchange.phase ≠ .requested ∧
    Quiet s ∧ s.answers.length = s.asked.length ∧ s.received.length = s.answers.length := by
  have hst := h.stage
  cases hphase : s.exchange.phase with
  | idle =>
    obtain ⟨hq, h1, h2, -⟩ := (stage_idle hphase).mp hst
    have hresponses := h.responses
    rw [h1, List.map_nil, List.prefix_nil] at hresponses
    rw [h1, h2, hresponses]
    exact ⟨by simp, hq, rfl, rfl⟩
  | requested =>
    have h4 := ((stage_requested hphase).mp hst).2.2.2
    simp [hhost] at h4
  | committed n =>
    obtain ⟨hq, h1, -, -, h4⟩ := (stage_committed hphase).mp hst
    simp only [Gets, hhost] at h4
    exact ⟨by simp, hq, h1, h4⟩

theorem Inv.reads (h : Inv p s) (hprompt : s.host ≠ .prompt) (hexited : s.host ≠ .exited)
    (hsending : ∀ arrived, s.host ≠ .sending arrived) (hwaiting : s.host ≠ .waiting) :
    ∃ n, s.exchange.phase = .committed n ∧ Quiet s ∧ s.answers.length = s.asked.length ∧
      n ≤ 512 * s.resp.numSectors ∧
      (s.answers.map Answer.bytes).getLast? = some (s.resp.file.take n) ∧ Gets s n := by
  have hst := h.stage
  cases hphase : s.exchange.phase with
  | idle =>
    have h4 := ((stage_idle hphase).mp hst).2.2.2
    exact absurd h4 (not_or.mpr ⟨hprompt, hexited⟩)
  | requested =>
    have h4 := ((stage_requested hphase).mp hst).2.2.2
    rcases h4 with ⟨h4, -⟩ | h4 | h4
    · exact absurd h4 (hsending _)
    · exact absurd h4 (hsending _)
    · exact absurd h4 hwaiting
  | committed n => exact ⟨n, rfl, (stage_committed hphase).mp hst⟩

theorem Inv.reading (h : Inv p s) {n : ℕ} (hphase : s.exchange.phase = .committed n) {host : HostPc}
    (hgets : Gets { s with host } n) : Inv p { s with host } := by
  obtain ⟨hq, h1, h2, h3, -⟩ := (stage_committed hphase).mp h.stage
  refine ⟨h.agrees, h.idle, h.once, h.serving, ?_, h.commands, h.responses, h.own⟩
  refine (stage_committed ?_).mpr ⟨hq, h1, h2, h3, hgets⟩
  exact hphase

theorem Inv.command (h : Inv p s) (hhost : s.host = .prompt) {e : HostEnv}
    (hexit : e.command ≠ exitWord) (hplain : Plain e.command) :
    Inv p { s with
      host := .sending false
      exchange := send e.arg s.exchange e.command
      asked := s.asked ++ [e.command] } := by
  obtain ⟨hphase, hq, h1, h2⟩ := h.prompt hhost
  have hserving : Serving p.compression { s with
      host := .sending false
      exchange := send e.arg s.exchange e.command
      asked := s.asked ++ [e.command] } := by
    have hlib := hq.2
    unfold Serving
    unfold Informed at hlib
    cases hpc : s.library with
    | dump | compress | fopen | copy | message => simp [hpc] at hlib
    | _ => trivial
  refine ⟨hplain.agrees_send hexit e.arg h.agrees hphase, h.idle, h.once, hserving, ?_,
    h.commands.trans (List.prefix_append _ _), h.responses, h.own⟩
  refine (stage_requested rfl).mpr ⟨?_, h2, ?_, Or.inl ⟨rfl, hq⟩⟩
  · rw [List.length_append, List.length_singleton, h1]
  · rw [List.getLast?_concat, line_eq hplain.isCommand s.exchange e.arg hplain.percent]

/-- **A poll** finds the size of the response that was announced, or nothing. -/
theorem Inv.poll (h : Inv p s) (hhost : s.host = .waiting) (malloc : Option (ℕ → UInt8)) :
    Inv p (pollStep p.behind malloc s) := by
  have hagrees : Agrees p.behind s.exchange.checkResponseReady :=
    (agrees_iff h.agrees (a := .checkResponseReady) rfl).mpr trivial
  have hst := h.stage
  have hag := h.agrees
  have hpolled : s.exchange.checkResponseReady.hreqData.bytes = s.exchange.polled := rfl
  unfold pollStep
  simp only [hpolled]
  cases hphase : s.exchange.phase with
  | idle =>
    have h4 := ((stage_idle hphase).mp hst).2.2.2
    simp [hhost] at h4
  | requested =>
    rw [Agrees, hphase] at hag
    rw [if_neg (by rw [hag]; simp)]
    refine ⟨hagrees, h.idle, h.once, h.serving, ?_, h.commands, h.responses, h.own⟩
    obtain ⟨h1, h2, h3, h4⟩ := (stage_requested hphase).mp hst
    refine (stage_requested ?_).mpr ⟨h1, h2, h3, h4⟩
    exact hphase
  | committed n =>
    rw [Agrees, hphase] at hag
    obtain ⟨hq, h1, h2, h3, h4⟩ := (stage_committed hphase).mp hst
    simp only [Gets, hhost] at h4
    rw [if_pos hag.1, hag.2]
    have hlt : n < 2 ^ 64 := by
      have := s.resp.lt
      omega
    cases malloc with
    | none =>
      refine ⟨hagrees, h.idle, h.once, h.serving, ?_, h.commands, h.responses, h.own⟩
      refine (stage_committed ?_).mpr ⟨hq, h1, h2, h3, h4.ge⟩
      exact hphase
    | some data =>
      refine ⟨hagrees, h.idle, h.once, h.serving, ?_, h.commands, h.responses, h.own⟩
      refine (stage_committed ?_).mpr ⟨hq, h1, h2, h3, ?_, h4⟩
      · exact hphase
      · rw [UInt64.toNat_ofNat', Nat.mod_eq_of_lt hlt]

/-- **A sector**: the loop goes on with the next one, or all that was asked for is in the buffer. -/
theorem Inv.sector (h : Inv p s) {size : UInt64} {data : ℕ → UInt8}
    {v : HardLog.Host.ReadResponse.Vars} (hhost : s.host = .reading size data v)
    (hs : some s' = match s.resp.sector v.brspdeviceSector with
      | none => some { s with host := .copyToUser size data v.data }
      | some bytes =>
        if v.size ≤ 512 then some { s with host := .copyToUser size data (v.advance bytes).data }
        else some { s with
          host := .reading size data { v.advance bytes with size := v.size - 512 } }) :
    Inv p s' := by
  obtain ⟨n, hphase, -, -, hle, -, hgets⟩ :=
    h.reads (by simp [hhost]) (by simp [hhost]) (by simp [hhost]) (by simp [hhost])
  simp only [Gets, hhost] at hgets
  obtain ⟨hsize, hlen, j, hat⟩ := hgets
  have htotal := hat.size
  rw [hat.sector, Lun.sector] at hs
  by_cases hj : j < s.resp.numSectors
  swap
  · -- nothing was asked for
    have hn : n = 0 := by
      have := hat.more
      omega
    rw [if_neg hj] at hs
    obtain rfl := Option.some.inj hs
    exact h.reading hphase ⟨hsize, hlen, by rw [hn]; rfl⟩
  obtain ⟨hdata, hstored⟩ := hat.advance hj
  rw [if_pos hj] at hs
  simp only at hs
  by_cases hlast : v.size ≤ 512
  · rw [if_pos hlast] at hs
    obtain rfl := Option.some.inj hs
    refine h.reading hphase ⟨hsize, hlen, ?_⟩
    have htake := congrArg (List.take n) hdata
    rwa [take_slice, List.take_take, Nat.min_eq_left (by omega)] at htake
  · rw [if_neg hlast] at hs
    obtain rfl := Option.some.inj hs
    refine h.reading hphase ⟨hsize, hlen, j + 1, hdata, ?_, Or.inr ?_, ?_, ?_, hstored⟩
    · simp only
      omega
    · simp only
      omega
    · simp only [HardLog.Host.ReadResponse.Vars.advance, hat.read]
      omega
    · simp only [HardLog.Host.ReadResponse.Vars.advance, hat.sector]

theorem Inv.record (h : Inv p s) {size : UInt64} {data : ℕ → UInt8}
    (hhost : s.host = .record size data) :
    Inv p { s with host := .prompt, received := s.received ++ [slice data 0 size.toNat] } := by
  obtain ⟨n, hphase, hq, h1, h2, hlast, hgets⟩ :=
    h.reads (by simp [hhost]) (by simp [hhost]) (by simp [hhost]) (by simp [hhost])
  simp only [Gets, hhost] at hgets
  obtain ⟨hsize, hlen, hdata⟩ := hgets
  rw [← hdata, ← hsize] at hlast
  have hall := prefix_concat h.responses (by rw [List.length_map]; exact hlen) hlast
  refine ⟨h.agrees, h.idle, h.once, h.serving, ?_, h.commands, ?_, h.own⟩
  · refine (stage_committed (n := n) ?_).mpr ⟨hq, h1, h2, ?_, ?_⟩
    · exact hphase
    · simp only
      rw [← hdata, ← hsize]
      exact hlast
    · simp only [Gets, List.length_append, List.length_singleton]
      exact hlen
  · exact hall ▸ List.prefix_refl _

theorem Inv.host_step (h : Inv p s) {e : HostEnv} (hw : Works p s (.host e))
    (hs : hostStep p.behind e s = some s') : Inv p s' := by
  unfold hostStep at hs
  unfold Works at hw
  cases hhost : s.host with
  | prompt =>
    simp only [hhost] at hs hw
    by_cases hexit : e.command = exitWord
    · rw [if_pos hexit] at hs
      obtain rfl := Option.some.inj hs
      obtain ⟨hphase, hq, h1, h2⟩ := h.prompt hhost
      refine ⟨h.agrees, h.idle, h.once, h.serving, ?_, h.commands, h.responses, h.own⟩
      have hst := h.stage
      cases hp : s.exchange.phase with
      | idle =>
        obtain ⟨-, h3, h4, -⟩ := (stage_idle hp).mp hst
        refine (stage_idle ?_).mpr ⟨hq, h3, h4, Or.inr rfl⟩
        exact hp
      | requested => exact absurd hp hphase
      | committed n =>
        obtain ⟨-, -, h3, h4, -⟩ := (stage_committed hp).mp hst
        refine (stage_committed ?_).mpr ⟨hq, h1, h3, h4, ?_⟩
        · exact hp
        · simp only [Gets]
          omega
    · rw [if_neg hexit] at hs
      obtain rfl := Option.some.inj hs
      exact h.command hhost hexit (hw hexit)
  | sending arrived =>
    simp only [hhost] at hs
    obtain rfl := Option.some.inj hs
    refine ⟨h.agrees, h.idle, h.once, h.serving, ?_, h.commands, h.responses, h.own⟩
    have hst := h.stage
    cases hp : s.exchange.phase with
    | idle =>
      have h4 := ((stage_idle hp).mp hst).2.2.2
      simp [hhost] at h4
    | requested =>
      obtain ⟨h1, h2, h3, -⟩ := (stage_requested hp).mp hst
      refine (stage_requested ?_).mpr ⟨h1, h2, h3, Or.inr (Or.inr rfl)⟩
      exact hp
    | committed n =>
      obtain ⟨hq, h1, h2, h3, h4⟩ := (stage_committed hp).mp hst
      simp only [Gets, hhost] at h4
      refine (stage_committed ?_).mpr ⟨hq, h1, h2, h3, h4.2⟩
      exact hp
  | waiting =>
    simp only [hhost] at hs
    obtain rfl := Option.some.inj hs
    exact h.poll hhost e.malloc
  | ready size data =>
    simp only [hhost] at hs hw
    obtain ⟨n, hphase, -, -, -, -, hgets⟩ :=
      h.reads (by simp [hhost]) (by simp [hhost]) (by simp [hhost]) (by simp [hhost])
    simp only [Gets, hhost] at hgets
    obtain ⟨responseBuffer, hbuf⟩ := Option.isSome_iff_exists.mp hw
    simp only [hbuf, Option.some.injEq] at hs
    subst hs
    refine h.reading hphase ⟨hgets.1, hgets.2, 0, rfl, ?_, Or.inl rfl, rfl, rfl,
      fun _ hp => absurd hp List.not_mem_nil⟩
    exact hgets.1
  | reading size data v =>
    simp only [hhost] at hs
    exact h.sector hhost hs.symm
  | copyToUser size data responseBuffer =>
    simp only [hhost] at hs hw
    obtain rfl := Option.some.inj hs
    obtain ⟨n, hphase, -, -, -, -, hgets⟩ :=
      h.reads (by simp [hhost]) (by simp [hhost]) (by simp [hhost]) (by simp [hhost])
    simp only [Gets, hhost] at hgets
    obtain ⟨hsize, hlen, hdata⟩ := hgets
    refine h.reading hphase ⟨hsize, hlen, ?_⟩
    have hcopy := slice_memcpy data 0 (slice responseBuffer 0 n)
    rw [length_slice] at hcopy
    rw [hw, hsize, Nat.sub_zero, hcopy, hdata]
  | record size data =>
    simp only [hhost] at hs hw
    rw [if_pos hw] at hs
    obtain rfl := Option.some.inj hs
    exact h.record hhost
  | exited =>
    simp only [hhost] at hs
    cases hs

end Host

/-! ### Runs -/

theorem Inv.step {p : Setup} {s s' : SessionState} {a : SessionAction} (h : Inv p s)
    (hw : Works p s a) (hs : sessionStep p s a = some s') : Inv p s' := by
  cases a with
  | host e => exact h.host_step hw hs
  | library e => exact h.library_step hw hs
  | gadget a => exact h.gadget_step hw hs

theorem inv_of_reach (p : Setup) {g : GadgetState} {exchange : Exchange} (hfresh : Fresh g exchange)
    (tmp gz : Option (List UInt8)) (resp : Lun) {s : SessionState}
    (h : Reach (sessionStep p) (Works p) (sessionInit g exchange tmp gz resp) s) : Inv p s :=
  h.inv (fun _ _ _ hi hw hs => hi.step hw hs) (sessionInit_inv p hfresh tmp gz resp)

theorem Inv.length_asked {p : Setup} {s : SessionState} (h : Inv p s) :
    s.asked.length ≤ s.answers.length + 1 ∧ s.answers.length ≤ s.received.length + 1 := by
  have hst := h.stage
  cases hp : s.exchange.phase with
  | idle =>
    obtain ⟨-, h1, h2, -⟩ := (stage_idle hp).mp hst
    simp [h1, h2]
  | requested =>
    obtain ⟨h1, h2, -⟩ := (stage_requested hp).mp hst
    omega
  | committed n =>
    obtain ⟨-, h1, -, -, h4⟩ := (stage_committed hp).mp hst
    refine ⟨by omega, ?_⟩
    unfold Gets at h4
    cases hhost : s.host <;> simp only [hhost] at h4 <;> omega

/-- The library is at work on a request. -/
def Busy (s : SessionState) : Prop := s.library ≠ .request ∧ s.library ≠ .check

/-- A device library that does not compress, on a device with a LUN for every number. -/
def plain : Setup := ⟨someLuns, false, []⟩

/-- The system before the first command, with three bytes in the temporary file and a response file of
one sector. -/
def beforeAll : SessionState :=
  sessionInit fresh (start (HardLog.Host.Mailbox.zeros _) (HardLog.Host.Mailbox.zeros _)
    (HardLog.Host.Mailbox.zeros _) (HardLog.Host.Mailbox.zeros _) []) (some [1, 2, 3]) none
    ⟨List.replicate 512 7, 1, by rw [List.length_replicate], by decide⟩

/-- `ALL` at the prompt. -/
def askAll : HostEnv := ⟨ofChars "ALL".toList, fun _ _ => [], none, none, 0, true⟩

/-- `ALL` is sent, and arrives. -/
def allSchedule : List SessionAction :=
  [.host askAll, .gadget (.command writeCommand 0),
    .gadget (.main ⟨true, false, 0, fun _ => 0, true, true⟩)]

/-- A system that lets the device library do what it wants. -/
def pollAll : LibraryEnv := ⟨true, true, opening⟩

theorem reach_handle : ∃ s, Reach (sessionStep plain) (Works plain) beforeAll s ∧
    s.library = .handle ∧ s.asked = [askAll.command] := by
  obtain ⟨s, hrun, hlib, hasked⟩ : ∃ s, runFrom (sessionStep plain) beforeAll
      (allSchedule ++ List.replicate 6 (.library pollAll)) = some s ∧
        s.library = .handle ∧ s.asked = [askAll.command] := ⟨_, rfl, rfl, rfl⟩
  have hworks : EachStep (sessionStep plain) (Works plain) beforeAll
      (allSchedule ++ List.replicate 6 (.library pollAll)) := by decide +kernel
  exact ⟨s, Reach.of_runFrom hrun hworks, hlib, hasked⟩

end HardLog.System.Exchanges
