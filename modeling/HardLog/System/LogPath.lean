import HardLog.Device.DumpRange
import HardLog.Device.Transfer
import HardLog.Host.Tiling
import HardLog.System.Exchanges

/-! # From the log to the response

The device library reads the log file while the gadget writes it. `answers_from_log`: still, the response
to `ALL` that the host library records is made of the first bytes that `do_hardlog_write` has accepted,
up to an end offset that the gadget has reported, if the dump adds nothing to its range. -/

namespace HardLog.System.LogPath

open HardLog.Lib.CString HardLog.Lib.Files HardLog.Lib.Runs HardLog.Lib.Refine
open HardLog.Device.Cbuff (Store storeStep chunk_cases writerStep_cases)
open HardLog.Device.Gadget (Config GadgetState HardlogIoctlRequest gadgetStep ioctlStep
  ioctlStep_frame)
open HardLog.Device.Stream (WritesAll Fits)
open HardLog.Device.Reports (StoreOk HasStore AtEnd)
open HardLog.Device.Response HardLog.Device.Stale HardLog.Device.DumpRange
open HardLog.Device.AppendOnly (writeBlock calm)
open HardLog.Host.ReadResponse (Lun)
open HardLog.Host.Tiling (hardlogWelcome length_hardlogWelcome)
open HardLog.System.Session HardLog.System.Exchanges

/-! ### The gadget's log -/

section Gadget

variable {cfg : Config} {g g' : GadgetState} {a : HardLog.Device.Gadget.Action}

/-- The store of the gadget keeps what it has accepted, and reports no more. -/
structure Stored (g : GadgetState) : Prop where
  reports : HardLog.Device.AppendOnly.Inv g
  store : ∃ flushed e, HardLog.Device.Stream.Inv flushed e g.store
  atEnd : AtEnd g.store

theorem storeStep_stream {t t' : Store} {b : HardLog.Device.Cbuff.Action}
    (hs : storeStep t b = some t') : t.stream <+: t'.stream := by
  cases b with
  | chunk data =>
    obtain ⟨-, rfl⟩ := chunk_cases hs
    exact List.prefix_refl _
  | writer =>
    rcases writerStep_cases hs with ⟨chunk, -, rfl⟩ | ⟨chunk, -, -, rfl⟩ | ⟨chunk, i, -, rfl⟩ |
      ⟨chunk, -, rfl⟩
    · exact List.prefix_refl _
    · exact List.prefix_refl _
    · exact List.prefix_refl _
    · exact List.prefix_append _ _
  | flusher len =>
    obtain rfl := Option.some.inj hs
    simp only [HardLog.Device.Transfer.flusherStep_stream, List.prefix_refl]

theorem Stored.step (hfast : cfg.faststorage = true) (h : Stored g) (hok : StoreOk g a)
    (hs : gadgetStep cfg g a = some g') : Stored g' ∧ g.store.stream <+: g'.store.stream ∧
      g.store.fileEndOffset ≤ g'.store.fileEndOffset := by
  obtain ⟨hreports, hadv⟩ := h.reports.step hfast hs
  obtain ⟨t, hreach, rfl, -⟩ :=
    HardLog.Device.Reports.simulation hfast g a g' g.store ⟨rfl, h.reports.offLog⟩ hok hs
  obtain ⟨hstore, hend⟩ := hreach.inv
    (I := fun t => (∃ flushed e, HardLog.Device.Stream.Inv flushed e t) ∧ AtEnd t)
    (fun t b t' ⟨⟨_, _, hi⟩, he⟩ hC hs => ⟨hi.step hC.1 hC.2 hs, he.step hC.1 hs⟩) ⟨h.store, h.atEnd⟩
  refine ⟨⟨hreports, hstore, hend⟩, ?_, hadv.endOffset_le⟩
  exact hreach.rel (I := fun _ => True) (R := fun t t' => t.stream <+: t'.stream)
    (fun _ => List.prefix_refl _) (fun _ _ _ => List.IsPrefix.trans) (fun _ _ _ _ _ _ => trivial)
    (fun _ _ _ _ _ hs => storeStep_stream hs) trivial

theorem Stored.contents (h : Stored g) : g.store.file.contents <+: g.store.stream ∧
    g.store.file.contents.length = g.store.fileEndOffset := by
  obtain ⟨flushed, e, hinv⟩ := h.store
  refine ⟨?_, ?_⟩
  · rw [hinv.contents]
    exact List.take_prefix _ _
  · exact (HardLog.Lib.Memory.length_slice _ _ _).trans h.atEnd.symm

end Gadget

/-! ### The requests -/

/-- The request is for the log from its start on, and up to an end that was written. -/
structure Logged (stream : List UInt8) (r : Request) : Prop where
  start : r.logFileStartOffset = 0
  log : ∀ log, r.env.log = some log → ∃ written rest, log = written ++ rest ∧ written <+: stream ∧
    r.logFileEndOffset.toNat ≤ written.length

theorem Logged.mono {stream stream' : List UInt8} {r : Request} (h : Logged stream r)
    (hle : stream <+: stream') : Logged stream' r where
  start := h.start
  log := fun log hlog => by
    obtain ⟨written, rest, heq, hpre, hend⟩ := h.log log hlog
    exact ⟨written, rest, heq, hpre.trans hle, hend⟩

/-- The request that the library is at. -/
def inHand : LibraryPc → Option Request
  | .compress r | .fopen r | .copy r _ | .message r _ => some r
  | _ => none

/-- The store of the gadget takes the step as it should. -/
def Stores (s : SessionState) : SessionAction → Prop
  | .gadget a => StoreOk s.gadget a
  | _ => True

instance (s : SessionState) : (a : SessionAction) → Decidable (Stores s a)
  | .gadget a => inferInstanceAs (Decidable (StoreOk s.gadget a))
  | .host _ | .library _ => isTrue trivial

/-- What a reply of the ioctl says of the log. -/
structure LogInv (s : SessionState) : Prop where
  stored : Stored s.gadget
  reply : ∀ hreq, s.gadget.ioctl = .copyToUser hreq → hreq.logFileStartOffset = 0
  start : s.hreq.logFileStartOffset = 0
  fin_le : s.hreq.logFileEndOffset ≤ s.gadget.store.fileEndOffset
  request : ∀ r, inHand s.library = some r → Logged s.gadget.store.stream r
  answers : ∀ a ∈ s.answers, Logged s.gadget.store.stream a.request

section Steps

variable {p : Setup} {s s' : SessionState}

theorem hostStep_frame {behind : List UInt8} {e : HostEnv} (hs : hostStep behind e s = some s') :
    s'.gadget = s.gadget ∧ s'.hreq = s.hreq ∧ s'.library = s.library ∧ s'.answers = s.answers := by
  unfold hostStep at hs
  cases hhost : s.host with
  | waiting =>
    simp only [hhost, Option.some.injEq] at hs
    subst hs
    unfold pollStep
    simp only
    split
    · split <;> exact ⟨rfl, rfl, rfl, rfl⟩
    · exact ⟨rfl, rfl, rfl, rfl⟩
  | prompt | record =>
    simp only [hhost] at hs
    split_ifs at hs <;> obtain rfl := Option.some.inj hs <;> exact ⟨rfl, rfl, rfl, rfl⟩
  | sending | copyToUser =>
    simp only [hhost, Option.some.injEq] at hs
    subst hs
    exact ⟨rfl, rfl, rfl, rfl⟩
  | ready size data =>
    simp only [hhost] at hs
    split at hs <;> obtain rfl := Option.some.inj hs <;> exact ⟨rfl, rfl, rfl, rfl⟩
  | reading size data v =>
    simp only [hhost] at hs
    split at hs
    · obtain rfl := Option.some.inj hs
      exact ⟨rfl, rfl, rfl, rfl⟩
    · split_ifs at hs <;> obtain rfl := Option.some.inj hs <;> exact ⟨rfl, rfl, rfl, rfl⟩
  | exited =>
    simp only [hhost] at hs
    cases hs

theorem LogInv.host_step (h : LogInv s) {behind : List UInt8} {e : HostEnv}
    (hs : hostStep behind e s = some s') : LogInv s' := by
  obtain ⟨hg, hreq, hlib, hans⟩ := hostStep_frame hs
  constructor
  · rw [hg]
    exact h.stored
  · rw [hg]
    exact h.reply
  · rw [hreq]
    exact h.start
  · rw [hreq, hg]
    exact h.fin_le
  · rw [hlib, hg]
    exact h.request
  · rw [hans, hg]
    exact h.answers

theorem LogInv.gadget_step (hfast : p.cfg.faststorage = true) (h : LogInv s)
    {a : HardLog.Device.Gadget.Action} (hok : StoreOk s.gadget a)
    (hs : sessionStep p s (.gadget a) = some s') : LogInv s' := by
  obtain ⟨ha, gadget, hstep, rfl⟩ := gadget_cases hs
  have hl := leaves_of_step ha hstep
  obtain ⟨hstored, hstream, hend⟩ := h.stored.step hfast hok hstep
  exact ⟨hstored, fun hreq hio => h.reply hreq (hl.ioctl ▸ hio), h.start, h.fin_le.trans hend,
    fun r hr => (h.request r hr).mono hstream, fun a ha => (h.answers a ha).mono hstream⟩

theorem requestStep_frame (copied : Bool) (s : SessionState) :
    (requestStep copied s).gadget = ioctlStep s.gadget copied ∧
      (requestStep copied s).answers = s.answers ∧
      ((requestStep copied s).library = s.library ∨ (requestStep copied s).library = .check) ∧
      ((requestStep copied s).hreq = s.hreq ∨
        s.gadget.ioctl = .copyToUser (requestStep copied s).hreq) := by
  unfold requestStep
  cases hio : s.gadget.ioctl with
  | copyToUser hreq =>
    cases copied <;> simp only [ioctlStep, hio] <;> simp
  | _ =>
    simp only
    split <;> simp

theorem LogInv.request_step (hfast : p.cfg.faststorage = true) (h : LogInv s)
    (hlib : s.library = .request) (copied : Bool) : LogInv (requestStep copied s) := by
  obtain ⟨hg, hans, hpc, hreq⟩ := requestStep_frame copied s
  obtain ⟨hstored, hstream, hend⟩ := h.stored.step (a := .ioctl copied) hfast trivial rfl
  have hstore := (ioctlStep_frame s.gadget copied).1
  refine ⟨hg ▸ hstored, fun hreq' hio => ?_, ?_, ?_, fun r hr => ?_, ?_⟩
  · rw [hg] at hio
    unfold ioctlStep at hio
    cases hpc' : s.gadget.ioctl with
    | offsets flag =>
      simp only [hpc', HardLog.Device.Gadget.IoctlPc.copyToUser.injEq] at hio
      rw [← hio]
    | idle | clear =>
      simp only [hpc'] at hio
      cases hio
    | copyToUser | test =>
      simp only [hpc'] at hio
      split_ifs at hio
  · rcases hreq with hsame | hreply
    · rw [hsame]
      exact h.start
    · exact h.reply _ hreply
  · rw [hg, hstore]
    rcases hreq with hsame | hreply
    · rw [hsame]
      exact h.fin_le
    · exact (h.stored.reports.reply_le _ hreply).1
  · rcases hpc with hpc | hpc <;> simp [hpc, hlib, inHand] at hr
  · rw [hg, hans, hstore]
    exact h.answers

theorem LogInv.going_on (h : LogInv s) {library : LibraryPc} {tmp gz : Option (List UInt8)} {resp : Lun}
    (hhand : ∀ r, inHand library = some r → Logged s.gadget.store.stream r) :
    LogInv { s with library, tmp, gz, resp } :=
  ⟨h.stored, h.reply, h.start, h.fin_le, hhand, h.answers⟩

/-- **The dump** takes the log as it is, which is at least as long as the gadget has reported. -/
theorem LogInv.logged (h : LogInv s) (command : List UInt8) (env : Env) :
    Logged s.gadget.store.stream ⟨command, UInt64.ofNat s.hreq.logFileStartOffset,
      UInt64.ofNat s.hreq.logFileEndOffset, withLog env s.gadget⟩ where
  start := by
    rw [h.start]
    rfl
  log := fun log hlog => by
    obtain ⟨rest, -, rfl⟩ := Option.map_eq_some_iff.mp hlog
    obtain ⟨hpre, hlen⟩ := h.stored.contents
    refine ⟨_, rest, rfl, hpre, ?_⟩
    rw [hlen, UInt64.toNat_ofNat']
    exact (Nat.mod_le _ _).trans h.fin_le

theorem LogInv.library_step (hfast : p.cfg.faststorage = true) (h : LogInv s) {e : LibraryEnv}
    (hs : libraryStep p.compression e s = some s') : LogInv s' := by
  have hnone : ∀ library, inHand library = none →
      ∀ r, inHand library = some r → Logged s.gadget.store.stream r := by
    intro library hnone r hr
    rw [hnone] at hr
    cases hr
  unfold libraryStep at hs
  cases hlib : s.library with
  | request =>
    simp only [hlib] at hs
    obtain rfl := Option.some.inj hs
    exact h.request_step hfast hlib e.copied
  | check | handle =>
    simp only [hlib] at hs
    split_ifs at hs <;> obtain rfl := Option.some.inj hs <;> exact h.going_on (hnone _ rfl)
  | dump command =>
    simp only [hlib] at hs
    have hlogged : ∀ r, some (⟨command, UInt64.ofNat s.hreq.logFileStartOffset,
        UInt64.ofNat s.hreq.logFileEndOffset, withLog e.env s.gadget⟩ : Request) = some r →
          Logged s.gadget.store.stream r := by
      rintro _ ⟨rfl⟩
      exact h.logged command e.env
    split at hs <;> obtain rfl := Option.some.inj hs
    · exact h.going_on hlogged
    · exact h.going_on hlogged
    · exact h.going_on (hnone _ rfl)
  | compress r =>
    simp only [hlib] at hs
    have hhand := h.request
    rw [hlib] at hhand
    split_ifs at hs <;> obtain rfl := Option.some.inj hs <;> exact h.going_on hhand
  | fopen r =>
    simp only [hlib] at hs
    have hhand := h.request
    rw [hlib] at hhand
    split at hs
    · obtain rfl := Option.some.inj hs
      exact h.going_on hhand
    · split_ifs at hs <;> obtain rfl := Option.some.inj hs <;> exact h.going_on hhand
  | copy r c =>
    simp only [hlib] at hs
    have hhand := h.request
    rw [hlib] at hhand
    obtain rfl := Option.some.inj hs
    unfold copyStep
    split_ifs <;> exact h.going_on hhand
  | message r bytes =>
    simp only [hlib] at hs
    have hhand := h.request r (by rw [hlib]; rfl)
    split_ifs at hs <;> obtain rfl := Option.some.inj hs
    · refine ⟨h.stored, h.reply, h.start, h.fin_le, hnone _ rfl, fun a ha => ?_⟩
      rcases List.mem_append.mp ha with ha | ha
      · exact h.answers a ha
      · rw [List.mem_singleton.mp ha]
        exact hhand
    · exact h.going_on (hnone _ rfl)
  | crashed =>
    simp only [hlib] at hs
    cases hs

theorem LogInv.step (hfast : p.cfg.faststorage = true) (h : LogInv s) {a : SessionAction}
    (hok : Stores s a) (hs : sessionStep p s a = some s') : LogInv s' := by
  cases a with
  | host e => exact h.host_step hs
  | library e => exact h.library_step hfast hs
  | gadget a => exact h.gadget_step hfast hok hs

end Steps

/-! ### What a response is made of -/

/-- The dump of the request fills its buffers and comes to an end with nothing but NUL bytes behind its
range. -/
structure DumpsRange (r : Request) (log : List UInt8) (tmpbuf : Buffer bufSize) : Prop where
  log_eq : r.env.log = some log
  tmpbuf_eq : r.env.tmpbuf = some tmpbuf
  trimbuf : r.env.trimbuf = true
  length_lt : log.length < 2 ^ 63
  exact : Exact tmpbuf.bytes (behindStart r log) (size r)

/-- **The response to `ALL`**: the first accepted bytes, without NUL bytes. -/
theorem Logged.dump_all {stream : List UInt8} {r : Request} (h : Logged stream r)
    (hall : r.command = ofChars "ALL".toList) (hcreates : Creates r) {log : List UInt8}
    {tmpbuf : Buffer bufSize} (hd : DumpsRange r log tmpbuf) :
    HardLog.Device.Response.dump r =
      .wrote (removeNullChars (stream.take r.logFileEndOffset.toNat)) := by
  obtain ⟨written, rest, hlog, ⟨more, hmore⟩, hend⟩ := h.log log hd.log_eq
  have hstart : r.logFileStartOffset.toNat = 0 := by
    rw [h.start]
    rfl
  have hsize : size r = r.logFileEndOffset.toNat := by
    rw [size, h.start, UInt64.sub_zero]
  have hle : size r ≤ (behindStart r log).length := by
    rw [behindStart, hstart, List.drop_zero, hlog, List.length_append]
    omega
  have hseek : fseek log r.logFileStartOffset = behindStart r log := by
    rw [fseek, if_pos (by omega), behindStart]
  have hnot : ¬ 100 * 1024 * 1024 ≤ (r.logFileEndOffset - r.logFileStartOffset).toNat :=
    Nat.not_le.mpr (hcreates.1 hall)
  rw [HardLog.Device.Response.dump, if_pos hall, dumpLog, if_neg hnot]
  simp only [hd.log_eq, hd.tmpbuf_eq, hd.trimbuf, hcreates.2.2, Bool.not_true, Bool.false_eq_true,
    if_false, hseek]
  rw [← size, dumpLoop_eq_append tmpbuf.length_bytes hle (Nat.le_refl _)]
  have hbehind : (if size r % bufSize = 0 then []
      else removeNullChars (overrun (behindStart r log) (size r)) ++
        removeNullChars (unread tmpbuf.bytes (behindStart r log) (size r))) = [] := by
    split_ifs with hmod
    · rfl
    · obtain ⟨h1, h2⟩ := hd.exact.resolve_left fun hdvd => hmod (Nat.dvd_iff_mod_eq_zero.mp hdvd)
      rw [(removeNullChars_eq_nil_iff _).mpr h1, (removeNullChars_eq_nil_iff _).mpr h2,
        List.append_nil]
  rw [hbehind, List.append_nil, behindStart, hstart, List.drop_zero, hsize, hlog, ← hmore,
    List.take_append_of_le_length hend, List.take_append_of_le_length hend]

theorem gadgetInit_stored (garbage log : ℕ → UInt8) (lunFile : ℕ → ℕ → UInt8)
    (common : HardLog.Device.Gadget.FsgCommon) :
    Stored (HardLog.Device.Gadget.gadgetInit garbage log lunFile common) :=
  ⟨HardLog.Device.AppendOnly.gadgetInit_inv garbage log lunFile common,
    ⟨0, 0, HardLog.Device.Stream.storeInit_inv garbage log⟩, rfl⟩

theorem invs_of_reach (p : Setup) (hfast : p.cfg.faststorage = true) (garbage log : ℕ → UInt8)
    (lunFile : ℕ → ℕ → UInt8) (common : HardLog.Device.Gadget.FsgCommon)
    {exchange : HardLog.Host.Mailbox.Exchange} (hphase : exchange.phase = .idle)
    (tmp gz : Option (List UInt8)) (resp : Lun) {s : SessionState}
    (h : Reach (sessionStep p) (fun s a => Works p s a ∧ Stores s a)
      (sessionInit (HardLog.Device.Gadget.gadgetInit garbage log lunFile common) exchange tmp gz resp)
      s) : Inv p s ∧ LogInv s := by
  refine ⟨inv_of_reach p ⟨rfl, rfl, hphase⟩ tmp gz resp (h.mono fun _ _ hw => hw.1), ?_⟩
  refine h.inv (fun _ _ _ hi hw hs => hi.step hfast hw.2 hs)
    ⟨gadgetInit_stored garbage log lunFile common, fun _ hio => (by cases hio), rfl, Nat.zero_le _,
      fun _ hr => (by cases hr), fun _ ha => ?_⟩
  exact absurd ha List.not_mem_nil

theorem answer_from_log {p : Setup} {s : SessionState} (hlog : LogInv s) (hinv : Inv p s) {a : Answer}
    (ha : a ∈ s.answers) (hall : a.request.command = ofChars "ALL".toList)
    (hmakes : Makes p.compression a.request) (hsends : Sends a.request.env) {log : List UInt8}
    {tmpbuf : Buffer bufSize} (hd : DumpsRange a.request log tmpbuf) :
    a.request.logFileEndOffset.toNat ≤ s.gadget.store.stream.length ∧
      stored p.compression a.request.env (removeNullChars
        (s.gadget.store.stream.take a.request.logFileEndOffset.toNat)) = some a.bytes := by
  have hlogged := hlog.answers a ha
  obtain ⟨written, rest, -, hpre, hend⟩ := hlogged.log log hd.log_eq
  refine ⟨hend.trans hpre.length_le, ?_⟩
  obtain ⟨bytes, hdump, hstored⟩ := hinv.own a ha hmakes hsends
  rw [hlogged.dump_all hall hmakes.1 hd] at hdump
  rw [Dump.wrote.inj hdump]
  exact hstored

/-- Memory with zeros in it. -/
def cleared : Buffer 512 := HardLog.Host.Mailbox.zeros _

/-- The text in the welcome block. -/
def welcomeText : List UInt8 := ofChars "Welcome to HARDLOG!\n".toList

/-- The welcome block is received and flushed. -/
def welcomeSchedule : List HardLog.Device.Gadget.Action :=
  [.command writeBlock 0, .main calm, .complete 0 (fun i => welcomeText.getD i 0) 0 512] ++
    List.replicate 6 (.main calm) ++ List.replicate 4 (.flusher 512)

/-- The device library, with nothing in the log file behind what was written to it. -/
def dumpAll : LibraryEnv := ⟨true, true, { fair with log := some [] }⟩

/-- The system before the welcome block. -/
def beforeAny : SessionState :=
  sessionInit (HardLog.Device.Gadget.gadgetInit (fun _ => 0) (fun _ => 0) (fun _ _ => 0) writeBlock)
    (HardLog.Host.Mailbox.start (HardLog.Host.Mailbox.zeros _) (HardLog.Host.Mailbox.zeros _)
      (HardLog.Host.Mailbox.zeros _) (HardLog.Host.Mailbox.zeros _) [])
    none none beforeAll.resp

/-- The welcome block, and `ALL` up to the dump. -/
def dumpSchedule : List SessionAction :=
  welcomeSchedule.map SessionAction.gadget ++ allSchedule ++ List.replicate 7 (.library dumpAll)

/-- Where the dump begins. -/
def atDump : SessionState := stateAfter (sessionStep plain) beforeAny dumpSchedule

/-- The request. -/
def allRequest : Request := ⟨ofChars "ALL".toList, 0, 512, withLog dumpAll.env atDump.gadget⟩

/-- Where it ends. -/
def afterDump : SessionState := { atDump with library := .compress allRequest, tmp := some welcomeText }

theorem atDump_library : atDump.library = .dump (ofChars "ALL".toList) := rfl

theorem atDump_hreq : atDump.hreq.logFileStartOffset = 0 ∧ atDump.hreq.logFileEndOffset = 512 ∧
    atDump.gadget.store.stream = hardlogWelcome cleared ∧ atDump.gadget.store.fileEndOffset = 512 := by
  decide +kernel

theorem reach_atDump :
    Reach (sessionStep plain) (fun t a => Works plain t a ∧ Stores t a) beforeAny atDump := by
  have hsome : (runFrom (sessionStep plain) beforeAny dumpSchedule).isSome = true := by decide +kernel
  have hok : EachStep (sessionStep plain) (fun t a => Works plain t a ∧ Stores t a) beforeAny
      dumpSchedule := by decide +kernel
  exact Reach.stateAfter hsome hok

theorem dumpsRange_allRequest : Logged (hardlogWelcome cleared) allRequest ∧
    DumpsRange allRequest (hardlogWelcome cleared) zeros := by
  obtain ⟨h1, h2, h3, h4⟩ := atDump_hreq
  obtain ⟨-, hlog⟩ := invs_of_reach plain rfl _ _ _ _ rfl _ _ _ reach_atDump
  have hlogged := hlog.logged (ofChars "ALL".toList) dumpAll.env
  rw [h1, h2, h3] at hlogged
  obtain ⟨hpre, hlen⟩ := hlog.stored.contents
  have hcontents : atDump.gadget.store.file.contents = hardlogWelcome cleared := by
    rw [← h3]
    exact hpre.eq_of_length (by rw [hlen, h4, h3, length_hardlogWelcome])
  refine ⟨hlogged, ?_, rfl, rfl, ?_, Or.inr ⟨?_, ?_⟩⟩
  · simp only [allRequest, withLog, dumpAll, Option.map_some, List.append_nil, hcontents]
  · rw [length_hardlogWelcome]
    decide
  · have hdrop : (behindStart allRequest (hardlogWelcome cleared)).drop (size allRequest) = [] :=
      List.drop_eq_nil_of_le (length_hardlogWelcome cleared).le
    rw [overrun, hdrop, List.take_nil]
    exact fun b hb => absurd hb List.not_mem_nil
  · have hlt : size allRequest < bufSize := by decide
    unfold unread
    simp only [if_pos hlt]
    exact fun b hb => List.eq_of_mem_replicate (List.mem_of_mem_drop hb)

theorem removeNullChars_welcome :
    removeNullChars ((hardlogWelcome cleared).take 512) = welcomeText := by decide +kernel

theorem atDump_step : sessionStep plain atDump (.library dumpAll) = some afterDump := by
  obtain ⟨h1, h2, -⟩ := atDump_hreq
  obtain ⟨hlogged, hd⟩ := dumpsRange_allRequest
  have hdump : HardLog.Device.Response.dump allRequest = .wrote welcomeText := by
    rw [← removeNullChars_welcome]
    exact hlogged.dump_all rfl ⟨fun _ => by decide, rfl, rfl⟩ hd
  have hrequest : (⟨ofChars "ALL".toList, UInt64.ofNat 0, UInt64.ofNat 512,
      withLog dumpAll.env atDump.gadget⟩ : Request) = allRequest := rfl
  simp only [sessionStep, libraryStep, atDump_library, h1, h2, hrequest, hdump]
  rfl

theorem answerable_allRequest : allRequest.command = ofChars "ALL".toList ∧
    Makes plain.compression allRequest ∧ Sends allRequest.env ∧
      DumpsRange allRequest (hardlogWelcome cleared) zeros :=
  ⟨rfl, ⟨⟨fun _ => by decide, rfl, rfl⟩, fun h => by cases h⟩, ⟨rfl, rfl, rfl, rfl⟩,
    dumpsRange_allRequest.2⟩

theorem reach_answered : ∃ s,
    Reach (sessionStep plain) (fun s a => Works plain s a ∧ Stores s a) beforeAny s ∧
      (∃ a, s.answers = [a] ∧ a.request = allRequest) ∧
        s.gadget.store.stream = hardlogWelcome cleared := by
  have hok : EachStep (sessionStep plain) (fun s a => Works plain s a ∧ Stores s a) afterDump
      (List.replicate 5 (.library dumpAll)) := by decide +kernel
  obtain ⟨s, hrun, hrequests, hstream⟩ : ∃ s, runFrom (sessionStep plain) afterDump
      (List.replicate 5 (.library dumpAll)) = some s ∧
        s.answers.map (fun a => a.request) = [allRequest] ∧
          s.gadget.store.stream = atDump.gadget.store.stream := ⟨_, rfl, rfl, rfl⟩
  have hworks : Works plain atDump (.library dumpAll) ∧ Stores atDump (.library dumpAll) :=
    ⟨by simp [Works, atDump_library], trivial⟩
  have hdumped := reach_atDump.snoc hworks atDump_step
  exact ⟨s, hdumped.trans (Reach.of_runFrom hrun hok), List.map_eq_singleton_iff.mp hrequests,
    hstream.trans atDump_hreq.2.2.1⟩

end HardLog.System.LogPath
